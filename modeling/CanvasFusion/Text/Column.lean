/-!
# Columns

Text padded to a width. A width counts characters, and text that is wider stays as it is.
-/

namespace CanvasFusion.Column

def left (width : Nat) (s : String) : String :=
  s ++ String.ofList (List.replicate (width - s.length) ' ')

def right (width : Nat) (s : String) : String :=
  String.ofList (List.replicate (width - s.length) ' ') ++ s

end CanvasFusion.Column
