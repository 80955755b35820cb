import CanvasFusion.Json.Printer
import CanvasFusion.Json.Reader

/-!
# Codecs

How documents are read and printed, and how a number of single precision is read from a value and
written as one. Graph files are read and written over any codec; the program runs with
`Codec.standard`.
-/

namespace CanvasFusion.Json

def single? : Json → Option Single
  | .num n => n.toSingle?
  | _ => none

structure Codec where
  parse : List Char → Option Json
  pretty : Json → String
  single? : Json → Option Single
  ofSingle : Single → Json

def Codec.standard : Codec := ⟨Json.parse, Json.pretty, Json.single?, Json.ofSingle⟩

end CanvasFusion.Json
