import CanvasFusion.Number.Numeral

/-!
# JSON values

A JSON document as a tree that keeps what was written: numbers stay numerals, and an object is the
list of its members in order, a repeated key included. What a reader of the document makes of a
number out of range or of a repeated key is decided where the value is used.
-/

namespace CanvasFusion

/-- A JSON value. A text is `none` when one of its escapes names half of a surrogate pair: such a
text can be passed over, but not read. -/
inductive Json where
  | null
  | bool (b : Bool)
  | num (n : Numeral)
  | str (s : Option String)
  | arr (items : List Json)
  | obj (members : List (Option String × Json))
  deriving Repr, Inhabited

namespace Json

def ofNat (n : Nat) : Json := .num (.ofNat n)

def ofInt (n : Int) : Json := .num (.ofInt n)

def ofText (s : String) : Json := .str (some s)

def ofNats (ns : List Nat) : Json := .arr (ns.map ofNat)

def object (members : List (String × Json)) : Json :=
  .obj (members.map fun (k, v) => (some k, v))

/-- A value, or null in place of none. -/
def ofOption {α : Type} (f : α → Json) : Option α → Json
  | none => .null
  | some a => f a

end Json

end CanvasFusion
