import CanvasFusion.Json.Codec
import CanvasFusion.Pair

/-!
# Reading typed values out of JSON

A decoder takes a JSON value to the value it describes, or to nothing. A record may be written as an
object (members in any order, unknown ones passed over, none of the known ones twice) or as an array
of its fields in order; a field that is left out takes its default, if it has one.

Some places take a value in whole before they know what it describes. There every text and number
has to be readable and the nesting bounded (`Readable`), even in members that are then passed over.
-/

namespace CanvasFusion.Json

/-- A whole number in `lo .. hi`. -/
def int? (lo hi : Int) : Json → Option Int
  | .num n => n.toInt?.bind fun i => if lo ≤ i ∧ i ≤ hi then some i else none
  | _ => none

/-- A size: a whole number of 64 bits. -/
def nat? : Json → Option Nat
  | .num n => n.toInt?.bind fun i => if 0 ≤ i then some i.toNat else none
  | _ => none

def text? : Json → Option String
  | .str s => s
  | _ => none

def bool? : Json → Option Bool
  | .bool b => some b
  | _ => none

def list? {α : Type} (f : Json → Option α) : Json → Option (List α)
  | .arr items => items.mapM f
  | _ => none

def pair? {α : Type} (f : Json → Option α) : Json → Option (Pair α)
  | .arr [a, b] => do
    let a ← f a
    let b ← f b
    pure ⟨a, b⟩
  | _ => none

def nullable? {α : Type} (f : Json → Option α) : Json → Option (Option α)
  | .null => some none
  | j => (f j).map some

def under (key : String) (members : List (Option String × Json)) : List Json :=
  (members.filter fun m => m.1 == some key).map (·.2)

/-- The fields of a record in the order of their names; a field left out is `none`. -/
def fields? (names : List String) : Json → Option (List (Option Json))
  | .obj members =>
    if members.all fun m => m.1.isSome then
      names.mapM fun name =>
        match under name members with
        | [] => some none
        | [v] => some (some v)
        | _ => none
    else none
  | .arr items =>
    if items.length ≤ names.length then
      some (items.map some ++ List.replicate (names.length - items.length) none)
    else none
  | _ => none

def required {α : Type} (f : Json → Option α) : Option Json → Option α
  | some j => f j
  | none => none

def withDefault {α : Type} (default : α) (f : Json → Option α) : Option Json → Option α
  | some j => f j
  | none => some default

mutual

/-- Whether every text and number of a value can be read and arrays and objects are nested at most
`depth` deep. -/
def readable (c : Codec) (depth : Nat) : Json → Bool
  | .num n => n.toInt?.isSome || (c.single? (.num n)).isSome
  | .str s => s.isSome
  | .arr items => 0 < depth && readableItems c (depth - 1) items
  | .obj members => 0 < depth && readableMembers c (depth - 1) members
  | _ => true

def readableItems (c : Codec) (depth : Nat) : List Json → Bool
  | [] => true
  | v :: rest => readable c depth v && readableItems c depth rest

def readableMembers (c : Codec) (depth : Nat) : List (Option String × Json) → Bool
  | [] => true
  | (k, v) :: rest => k.isSome && readable c depth v && readableMembers c depth rest

end

end CanvasFusion.Json
