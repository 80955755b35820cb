import CanvasFusion.Json.Basic

/-!
# Writing JSON

Two layouts of the same tree: `compact` on one line, and `pretty` with two blanks of indentation for
each level, one item or member to a line, and a blank after the colon. Control characters are
escaped; every other character is written as it is.
-/

namespace CanvasFusion.Json

namespace Printer

def hexDigit (n : Nat) : Char :=
  if n < 10 then Char.ofNat ('0'.toNat + n) else Char.ofNat ('a'.toNat + n - 10)

def escaped (c : Char) : List Char :=
  match c with
  | '"' => ['\\', '"']
  | '\\' => ['\\', '\\']
  | '\n' => ['\\', 'n']
  | '\r' => ['\\', 'r']
  | '\t' => ['\\', 't']
  | '\x08' => ['\\', 'b']
  | '\x0c' => ['\\', 'f']
  | c =>
    if c.toNat < 0x20 then ['\\', 'u', '0', '0', hexDigit (c.toNat / 16), hexDigit (c.toNat % 16)]
    else [c]

def quoted (s : String) : String := "\"" ++ String.ofList (s.toList.flatMap escaped) ++ "\""

/-- A text in quotes; one that cannot be read is written empty. -/
def text (s : Option String) : String := quoted (s.getD "")

def newline (level : Nat) : String := "\n" ++ String.ofList (List.replicate (2 * level) ' ')

end Printer

open Printer

mutual

def compact : Json → String
  | .null => "null"
  | .bool true => "true"
  | .bool false => "false"
  | .num n => n.text
  | .str s => Printer.text s
  | .arr items => "[" ++ String.intercalate "," (compactItems items) ++ "]"
  | .obj members => "\x7b" ++ String.intercalate "," (compactMembers members) ++ "\x7d"

def compactItems : List Json → List String
  | [] => []
  | v :: rest => compact v :: compactItems rest

def compactMembers : List (Option String × Json) → List String
  | [] => []
  | (k, v) :: rest => (Printer.text k ++ ":" ++ compact v) :: compactMembers rest

end

mutual

def prettyAt (level : Nat) : Json → String
  | .arr (v :: rest) =>
    "[" ++ newline (level + 1)
      ++ String.intercalate ("," ++ newline (level + 1)) (prettyItems (level + 1) (v :: rest))
      ++ newline level ++ "]"
  | .obj (m :: rest) =>
    "\x7b" ++ newline (level + 1)
      ++ String.intercalate ("," ++ newline (level + 1)) (prettyMembers (level + 1) (m :: rest))
      ++ newline level ++ "\x7d"
  | .null => "null"
  | .bool true => "true"
  | .bool false => "false"
  | .num n => n.text
  | .str s => Printer.text s
  | .arr [] => "[]"
  | .obj [] => "\x7b\x7d"

def prettyItems (level : Nat) : List Json → List String
  | [] => []
  | v :: rest => prettyAt level v :: prettyItems level rest

def prettyMembers (level : Nat) : List (Option String × Json) → List String
  | [] => []
  | (k, v) :: rest => (Printer.text k ++ ": " ++ prettyAt level v) :: prettyMembers level rest

end

def pretty (j : Json) : String := prettyAt 0 j

/-- Singles are written positionally from a millionth up to a million millions. -/
def singleLayout : Numeral.Layout := ⟨-6, 12⟩

/-- The shortest numeral of a single; what is not finite has none and is written null. -/
def ofSingle (x : Single) : Json :=
  if x.isFinite then .num (.ofSingle singleLayout x) else .null

end CanvasFusion.Json
