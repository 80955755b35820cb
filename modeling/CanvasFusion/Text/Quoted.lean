import CanvasFusion.Text.Visible

/-!
# Quoted text

A text in double quotes, written so that every character shows: quotes, backslashes, line breaks,
tabs and zero have short escapes, and other hidden characters are given by their number.
-/

namespace CanvasFusion.Quoted

def hex (n : Nat) : List Char := Nat.toDigits 16 n

def escaped (c : Char) : List Char :=
  match c with
  | '"' => ['\\', '"']
  | '\\' => ['\\', '\\']
  | '\n' => ['\\', 'n']
  | '\r' => ['\\', 'r']
  | '\t' => ['\\', 't']
  | '\x00' => ['\\', '0']
  | c => if isVisible c then [c] else ['\\', 'u', '\x7b'] ++ hex c.toNat ++ ['\x7d']

def text (s : String) : String := "\"" ++ String.ofList (s.toList.flatMap escaped) ++ "\""

end CanvasFusion.Quoted
