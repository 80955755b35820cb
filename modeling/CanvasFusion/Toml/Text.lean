import CanvasFusion.Toml.Literal

/-!
# Quoted texts of TOML

A text stands in double quotes, with escapes, or in single quotes, without. Three quotes begin a
text of several lines: a line break right after them is dropped, one or two quotes may stand inside
the text and before its end, and in double quotes a backslash at the end of a line takes away all
blanks up to the next character. No text holds a control character other than a tab.
-/

namespace CanvasFusion.Toml.Text

/-- A character that may stand for itself. -/
def isPlain (c : Char) : Bool := c == '\t' || (' ' ≤ c && c != '\x7f')

def isBlank (c : Char) : Bool := c == ' ' || c == '\t'

def lineBreak? (cs : List Char) : Option (List Char) :=
  match cs with
  | '\n' :: rest => some rest
  | '\r' :: '\n' :: rest => some rest
  | _ => none

def skipLines : List Char → List Char
  | ' ' :: rest => skipLines rest
  | '\t' :: rest => skipLines rest
  | '\n' :: rest => skipLines rest
  | '\r' :: '\n' :: rest => skipLines rest
  | cs => cs

/-- The character a number stands for; surrogates are none. -/
def scalar? (n : Nat) : Option Char :=
  if n < 0xd800 ∨ (0xe000 ≤ n ∧ n < 0x110000) then some (Char.ofNat n) else none

/-- A character given by `n` hexadecimal digits. -/
def hexEscape? (n : Nat) (cs : List Char) : Option (Char × List Char) := do
  let ds := cs.take n
  if ds.length = n ∧ ds.all Literal.isHexDigit then
    let c ← scalar? (Literal.value 16 ds)
    pure (c, cs.drop n)
  else none

def escape? (cs : List Char) : Option (Char × List Char) :=
  match cs with
  | 'b' :: rest => some ('\x08', rest)
  | 't' :: rest => some ('\t', rest)
  | 'n' :: rest => some ('\n', rest)
  | 'f' :: rest => some ('\x0c', rest)
  | 'r' :: rest => some ('\r', rest)
  | '"' :: rest => some ('"', rest)
  | '\\' :: rest => some ('\\', rest)
  | 'u' :: rest => hexEscape? 4 rest
  | 'U' :: rest => hexEscape? 8 rest
  | _ => none

/-- The rest of a text in double quotes; `read` holds the characters so far, last first. -/
def basic : Nat → List Char → List Char → Option (String × List Char)
  | 0, _, _ => none
  | steps + 1, read, cs =>
    match cs with
    | [] => none
    | '"' :: rest => some (String.ofList read.reverse, rest)
    | '\\' :: rest =>
      match escape? rest with
      | some (c, rest) => basic steps (c :: read) rest
      | none => none
    | c :: rest => if isPlain c then basic steps (c :: read) rest else none

def literal (cs : List Char) : Option (String × List Char) :=
  match cs.span (· != '\x27') with
  | (cs, _ :: rest) => if cs.all isPlain then some (String.ofList cs, rest) else none
  | (_, []) => none

/-- What a run of `n` quotes does in a text of several lines, when `rest` follows it: up to two are
part of the text, three end it, and up to two more may stand before the end. -/
inductive Run where
  | inside (quotes : Nat)
  | closing (quotes : Nat)
  | broken

def Run.ofLength (n : Nat) : Run :=
  if n ≤ 2 then .inside n else if n ≤ 5 then .closing (n - 3) else .broken

/-- The rest of a text of several lines; `escapes` says whether it has escapes. -/
def multiline (quote : Char) (escapes : Bool) :
    Nat → List Char → List Char → Option (String × List Char)
  | 0, _, _ => none
  | steps + 1, read, cs =>
    match cs with
    | [] => none
    | '\n' :: rest => multiline quote escapes steps ('\n' :: read) rest
    | '\r' :: '\n' :: rest => multiline quote escapes steps ('\n' :: read) rest
    | c :: rest =>
      if c = quote then
        match Run.ofLength (cs.takeWhile (· == quote)).length with
        | .inside n =>
          multiline quote escapes steps (List.replicate n quote ++ read) (cs.dropWhile (· == quote))
        | .closing n =>
          some (String.ofList (List.replicate n quote ++ read).reverse, cs.dropWhile (· == quote))
        | .broken => none
      else if c = '\\' ∧ escapes then
        match escape? rest with
        | some (c, rest) => multiline quote escapes steps (c :: read) rest
        | none =>
          match lineBreak? (rest.dropWhile isBlank) with
          | some rest => multiline quote escapes steps read (skipLines rest)
          | none => none
      else if isPlain c then multiline quote escapes steps (c :: read) rest
      else none

def trimBreak (cs : List Char) : List Char := (lineBreak? cs).getD cs

/-- A text on one line, as keys are. -/
def line? (cs : List Char) : Option (String × List Char) :=
  match cs with
  | '"' :: rest => basic (cs.length + 1) [] rest
  | '\x27' :: rest => literal rest
  | _ => none

def read? (cs : List Char) : Option (String × List Char) :=
  match cs with
  | '"' :: '"' :: '"' :: rest => multiline '"' true (cs.length + 1) [] (trimBreak rest)
  | '\x27' :: '\x27' :: '\x27' :: rest => multiline '\x27' false (cs.length + 1) [] (trimBreak rest)
  | cs => line? cs

end CanvasFusion.Toml.Text
