import CanvasFusion.Json.Basic

/-!
# Reading JSON

The grammar of JSON over a list of characters: blanks are spaces, tabs and line breaks; a number has
no leading zero and no bare point; a text holds no control character; nothing but blanks follows the
value. `Json.parse` is total: the recursion is bounded by twice the length of the document, and each
two levels of it consume at least one character.
-/

namespace CanvasFusion.Json

namespace Reader

def isBlank (c : Char) : Bool := c == ' ' || c == '\n' || c == '\t' || c == '\r'

def skip (cs : List Char) : List Char := cs.dropWhile isBlank

def hexDigit? (c : Char) : Option Nat :=
  if '0' ≤ c ∧ c ≤ '9' then some (c.toNat - '0'.toNat)
  else if 'a' ≤ c ∧ c ≤ 'f' then some (c.toNat - 'a'.toNat + 10)
  else if 'A' ≤ c ∧ c ≤ 'F' then some (c.toNat - 'A'.toNat + 10)
  else none

def hex4? (a b c d : Char) : Option Nat := do
  let a ← hexDigit? a
  let b ← hexDigit? b
  let c ← hexDigit? c
  let d ← hexDigit? d
  pure (((a * 16 + b) * 16 + c) * 16 + d)

def isHighSurrogate (n : Nat) : Bool := 0xd800 ≤ n && n < 0xdc00

def isLowSurrogate (n : Nat) : Bool := 0xdc00 ≤ n && n < 0xe000

def escape? (c : Char) : Option Char :=
  match c with
  | '"' => some '"'
  | '\\' => some '\\'
  | '/' => some '/'
  | 'b' => some '\x08'
  | 'f' => some '\x0c'
  | 'n' => some '\n'
  | 'r' => some '\r'
  | 't' => some '\t'
  | _ => none

def joined (high low : Nat) : Char :=
  Char.ofNat (0x10000 + (high - 0xd800) * 0x400 + (low - 0xdc00))

/-- The rest of a text after its opening quote. `read` holds the characters so far, last first,
`whole` whether all escapes so far named characters, and `high` a first half of a surrogate pair
that waits for its second. -/
def text (read : List Char) (whole : Bool) (high : Option Nat) :
    List Char → Option (Option String × List Char)
  | [] => none
  | '"' :: rest =>
    some (if whole && high.isNone then some (String.ofList read.reverse) else none, rest)
  | '\\' :: 'u' :: a :: b :: c :: d :: rest =>
    match hex4? a b c d with
    | none => none
    | some n =>
      match isLowSurrogate n, high with
      | true, some h => text (joined h n :: read) whole none rest
      | true, none => text read false none rest
      | false, high =>
        if isHighSurrogate n then text read (whole && high.isNone) (some n) rest
        else text (Char.ofNat n :: read) (whole && high.isNone) none rest
  | '\\' :: c :: rest =>
    match escape? c with
    | none => none
    | some c => text (c :: read) (whole && high.isNone) none rest
  | c :: rest =>
    if c.toNat < 0x20 then none else text (c :: read) (whole && high.isNone) none rest

def digitValue (c : Char) : Nat := c.toNat - '0'.toNat

def digitsValue (ds : List Char) : Nat := ds.foldl (fun n c => n * 10 + digitValue c) 0

def digits (cs : List Char) : List Char × List Char :=
  (cs.takeWhile Char.isDigit, cs.dropWhile Char.isDigit)

def fraction? (cs : List Char) : Option (List Nat × List Char) :=
  match cs with
  | '.' :: rest =>
    match digits rest with
    | ([], _) => none
    | (ds, rest) => some (ds.map digitValue, rest)
  | rest => some ([], rest)

def exponent? (cs : List Char) : Option (Option Int × List Char) :=
  let unsigned (negative : Bool) (cs : List Char) : Option (Option Int × List Char) :=
    match digits cs with
    | ([], _) => none
    | (ds, rest) =>
      let e : Int := digitsValue ds
      some (some (if negative then -e else e), rest)
  let signed (cs : List Char) : Option (Option Int × List Char) :=
    match cs with
    | '+' :: rest => unsigned false rest
    | '-' :: rest => unsigned true rest
    | rest => unsigned false rest
  match cs with
  | 'e' :: rest => signed rest
  | 'E' :: rest => signed rest
  | rest => some (none, rest)

def number? (negative : Bool) (cs : List Char) : Option (Numeral × List Char) :=
  match digits cs with
  | ([], _) => none
  | ('0' :: _ :: _, _) => none
  | (ds, rest) => do
    let (fraction, rest) ← fraction? rest
    let (exponent, rest) ← exponent? rest
    pure (⟨negative, digitsValue ds, fraction, exponent⟩, rest)

mutual

def value : Nat → List Char → Option (Json × List Char)
  | 0, _ => none
  | depth + 1, cs =>
    match skip cs with
    | 'n' :: 'u' :: 'l' :: 'l' :: rest => some (.null, rest)
    | 't' :: 'r' :: 'u' :: 'e' :: rest => some (.bool true, rest)
    | 'f' :: 'a' :: 'l' :: 's' :: 'e' :: rest => some (.bool false, rest)
    | '"' :: rest =>
      match text [] true none rest with
      | none => none
      | some (s, rest) => some (.str s, rest)
    | '[' :: rest =>
      match skip rest with
      | ']' :: rest => some (.arr [], rest)
      | rest => items depth [] rest
    | '\x7b' :: rest =>
      match skip rest with
      | '\x7d' :: rest => some (.obj [], rest)
      | rest => members depth [] rest
    | '-' :: rest =>
      match number? true rest with
      | none => none
      | some (n, rest) => some (.num n, rest)
    | rest =>
      match number? false rest with
      | none => none
      | some (n, rest) => some (.num n, rest)

/-- The items of an array up to its closing bracket; `read` holds those so far, last first. -/
def items : Nat → List Json → List Char → Option (Json × List Char)
  | 0, _, _ => none
  | depth + 1, read, cs =>
    match value depth cs with
    | none => none
    | some (v, rest) =>
      match skip rest with
      | ',' :: rest => items depth (v :: read) rest
      | ']' :: rest => some (.arr (v :: read).reverse, rest)
      | _ => none

/-- The members of an object up to its closing brace; `read` holds those so far, last first. -/
def members : Nat → List (Option String × Json) → List Char → Option (Json × List Char)
  | 0, _, _ => none
  | depth + 1, read, cs =>
    match skip cs with
    | '"' :: rest =>
      match text [] true none rest with
      | none => none
      | some (key, rest) =>
        match skip rest with
        | ':' :: rest =>
          match value depth rest with
          | none => none
          | some (v, rest) =>
            match skip rest with
            | ',' :: rest => members depth ((key, v) :: read) rest
            | '\x7d' :: rest => some (.obj ((key, v) :: read).reverse, rest)
            | _ => none
        | _ => none
    | _ => none

end

end Reader

def parse (cs : List Char) : Option Json :=
  match Reader.value (2 * cs.length + 2) cs with
  | none => none
  | some (v, rest) => if (Reader.skip rest).isEmpty then some v else none

end CanvasFusion.Json
