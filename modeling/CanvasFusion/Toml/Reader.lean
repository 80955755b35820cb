import CanvasFusion.Toml.Document
import CanvasFusion.Toml.Text

/-!
# Reading TOML

`Toml.parse` reads a document: one statement to a line, comments from a number sign to the end of
the line, values nested at most `maxDepth` deep and keys of at most as many parts.
-/

namespace CanvasFusion.Toml

/-- How deep arrays and tables in braces may be nested, and how many parts a key may have. -/
def maxDepth : Nat := 79

namespace Reader

open Text (isBlank lineBreak?)

def skip (cs : List Char) : List Char := cs.dropWhile isBlank

def skipComment (cs : List Char) : List Char :=
  match cs with
  | '#' :: rest => rest.dropWhile Text.isPlain
  | cs => cs

def skipAll : Nat → List Char → List Char
  | 0, cs => cs
  | steps + 1, cs =>
    match skip cs with
    | '#' :: rest => skipAll steps (rest.dropWhile Text.isPlain)
    | cs =>
      match lineBreak? cs with
      | some rest => skipAll steps rest
      | none => cs

/-- Drop the rest of a line that may hold a comment, and its end. -/
def endLine? (cs : List Char) : Option (List Char) :=
  match skipComment (skip cs) with
  | [] => some []
  | cs => lineBreak? cs

/-! ## Keys -/

def isBareKey (c : Char) : Bool := c.isAlphanum || c == '_' || c == '-'

def keyPart? (cs : List Char) : Option (String × List Char) :=
  match cs with
  | '"' :: _ => Text.line? cs
  | '\x27' :: _ => Text.line? cs
  | cs =>
    match cs.span isBareKey with
    | ([], _) => none
    | (key, rest) => some (String.ofList key, rest)

/-- The parts of a key, with blanks around them and points between them. -/
def keyParts : Nat → List Char → Option (List String × List Char)
  | 0, _ => none
  | steps + 1, cs => do
    let (part, cs) ← keyPart? (skip cs)
    match skip cs with
    | '.' :: rest =>
      let (parts, rest) ← keyParts steps rest
      pure (part :: parts, rest)
    | rest => pure ([part], rest)

/-- A key: its path and its last part. -/
def key? (cs : List Char) : Option ((List String × String) × List Char) := do
  let (parts, rest) ← keyParts maxDepth cs
  let key ← parts.getLast?
  pure ((parts.dropLast, key), rest)

/-! ## Values -/

/-- A date with a blank and a time behind it. -/
def datedTime? (date rest : List Char) : Option (Toml × List Char) :=
  let time := rest.takeWhile Literal.isPart
  if Literal.isOffsetTime time then
    some (.moment (String.ofList (date ++ ' ' :: time)), rest.dropWhile Literal.isPart)
  else none

def bare? (cs : List Char) : Option (Toml × List Char) :=
  let literal := cs.takeWhile Literal.isPart
  let rest := cs.dropWhile Literal.isPart
  match rest with
  | ' ' :: c :: later =>
    if Literal.isDate literal ∧ Literal.isPart c then datedTime? literal (c :: later)
    else (Literal.read? literal).map fun v => (v, rest)
  | rest => (Literal.read? literal).map fun v => (v, rest)

/-- The items of an array after its bracket; a comma may stand behind the last one. -/
def items (value : List Char → Option (Toml × List Char)) :
    Nat → List Toml → List Char → Option (Toml × List Char)
  | 0, _, _ => none
  | steps + 1, read, cs =>
    match skipAll steps cs with
    | ']' :: rest => some (.array read.reverse, rest)
    | cs => do
      let (v, rest) ← value cs
      match skipAll steps rest with
      | ',' :: rest => items value steps (v :: read) rest
      | ']' :: rest => pure (.array (v :: read).reverse, rest)
      | _ => none

def pair? (value : List Char → Option (Toml × List Char)) (cs : List Char) :
    Option (((List String × String) × Toml) × List Char) := do
  let (key, rest) ← key? cs
  match rest with
  | '=' :: rest =>
    let (v, rest) ← value (skip rest)
    pure ((key, v), rest)
  | _ => none

/-- The pairs of a table in braces, of which there is at least one. -/
def pairs (value : List Char → Option (Toml × List Char)) :
    Nat → List ((List String × String) × Toml) → List Char → Option (Toml × List Char)
  | 0, _, _ => none
  | steps + 1, read, cs => do
    let (p, rest) ← pair? value cs
    match skip rest with
    | ',' :: rest => pairs value steps (p :: read) rest
    | '\x7d' :: rest =>
      let table ← inlineTable (p :: read).reverse
      pure (table, rest)
    | _ => none

/-- A value; arrays and tables in it are nested at most `depth` deep. -/
def value : Nat → List Char → Option (Toml × List Char)
  | depth, cs =>
    match cs with
    | '"' :: _ => (Text.read? cs).map fun (s, rest) => (.text s, rest)
    | '\x27' :: _ => (Text.read? cs).map fun (s, rest) => (.text s, rest)
    | '[' :: rest =>
      match depth with
      | 0 => none
      | depth + 1 => items (value depth) (cs.length + 1) [] rest
    | '\x7b' :: rest =>
      match depth with
      | 0 => none
      | depth + 1 =>
        match skip rest with
        | '\x7d' :: rest => some (.table .inline [], rest)
        | rest => pairs (value depth) (cs.length + 1) [] rest
    | cs => bare? cs

/-! ## Statements -/

def statement? (cs : List Char) : Option (Statement × List Char) :=
  match cs with
  | '[' :: '[' :: rest => do
    let ((path, key), rest) ← key? rest
    match rest with
    | ']' :: ']' :: rest => pure (.arrayHeader path key, ← endLine? rest)
    | _ => none
  | '[' :: rest => do
    let ((path, key), rest) ← key? rest
    match rest with
    | ']' :: rest => pure (.header path key, ← endLine? rest)
    | _ => none
  | cs => do
    let (((path, key), v), rest) ← pair? (value maxDepth) cs
    pure (.entry path key v, ← endLine? rest)

def statements : Nat → List Char → Option (List Statement)
  | 0, _ => none
  | steps + 1, cs =>
    match skipAll steps cs with
    | [] => some []
    | cs => do
      let (s, rest) ← statement? cs
      let ss ← statements steps rest
      pure (s :: ss)

def skipMark (cs : List Char) : List Char :=
  match cs with
  | '\ufeff' :: rest => rest
  | cs => cs

end Reader

def parse (cs : List Char) : Option Toml := do
  let ss ← Reader.statements (cs.length + 2) (Reader.skipMark cs)
  ofStatements ss

end CanvasFusion.Toml
