import CanvasFusion.Toml.Basic

/-!
# Bare literals of TOML

Numbers, booleans, dates and times are written without quotes. Each is recognised from the whole run
of characters it takes up. An integer has 64 bits; in base ten it may have a sign and has no leading
zero. Underscores may stand between digits, one at a time. A float that is too large for a double is
refused. Dates have to be days of the calendar.
-/

namespace CanvasFusion.Toml.Literal

def isPart (c : Char) : Bool :=
  c.isAlphanum || c == '_' || c == '+' || c == '-' || c == '.' || c == ':'

/-- Digits without the underscores between them; nothing if an underscore stands elsewhere. -/
def ungroup (isDigit : Char → Bool) : List Char → Option (List Char)
  | [] => none
  | [c] => if isDigit c then some [c] else none
  | c :: '_' :: rest => if isDigit c then (ungroup isDigit rest).map (c :: ·) else none
  | c :: rest => if isDigit c then (ungroup isDigit rest).map (c :: ·) else none

def digitValue (c : Char) : Nat :=
  if c.isDigit then c.toNat - '0'.toNat
  else if 'a' ≤ c then c.toNat - 'a'.toNat + 10
  else c.toNat - 'A'.toNat + 10

def value (base : Nat) (ds : List Char) : Nat := ds.foldl (fun n c => n * base + digitValue c) 0

def isHexDigit (c : Char) : Bool :=
  c.isDigit || ('a' ≤ c && c ≤ 'f') || ('A' ≤ c && c ≤ 'F')

/-- Whether a literal is negative, and the literal without its sign. -/
def sign (cs : List Char) : Bool × List Char :=
  match cs with
  | '-' :: rest => (true, rest)
  | '+' :: rest => (false, rest)
  | rest => (false, rest)

/-- The digits of a number in base ten, which has no leading zero. -/
def decimal? (cs : List Char) : Option (List Char) :=
  match cs with
  | '0' :: _ :: _ => none
  | cs => ungroup Char.isDigit cs

def bounded? (i : Int) : Option Toml :=
  if -0x8000000000000000 ≤ i ∧ i < 0x8000000000000000 then some (.integer i) else none

def integer? (cs : List Char) : Option Toml :=
  match cs with
  | '0' :: 'x' :: ds => do
    let ds ← ungroup isHexDigit ds
    bounded? (value 16 ds)
  | '0' :: 'o' :: ds => do
    let ds ← ungroup (fun c => '0' ≤ c && c ≤ '7') ds
    bounded? (value 8 ds)
  | '0' :: 'b' :: ds => do
    let ds ← ungroup (fun c => c == '0' || c == '1') ds
    bounded? (value 2 ds)
  | cs => do
    let (negative, ds) := sign cs
    let ds ← decimal? ds
    let n : Int := value 10 ds
    bounded? (if negative then -n else n)

/-! ## Floats -/

def fraction? (cs : List Char) : Option (List Char × List Char) :=
  match cs with
  | '.' :: rest => do
    let (ds, rest) := rest.span fun c => c != 'e' && c != 'E'
    let ds ← ungroup Char.isDigit ds
    pure (ds, rest)
  | rest => some ([], rest)

/-- The exponent of a float; zero if it has none. -/
def exponent? (cs : List Char) : Option Int :=
  match cs with
  | [] => some 0
  | c :: rest =>
    if c == 'e' || c == 'E' then do
      let (negative, ds) := sign rest
      let ds ← ungroup Char.isDigit ds
      let n : Int := value 10 ds
      pure (if negative then -n else n)
    else none

/-- Whether `m · 10^e` rounds to infinity as a double: it is at least half a unit above the largest
one. Far from that only the number of digits is looked at. -/
def isHuge (m : Nat) (e : Int) : Bool :=
  let places : Int := (Nat.toDigits 10 m).length + e
  if m = 0 ∨ places < 309 then false
  else if 309 < places then true
  else
    let bound := Nat.pow 2 1024 - Nat.pow 2 970
    if 0 ≤ e then bound ≤ m * Nat.pow 10 e.toNat else bound * Nat.pow 10 (-e).toNat ≤ m

/-- A float has a point or an exponent, or is `inf` or `nan`. -/
def float? (cs : List Char) : Option Toml := do
  let (negative, body) := sign cs
  if body = ['i', 'n', 'f'] ∨ body = ['n', 'a', 'n'] then pure (.float (String.ofList cs))
  else
    let (whole, rest) := body.span fun c => c != '.' && c != 'e' && c != 'E'
    if rest.isEmpty then none
    else
      let whole ← decimal? whole
      let (fraction, rest) ← fraction? rest
      let e ← exponent? rest
      if !negative && isHuge (value 10 (whole ++ fraction)) (e - fraction.length) then none
      else pure (.float (String.ofList cs))

/-! ## Dates and times -/

/-- A number of exactly `n` digits in `lo .. hi`, and what follows it. -/
def field? (n lo hi : Nat) (cs : List Char) : Option (Nat × List Char) :=
  let ds := cs.take n
  if ds.length = n ∧ ds.all Char.isDigit then
    let v := value 10 ds
    if lo ≤ v ∧ v ≤ hi then some (v, cs.drop n) else none
  else none

/-- What follows a character that has to be there. -/
def after? (c : Char) (cs : List Char) : Option (List Char) :=
  match cs with
  | c' :: rest => if c' = c then some rest else none
  | [] => none

def isLeapYear (y : Nat) : Bool := (y % 4 == 0 && y % 100 != 0) || y % 400 == 0

def daysIn (year month : Nat) : Nat :=
  if month = 2 then if isLeapYear year then 29 else 28
  else if month = 4 ∨ month = 6 ∨ month = 9 ∨ month = 11 then 30
  else 31

def date? (cs : List Char) : Option (List Char) := do
  let (year, cs) ← field? 4 0 9999 cs
  let cs ← after? '-' cs
  let (month, cs) ← field? 2 1 12 cs
  let cs ← after? '-' cs
  let (_, cs) ← field? 2 1 (daysIn year month) cs
  pure cs

/-- What follows a time of day. Parts of a second may be added, and a leap second is a second. -/
def time? (cs : List Char) : Option (List Char) := do
  let (_, cs) ← field? 2 0 23 cs
  let cs ← after? ':' cs
  let (_, cs) ← field? 2 0 59 cs
  let cs ← after? ':' cs
  let (_, cs) ← field? 2 0 60 cs
  match cs with
  | '.' :: rest =>
    if (rest.takeWhile Char.isDigit).isEmpty then none else some (rest.dropWhile Char.isDigit)
  | cs => some cs

/-- Whether the rest of a date and time is an offset or nothing. -/
def isOffset (cs : List Char) : Bool :=
  match cs with
  | [] | ['Z'] | ['z'] => true
  | c :: rest =>
    (c == '+' || c == '-') &&
      (do
        let (_, cs) ← field? 2 0 23 rest
        let cs ← after? ':' cs
        let (_, cs) ← field? 2 0 59 cs
        pure cs.isEmpty : Option Bool) == some true

/-- Whether a literal is a time of day with an offset or without one. -/
def isOffsetTime (cs : List Char) : Bool := (time? cs).any isOffset

def isDate (cs : List Char) : Bool := (date? cs).any List.isEmpty

def moment? (cs : List Char) : Option Toml :=
  let dated : Bool := match date? cs with
    | some [] => true
    | some (c :: rest) => (c == 'T' || c == 't') && isOffsetTime rest
    | none => false
  if dated || (time? cs).any List.isEmpty then some (.moment (String.ofList cs)) else none

def read? (cs : List Char) : Option Toml :=
  if cs = ['t', 'r', 'u', 'e'] then some (.boolean true)
  else if cs = ['f', 'a', 'l', 's', 'e'] then some (.boolean false)
  else (moment? cs).or ((float? cs).or (integer? cs))

end CanvasFusion.Toml.Literal
