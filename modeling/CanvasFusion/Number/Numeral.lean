import CanvasFusion.Number.Shortest

/-!
# Numerals

A number as it is written: sign, whole part, digits after the point, exponent. Keeping the written
form apart from the value lets an integer be told from a decimal and `-0` from `0`.

A numeral is read as a single in two steps. Its digits are collected into a significand of at most
64 bits; later digits only move the exponent. The significand is then scaled by one power of ten in
double precision and the result is rounded to single precision. Integers that fit in 64 bits skip
the double.
-/

namespace CanvasFusion

structure Numeral where
  negative : Bool
  whole : Nat
  /-- The digits after the point, if there is a point. -/
  fraction : List Nat
  exponent : Option Int
  deriving DecidableEq, Repr, Inhabited

namespace Numeral

def ofNat (n : Nat) : Numeral := ⟨false, n, [], none⟩

def ofInt (n : Int) : Numeral := ⟨decide (n < 0), n.natAbs, [], none⟩

def digitsOf (n : Nat) : List Nat := (Nat.toDigits 10 n).map fun c => c.toNat - '0'.toNat

/-! ## Reading -/

def wordSize : Nat := 0x10000000000000000

/-- The integer a numeral writes: no point, no exponent, and in the range of a 64-bit word, signed
or not. A negative zero is not an integer. -/
def toInt? (n : Numeral) : Option Int :=
  if n.fraction ≠ [] ∨ n.exponent.isSome then none
  else if n.negative then
    if n.whole = 0 ∨ 0x8000000000000000 < n.whole then none else some (-n.whole)
  else if n.whole < wordSize then some n.whole else none

/-- Take up whole digits while the significand fits in 64 bits. Gives the significand and how many
digits were left over. -/
def takeWhole (s : Nat) : List Nat → Nat × Nat
  | [] => (s, 0)
  | d :: ds => if s * 10 + d < wordSize then takeWhole (s * 10 + d) ds else (s, ds.length + 1)

/-- Take up digits after the point while the significand fits in 64 bits. Gives the significand and
how many digits were taken. -/
def takeFraction (s taken : Nat) : List Nat → Nat × Nat
  | [] => (s, taken)
  | d :: ds =>
    if s * 10 + d < wordSize then takeFraction (s * 10 + d) (taken + 1) ds else (s, taken)

def powerOfTen (e : Nat) : Float := Float.ofScientific 1 false e

/-- Divide by `10^308` the given number of times, then by `10^rest`. -/
def scaleDown (rest : Nat) (f : Float) : Nat → Float
  | 0 => f / powerOfTen rest
  | n + 1 => if f == 0 then f else scaleDown rest (f / powerOfTen 308) n

/-- `f · 10^e`, if it is finite. -/
def scale? (f : Float) (e : Int) : Option Float :=
  match e with
  | .ofNat e =>
    if e ≤ 308 then
      let r := f * powerOfTen e
      if r.isInf then none else some r
    else if f == 0 then some f else none
  | .negSucc e => some (scaleDown (e + 1 - 308 * (e / 308)) f (e / 308))

/-- The double a numeral is read as, without its sign; none if it is too large. -/
def magnitude? (n : Numeral) : Option Float :=
  let (s, dropped) := takeWhole 0 (digitsOf n.whole)
  let (s, taken) := takeFraction s 0 n.fraction
  let start : Int := (dropped : Int) - taken
  let e := n.exponent.getD 0
  if 0x80000000 ≤ e.natAbs then
    if s ≠ 0 ∧ 0 < e then none else some 0
  else scale? (UInt64.ofNat s).toFloat (start + e)

/-- The single a numeral is read as; none if its magnitude is past every double. -/
def toSingle? (n : Numeral) : Option Single :=
  match n.toInt? with
  | some i => some (Single.ofInt i)
  | none => n.magnitude?.map fun f => Single.ofFloat (if n.negative then -f else f)

/-! ## Writing -/

/-- The text of a numeral. An exponent always carries its sign. -/
def text (n : Numeral) : String :=
  let sign := if n.negative then "-" else ""
  let point := if n.fraction = [] then "" else "." ++ String.join (n.fraction.map Nat.repr)
  let exponent := match n.exponent with
    | none => ""
    | some (.ofNat e) => s!"e+{e}"
    | some (.negSucc e) => s!"e-{e + 1}"
  s!"{sign}{n.whole}{point}{exponent}"

/-- How a decimal is laid out: positional while its exponent lies in `least .. greatest`, and then
with a digit after the point even if that digit is zero; scientific otherwise. -/
structure Layout where
  least : Int
  greatest : Int
  deriving DecidableEq, Repr

/-- The numeral of `± digits · 10^power`. -/
def ofDecimal (layout : Layout) (negative : Bool) (d : Decimal) : Numeral :=
  let ds := digitsOf d.digits
  let e : Int := (ds.length : Int) - 1 + d.power
  if layout.least ≤ e ∧ e ≤ layout.greatest then
    match d.power with
    | .ofNat k => ⟨negative, d.digits * Nat.pow 10 k, [0], none⟩
    | .negSucc k =>
      let places := k + 1
      ⟨negative, d.digits / Nat.pow 10 places,
        let rest := digitsOf (d.digits % Nat.pow 10 places)
        List.replicate (places - rest.length) 0 ++ rest, none⟩
  else ⟨negative, ds.headD 0, ds.tail, some e⟩

def ofSingle (layout : Layout) (x : Single) : Numeral :=
  if x.isZero then ⟨x.isNegative, 0, [0], none⟩
  else ofDecimal layout x.isNegative x.shortest

end Numeral

end CanvasFusion
