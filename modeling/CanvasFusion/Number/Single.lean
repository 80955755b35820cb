/-!
# Single-precision numbers as bit patterns

A number of the graph (a pad value, a slope, a scale, an element of a constant) is kept as its
IEEE 754 binary32 bit pattern. Equality is then equality of bits, so two graphs can be compared,
and every conversion below is exact integer arithmetic: a finite pattern stands for
`± significand · 2^power`, and `nearest` rounds such a product back to a pattern, ties to even.
-/

namespace CanvasFusion

structure Single where
  bits : UInt32
  deriving DecidableEq, Repr, Inhabited

/-- `m / 2^k`, rounded to the nearest integer, a half to the even one. -/
def halfEven (m k : Nat) : Nat :=
  let unit := Nat.pow 2 k
  let q := m / unit
  let r := m % unit
  if unit < 2 * r then q + 1
  else if 2 * r < unit then q
  else if r = 0 then q
  else q + q % 2

namespace Single

def zero : Single := ⟨0⟩

def one : Single := ⟨0x3f800000⟩

def infinity : Single := ⟨0x7f800000⟩

def negInfinity : Single := ⟨0xff800000⟩

def nan : Single := ⟨0x7fc00000⟩

/-! ## The parts of a pattern -/

def isNegative (x : Single) : Bool := 0x80000000 ≤ x.bits.toNat

def exponentField (x : Single) : Nat := x.bits.toNat / 0x800000 % 0x100

def fractionField (x : Single) : Nat := x.bits.toNat % 0x800000

def isFinite (x : Single) : Bool := x.exponentField < 255

def isNaN (x : Single) : Bool := x.exponentField == 255 && x.fractionField != 0

/-- Both zeros count. -/
def isZero (x : Single) : Bool := x.bits.toNat % 0x80000000 == 0

/-- The integer significand of a finite number, without its sign. -/
def significand (x : Single) : Nat :=
  if x.exponentField = 0 then x.fractionField else 0x800000 + x.fractionField

def power (x : Single) : Int :=
  if x.exponentField = 0 then -149 else (x.exponentField : Int) - 150

/-! ## Rounding to a pattern -/

/-- The pattern with the given sign and magnitude bits; a magnitude past the largest finite number
is infinity. -/
def ofMagnitude (negative : Bool) (magnitude : Nat) : Single :=
  ⟨UInt32.ofNat (min magnitude 0x7f800000 + if negative then 0x80000000 else 0)⟩

/-- The number nearest to `± m · 2^q`, ties to even.

The spacing of the numbers around the value is `2^u`. Counting spacings from zero gives the bits
directly: each binade adds `2^23` to the count, and a significand that rounds up to `2^24` is the
first number of the next binade. -/
def nearest (negative : Bool) (m : Nat) (q : Int) : Single :=
  if m = 0 then ofMagnitude negative 0
  else
    let u : Int := max ((m.log2 : Int) + q - 23) (-149)
    let count := if u ≤ q then m * Nat.pow 2 (q - u).toNat else halfEven m (u - q).toNat
    ofMagnitude negative (count + (u + 149).toNat * 0x800000)

def ofInt (n : Int) : Single := nearest (decide (n < 0)) n.natAbs 0

def ofFloat (x : Float) : Single :=
  let b : Nat := x.toBits.toNat
  let negative : Bool := 0x8000000000000000 ≤ b
  let exponent : Nat := b / 0x10000000000000 % 0x800
  let fraction : Nat := b % 0x10000000000000
  if exponent = 2047 then
    if fraction = 0 then ofMagnitude negative 0x7f800000 else nan
  else if exponent = 0 then nearest negative fraction (-1074)
  else nearest negative (0x10000000000000 + fraction) ((exponent : Int) - 1075)

/-! ## Rounding to an integer -/

def roundedMagnitude (x : Single) : Nat :=
  match x.power with
  | .ofNat k => x.significand * Nat.pow 2 k
  | .negSucc k => (2 * x.significand + Nat.pow 2 (k + 1)) / Nat.pow 2 (k + 2)

/-- The nearest integer in `lo .. hi`, a half away from zero. Infinities go to the ends of the range
and a number that is none goes to zero. -/
def toIntIn (lo hi : Int) (x : Single) : Int :=
  if x.isNaN then 0
  else if !x.isFinite then (if x.isNegative then lo else hi)
  else
    let n : Int := if x.isNegative then -x.roundedMagnitude else x.roundedMagnitude
    max lo (min hi n)

end Single

end CanvasFusion
