import CanvasFusion.Number.Single

/-!
# Shortest decimals

The fewest decimal digits that read back as a given number. A number `m · 2^q` owns the interval of
reals that round to it; the ends belong to it exactly when `m` is even. The decimal grids
`10^k` are tried from the coarsest down. The first grid with a point in the interval gives the
answer, and of its points the one nearest to the number is taken. On each grid only the two
neighbours of the number have to be tried: if any point of the grid lies in the interval, one of
them does.
-/

namespace CanvasFusion

structure Decimal where
  digits : Nat
  power : Int
  deriving DecidableEq, Repr, Inhabited

namespace Decimal

/-- The point of the grid `10^k` inside the interval of `m · 2^q` that is nearest to it. `narrow`
says that the neighbour below is only half as far away as the one above.

All quantities are scaled by a common factor, so that they are integers: `unit` is a step of the
grid, `value` the number, and `low` and `high` are the ends of the interval. -/
def onGrid? (m : Nat) (q : Int) (narrow : Bool) (k : Int) : Option Nat :=
  let scale := Nat.pow 2 (q - 2).toNat * Nat.pow 10 (-k).toNat
  let unit := Nat.pow 2 (2 - q).toNat * Nat.pow 10 k.toNat
  let value := 4 * m * scale
  let low := (4 * m - if narrow then 1 else 2) * scale
  let high := (4 * m + 2) * scale
  let closed := m % 2 == 0
  let inside (c : Nat) : Bool :=
    (low < c * unit || (closed && low == c * unit)) &&
      (c * unit < high || (closed && c * unit == high))
  let below := value / unit
  match inside below, inside (below + 1) with
  | false, false => none
  | true, false => some below
  | false, true => some (below + 1)
  | true, true =>
    let down := value - below * unit
    let up := (below + 1) * unit - value
    if down < up then some below
    else if up < down then some (below + 1)
    else some (below + below % 2)

/-- Try the grids `10^k`, `10^(k-1)`, and so on. -/
def search (m : Nat) (q : Int) (narrow : Bool) : Nat → Int → Decimal
  | 0, k => ⟨0, k⟩
  | tries + 1, k =>
    match onGrid? m q narrow k with
    | some digits => ⟨digits, k⟩
    | none => search m q narrow tries (k - 1)

/-- The shortest decimal of `m · 2^q`, for `0 < m`.

The number is below `2^(e+1)` for `e` its binary exponent, which bounds the first grid worth
trying; nine digits tell all singles apart, so a dozen grids are enough. -/
def shortest (m : Nat) (q : Int) (narrow : Bool) : Decimal :=
  let e : Int := (m.log2 : Int) + q
  search m q narrow 20 (Int.fdiv ((e + 1) * 30103) 100000 + 1)

end Decimal

def Single.shortest (x : Single) : Decimal :=
  Decimal.shortest x.significand x.power (x.fractionField == 0 && 1 < x.exponentField)

end CanvasFusion
