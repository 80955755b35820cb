import CanvasFusion.Limit
import CanvasFusion.Pair

/-!
# The tile grid

A canvas holds the samples of a batch as tiles on a grid. Along one dimension it has `t` tiles of
extent `s` with gaps of `g` cells between them and none at the end:

```text
  0        s     s+g      2s+g         (t-1)(s+g)        E
  |  tile  | gap |  tile  | gap | ... |    tile    |

  E = t*s + (t-1)*g
```

Gaps and tile counts belong to a dimension of the grid. Which axis of a tensor a dimension lies
along may change from tensor to tensor.
-/

namespace CanvasFusion

/-- The largest divisor of `n` among `1, …, i`; one if there is none. -/
def largestDivisor (n : Nat) : Nat → Nat
  | 0 => 1
  | i + 1 => if n % (i + 1) = 0 then i + 1 else largestDivisor n i

/-- The factor pair of `n` closest to its square root, smaller factor first; zero counts as one.
Each candidate is squared to see whether it is still below the root, up to the first that is not, so
that square has to be a size. -/
def closestFactors (lim : Limit) (n : Nat) : Except Fault (Pair Nat) := do
  let n := max n 1
  let root := n.sqrt
  let _ ← lim.mul (root + 1) (root + 1)
  let small := largestDivisor n root
  pure ⟨small, n / small⟩

structure Grid where
  count : Nat
  tiles : Pair Nat
  deriving DecidableEq, Repr

namespace Grid

/-- The grid for a number of samples; at least one. -/
def ofCount (lim : Limit) (count : Nat) : Except Fault Grid := do
  let tiles ← closestFactors lim count
  pure ⟨max count 1, tiles⟩

def isTiled (g : Grid) (d : Dim) : Bool := 1 < g.tiles.get d

/-- The place of a sample on the grid. The first dimension varies fastest. -/
def position (g : Grid) (sample : Nat) : Except Fault (Pair Nat) := do
  let i ← Size.mod sample g.tiles.first
  let j ← Size.div sample g.tiles.first
  pure ⟨i, j⟩

def tileOrigin (lim : Limit) (g : Grid) (sample : Nat) (extent gap : Pair Nat) :
    Except Fault (Pair Nat) := do
  let place ← g.position sample
  Pair.ofFnM fun d => do
    let step ← lim.add (extent.get d) (gap.get d)
    lim.mul (place.get d) step

def canvasExtent (lim : Limit) (g : Grid) (d : Dim) (extent gap : Nat) : Except Fault Nat := do
  let t := g.tiles.get d
  let tiles ← lim.mul t extent
  let between ← Size.sub t 1
  let gaps ← lim.mul between gap
  lim.add tiles gaps

/-- The share of a dimension of the canvas that tiles cover. -/
def coverage (lim : Limit) (g : Grid) (d : Dim) (extent gap : Nat) : Except Fault Float := do
  let canvas ← g.canvasExtent lim d extent gap
  if canvas = 0 then pure 1
  else
    let covered ← lim.mul (g.tiles.get d) extent
    pure (Float.ofNat covered / Float.ofNat canvas)

def proportion (lim : Limit) (g : Grid) (extent gap : Pair Nat) : Except Fault Float := do
  let a ← g.coverage lim .first extent.first gap.first
  let b ← g.coverage lim .second extent.second gap.second
  pure (a * b)

end Grid

end CanvasFusion
