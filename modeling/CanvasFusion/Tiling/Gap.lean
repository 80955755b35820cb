import CanvasFusion.Operator.Basic

/-!
# Gap rules

How an operator on a canvas moves the gap along one dimension. A sliding window is safe on a canvas
when every window that belongs to a tile stays within the tile and the gap behind it, and when tile
and gap together are a whole number of strides, so that each tile starts at the beginning of a
stride. `admissible` raises a gap until both hold, `forward` is the gap between the tiles of the
output, and `backward` is the input gap that gives an output gap.
-/

namespace CanvasFusion

/-- A sliding window along one dimension, with the extents of one sample before and after. -/
structure Window where
  kernel : Nat
  stride : Nat
  dilation : Nat
  pad : Padding
  input : Nat
  output : Nat
  deriving DecidableEq, Repr

namespace Window

variable (lim : Limit)

def effectiveKernel (w : Window) : Except Fault Nat := do
  let k ← Size.sub w.kernel 1
  let reach ← lim.mul k w.dilation
  lim.add reach 1

/-- How far the last window of a tile reaches past the end of the tile. -/
def backReach (w : Window) : Except Fault Nat := do
  let o ← Size.sub w.output 1
  let start ← lim.mul o w.stride
  let kernel ← w.effectiveKernel lim
  let stop ← lim.add start kernel
  let edge ← lim.add w.pad.front w.input
  pure (stop - edge)

/-- The smallest gap that keeps every window inside its own tile and gap, before alignment. -/
def minGap (w : Window) : Except Fault Nat := do
  let covered ← lim.mul w.output w.stride
  let tail := covered - w.input
  let reach ← w.backReach lim
  pure (max (max w.pad.front reach) tail)

def align (w : Window) (gap : Nat) : Except Fault Nat := do
  let step ← lim.add w.input gap
  let strides ← Size.divCeil step w.stride
  let step ← lim.mul strides w.stride
  Size.sub step w.input

def admissible (w : Window) (gap : Nat) : Except Fault Nat := do
  let least ← w.minGap lim
  w.align lim (max gap least)

def forward (w : Window) (gap : Nat) : Except Fault Nat := do
  let step ← lim.add w.input gap
  let strides ← Size.div step w.stride
  pure (strides - w.output)

def backward (w : Window) (gap : Nat) : Except Fault Nat := do
  let strides ← lim.add w.output gap
  let step ← lim.mul strides w.stride
  pure (step - w.input)

/-- Whether some window covers cells of a gap. -/
def readsGap (w : Window) : Except Fault Bool :=
  if 0 < w.pad.front then .ok true
  else do
    let reach ← w.backReach lim
    pure (0 < reach)

end Window

/-- How an operator moves the gap along one dimension. -/
inductive GapRule where
  | identity
  | window (w : Window)
  /-- Zero padding, whose cells are taken out of the gap. -/
  | pad (total : Nat)
  deriving DecidableEq, Repr

namespace GapRule

variable (lim : Limit)

def admissible (r : GapRule) (gap : Nat) : Except Fault Nat :=
  match r with
  | .identity => .ok gap
  | .window w => w.admissible lim gap
  | .pad total => .ok (max gap total)

def forward (r : GapRule) (gap : Nat) : Except Fault Nat :=
  match r with
  | .identity => .ok gap
  | .window w => w.forward lim gap
  | .pad total => .ok (gap - total)

/-- The input gap an output gap needs. -/
def backward (r : GapRule) (gap : Nat) : Except Fault Nat :=
  match r with
  | .identity => .ok gap
  | .window w => w.backward lim gap
  | .pad total => lim.add gap total

/-- Whether gap cells of the input bear on tile cells of the output. -/
def readsGap (r : GapRule) : Except Fault Bool :=
  match r with
  | .identity => .ok false
  | .window w => w.readsGap lim
  | .pad _ => .ok true

end GapRule

inductive GapFill where
  | zeroed
  | dirty
  deriving DecidableEq, Repr

end CanvasFusion
