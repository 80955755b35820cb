import CanvasFusion.Operator.Basic
import CanvasFusion.Shape

/-!
# Axis maps

Which axes of a rank-4 tensor hold the batch, the channels, and the two dimensions of the canvas.
Graph inputs have the configured map; a transposition moves the roles with the axes.
-/

namespace CanvasFusion

structure AxisMap where
  batch : Nat
  channel : Nat
  fuse : Pair Nat
  deriving DecidableEq, Repr, Inhabited

namespace AxisMap

/-- Batch, channel, height, width; tiled along height and width. -/
def nchw : AxisMap := ⟨0, 1, ⟨2, 3⟩⟩

/-- Batch, height, width, channel; tiled along height and width. -/
def nhwc : AxisMap := ⟨0, 3, ⟨1, 2⟩⟩

/-- The permutation that brings the axes into the order batch, channel, canvas dimensions. -/
def canonicalPerm (m : AxisMap) : List Nat := [m.batch, m.channel, m.fuse.first, m.fuse.second]

def fromCanonicalPerm (m : AxisMap) : Except Fault (List Nat) :=
  m.canonicalPerm.zipIdx.foldlM (fun perm (axis, i) => Size.replace perm axis i) [0, 0, 0, 0]

def permuted (m : AxisMap) (perm : List Nat) : Option AxisMap := do
  let batch ← perm.idxOf? m.batch
  let channel ← perm.idxOf? m.channel
  let rows ← perm.idxOf? m.fuse.first
  let columns ← perm.idxOf? m.fuse.second
  pure ⟨batch, channel, ⟨rows, columns⟩⟩

/-- For each dimension of the canvas, the spatial dimension of an operator's layout along the same
axis; none if the layout gives batch or channel to other axes. -/
def spatialOrder (m : AxisMap) (l : Layout) : Option (Pair Dim) := do
  if l.batch ≠ m.batch ∨ l.channel ≠ m.channel then none
  let rows ← l.spatial.find? m.fuse.first
  let columns ← l.spatial.find? m.fuse.second
  pure ⟨rows, columns⟩

/-- The extents of one sample along the dimensions of the canvas. -/
def sampleExtent (m : AxisMap) (s : Shape) : Except Fault (Pair Nat) :=
  Pair.ofFnM fun d => Size.entry s (m.fuse.get d)

/-- Whether a shape, aligned at the last axis with a rank-4 tensor, has no extent but one along the
batch and the dimensions of the canvas. Such an operand is the same for all samples and all cells of
a channel. -/
def isSampleInvariant (m : AxisMap) (s : Shape) : Except Fault Bool :=
  if 4 < s.rank then .ok false
  else
    let offset := 4 - s.rank
    [m.batch, m.fuse.first, m.fuse.second].foldlM (fun ok axis =>
      if !ok then pure false
      else if axis < offset then pure true
      else do
        let d ← Size.entry s (axis - offset)
        pure (d = 1)) true

end AxisMap

end CanvasFusion
