import CanvasFusion.Graph.Error

/-!
# Shape inference

The shape of an operator's output from the shapes of its inputs. The checks stand in the order in
which their errors win.
-/

namespace CanvasFusion

namespace Operator

variable (lim : Limit)

def invalid {α : Type} (name : String) (issue : OperatorIssue) : Except GraphError α :=
  .error (.invalidOp name issue)

/-- Sliding windows take a rank-4 input and a layout of its four axes. -/
def checkLayout (name : String) (layout : Layout) (x : Shape) : Except GraphError Unit := do
  if x.rank ≠ 4 then invalid name (.notRankFour x)
  if !layout.isValid then invalid name (.badLayout layout)

/-- Replace the spatial extents of `out` by those of a window sliding over `x`, one dimension after
the other. `misfit` is the complaint about an axis the window does not fit on. -/
def slide (name : String) (misfit : Nat → OperatorIssue) (layout : Layout) (x : Shape)
    (kernel stride dilation : Pair Nat) (pad : Pair Padding) (out : Shape) :
    Except GraphError Shape :=
  Dim.all.foldlM (fun out d => do
    let axis := layout.spatial.get d
    let extent ← Size.entry x axis
    match ← windowOutput lim extent (kernel.get d) (stride.get d) (dilation.get d) (pad.get d) with
    | none => invalid name (misfit axis)
    | some o => out.withDim axis o) out

def inferConv (p : Conv2d) (x w : Shape) (bias : Option Shape) : Except GraphError Shape := do
  let name := "conv2d"
  checkLayout name p.layout x
  match w with
  | [o, i, kh, kw] =>
    let channels ← Size.entry x p.layout.channel
    if i ≠ channels then invalid name (.channelCount i channels)
    if let some b := bias then
      if b ≠ [o] then invalid name (.biasShape o b)
    let out ← x.withDim p.layout.channel o
    slide lim name .kernelFit p.layout x ⟨kh, kw⟩ p.stride p.dilation p.pad out
  | w => invalid name (.weightRank w)

def inferPool (p : Pool2d) (x : Shape) : Except GraphError Shape := do
  let name := "pool2d"
  checkLayout name p.layout x
  slide lim name .windowFit p.layout x p.kernel p.stride (.both 1) p.pad x

def inferPad (p : ConstantPad) (x : Shape) : Except GraphError Shape := do
  if p.front.length ≠ x.rank ∨ p.back.length ≠ x.rank then invalid "pad" (.padRank x.rank)
  (x.zip (p.front.zip p.back)).mapM fun (d, f, b) => do
    let n ← lim.add d f
    let n ← lim.add n b
    pure n

def aligned (rank : Nat) (s : Shape) : Shape := List.replicate (rank - s.rank) 1 ++ s

/-- The shape two operands broadcast to: aligned at the last axis, extents agree or one of them is
one. -/
def broadcast (a b : Shape) : Except GraphError Shape :=
  let rank := max a.rank b.rank
  ((aligned rank a).zip (aligned rank b)).mapM fun (x, y) =>
    if x = y then pure x
    else if x = 1 then pure y
    else if y = 1 then pure x
    else invalid "binary" (.broadcast a b)

/-- The axes of a reduction exist and none is named twice. -/
def checkAxes (rank : Nat) (seen : List Nat) : List Nat → Except GraphError Unit
  | [] => .ok ()
  | a :: rest =>
    if rank ≤ a ∨ a ∈ seen then invalid "reduce" (.reductionAxis a)
    else checkAxes rank (a :: seen) rest

def reducedShape (axes : List Nat) (keepDims : Bool) (x : Shape) : Shape :=
  x.zipIdx.filterMap fun (d, axis) =>
    if axis ∈ axes then (if keepDims then some 1 else none) else some d

def inferReduce (axes : List Nat) (keepDims : Bool) (x : Shape) : Except GraphError Shape := do
  checkAxes x.rank [] axes
  pure (reducedShape axes keepDims x)

def inferTranspose (perm : List Nat) (x : Shape) : Except GraphError Shape := do
  if !isPermutation perm x.rank then invalid "transpose" (.permutation perm x.rank)
  x.permuted perm

def inferReshape (target : List Nat) (x : Shape) : Except GraphError Shape := do
  let n ← Shape.count lim target
  let m ← x.count lim
  if n ≠ m then invalid "reshape" (.reshape x m target)
  pure target

def agreeOff (axis : Nat) (s x : Shape) : Bool :=
  s.rank == x.rank && (s.zip x).zipIdx.all fun ((a, b), i) => i == axis || a == b

def inferConcat (axis : Nat) (x : Shape) (inputs : List Shape) : Except GraphError Shape := do
  if x.rank ≤ axis then invalid "concat" (.axisRange axis)
  let total ← inputs.foldlM (fun (total : Nat) s => do
    if !agreeOff axis s x then invalid "concat" (.concat s x axis)
    let extent ← Size.entry s axis
    let total ← lim.add total extent
    pure total) 0
  x.withDim axis total

def inferSlice (start size : List Nat) (x : Shape) : Except GraphError Shape := do
  if start.length ≠ x.rank ∨ size.length ≠ x.rank then invalid "slice" (.sliceRank x.rank)
  (start.zip (size.zip x)).zipIdx.forM fun ((b, s, d), i) => do
    if s = 0 then invalid "slice" (.sliceRange b s i x)
    let stop ← lim.add b s
    if d < stop then invalid "slice" (.sliceRange b s i x)
  pure size

def inferSoftmax (axis : Nat) (x : Shape) : Except GraphError Shape := do
  if x.rank ≤ axis then invalid "softmax" (.axisRange axis)
  pure x

def inferShape (op : Operator) (inputs : List Shape) : Except GraphError Shape :=
  match op, inputs with
  | .conv2d p, [x, w] => inferConv lim p x w none
  | .conv2d p, [x, w, b] => inferConv lim p x w (some b)
  | .pool2d p, [x] => inferPool lim p x
  | .pad p, [x] => inferPad lim p x
  | .activation _, [x] => .ok x
  | .binary _, [a, b] => broadcast a b
  | .reduce _ axes keepDims, [x] => inferReduce axes keepDims x
  | .transpose perm, [x] => inferTranspose perm x
  | .reshape target, [x] => inferReshape lim target x
  | .concat axis, x :: rest => inferConcat lim axis x (x :: rest)
  | .slice start size, [x] => inferSlice lim start size x
  | .softmax axis, [x] => inferSoftmax axis x
  | op, inputs => invalid op.name (.inputCount inputs.length)

end Operator

end CanvasFusion
