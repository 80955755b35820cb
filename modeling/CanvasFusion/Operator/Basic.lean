import CanvasFusion.Limit
import CanvasFusion.Number.Single
import CanvasFusion.Pair

/-!
# Operators

The operators of a graph with their parameters. Every operator has one output. Sliding windows
(convolution and pooling) run over the two spatial axes of a rank-4 tensor, which a `Layout` names.
-/

namespace CanvasFusion

structure Layout where
  batch : Nat
  channel : Nat
  /-- The spatial axes in the order of the kernel's. -/
  spatial : Pair Nat
  deriving DecidableEq, Repr, Inhabited

namespace Layout

/-- Batch, channel, height, width. -/
def nchw : Layout := ⟨0, 1, ⟨2, 3⟩⟩

/-- Batch, height, width, channel. -/
def nhwc : Layout := ⟨0, 3, ⟨1, 2⟩⟩

def axes (l : Layout) : List Nat := [l.batch, l.channel, l.spatial.first, l.spatial.second]

def isValid (l : Layout) : Bool := l.axes.all (· < 4) && decide l.axes.Nodup

def text (l : Layout) : String :=
  s!"DataLayout \x7b batch: {l.batch}, channel: {l.channel}, " ++
    s!"spatial: [{l.spatial.first}, {l.spatial.second}] \x7d"

end Layout

structure Padding where
  front : Nat
  back : Nat
  deriving DecidableEq, Repr, Inhabited

/-- A convolution. Its inputs are the data, a weight `[O, I, KH, KW]`, and a bias `[O]` if any. -/
structure Conv2d where
  stride : Pair Nat
  dilation : Pair Nat
  pad : Pair Padding
  layout : Layout
  deriving DecidableEq, Repr

inductive PoolKind where
  | max
  /-- The mean over the part of the window that holds data. -/
  | avg
  deriving DecidableEq, Repr

/-- A pooling. Cells added by the padding are passed over. -/
structure Pool2d where
  kind : PoolKind
  kernel : Pair Nat
  stride : Pair Nat
  pad : Pair Padding
  layout : Layout
  deriving DecidableEq, Repr

structure ConstantPad where
  front : List Nat
  back : List Nat
  value : Single
  deriving DecidableEq, Repr

inductive Activation where
  | relu
  | relu6
  | sigmoid
  | tanh
  /-- The identity on positive numbers, and multiplication by `alpha` elsewhere. -/
  | leakyRelu (alpha : Single)
  deriving DecidableEq, Repr

def Activation.preservesZero : Activation → Bool
  | .sigmoid => false
  | _ => true

inductive BinaryKind where
  | add
  | sub
  | mul
  | div
  | max
  | min
  deriving DecidableEq, Repr

inductive ReduceKind where
  | sum
  | mean
  | max
  | min
  | prod
  deriving DecidableEq, Repr

inductive Operator where
  | conv2d (p : Conv2d)
  | pool2d (p : Pool2d)
  | pad (p : ConstantPad)
  | activation (f : Activation)
  | binary (kind : BinaryKind)
  /-- Reduction over some axes, which are kept with extent one or dropped. -/
  | reduce (kind : ReduceKind) (axes : List Nat) (keepDims : Bool)
  /-- Axis `i` of the output is axis `perm[i]` of the input. -/
  | transpose (perm : List Nat)
  | reshape (target : List Nat)
  | concat (axis : Nat)
  /-- The block of extents `size` that begins at `start`. -/
  | slice (start size : List Nat)
  | softmax (axis : Nat)
  deriving DecidableEq, Repr

def Operator.name : Operator → String
  | .conv2d _ => "conv2d"
  | .pool2d _ => "pool2d"
  | .pad _ => "pad"
  | .activation _ => "activation"
  | .binary _ => "binary"
  | .reduce .. => "reduce"
  | .transpose _ => "transpose"
  | .reshape _ => "reshape"
  | .concat _ => "concat"
  | .slice .. => "slice"
  | .softmax _ => "softmax"

/-- The output extent of a sliding window over one axis, or none if the window does not fit even
once. With `e = (kernel - 1) · dilation + 1` the extent is `(size + front + back - e) / stride + 1`.
-/
def windowOutput (lim : Limit) (size kernel stride dilation : Nat) (pad : Padding) :
    Except Fault (Option Nat) :=
  if kernel = 0 ∨ stride = 0 ∨ dilation = 0 then .ok none
  else do
    let reach ← lim.mul (kernel - 1) dilation
    let effective ← lim.add reach 1
    let padded ← lim.add size pad.front
    let padded ← lim.add padded pad.back
    if effective ≤ padded then
      let o ← lim.add ((padded - effective) / stride) 1
      pure (some o)
    else pure none

end CanvasFusion
