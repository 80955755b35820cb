import CanvasFusion.Eval.Scalar
import CanvasFusion.Eval.Value
import CanvasFusion.Operator.Inference

/-!
# Elementwise operators and reductions
-/

namespace CanvasFusion

variable {α : Type} [Scalar α] (lim : Limit)

/-- The element of a broadcast operand that belongs to an output index: the operand is aligned at
the last axis and an extent of one repeats. -/
def broadcastRead (x : Value α) (strides : List Nat) (index : Index) : Except Fault α := do
  let offset ← Size.sub index.length x.shape.rank
  let source := (x.shape.zip (index.drop offset)).map fun (d, i) => if d = 1 then 0 else i
  x.readAt lim strides source

def combine (kind : BinaryKind) (a b : Value α) (out : Shape) : Except Fault (Array α) := do
  let aStrides ← a.shape.strides lim
  let bStrides ← b.shape.strides lim
  Value.tabulate lim out fun index => do
    let va ← broadcastRead lim a aStrides index
    let vb ← broadcastRead lim b bStrides index
    pure (kind.apply va vb)

namespace ReduceKind

def initial : ReduceKind → Single
  | .sum | .mean => .zero
  | .prod => .one
  | .max => .negInfinity
  | .min => .infinity

def step (kind : ReduceKind) (acc v : α) : α :=
  match kind with
  | .sum | .mean => Scalar.add acc v
  | .prod => Scalar.mul acc v
  | .max => Scalar.max acc v
  | .min => Scalar.min acc v

end ReduceKind

/-- The place of an output index that an input index contributes to. -/
def keptIndex (axes : List Nat) (keepDims : Bool) (index : Index) : Index :=
  index.zipIdx.filterMap fun (i, axis) =>
    if axis ∈ axes then (if keepDims then some 0 else none) else some i

/-- Reduction over some axes: each element in turn is taken into its place of the output. A mean is
divided by the number of elements reduced, if there are any. -/
def reduce (kind : ReduceKind) (axes : List Nat) (keepDims : Bool) (x : Value α) (out : Shape) :
    Except Fault (Array α) := do
  let start ← Value.filled lim out (Scalar.ofSingle kind.initial : α)
  let strides ← out.strides lim
  let extents ← axes.mapM (Size.entry x.shape)
  let count ← lim.product extents
  let sums ← x.foldIndexed (fun acc index v => do
    let flat ← Shape.ravel lim (keptIndex axes keepDims index) strides
    let old ← (Value.mk out acc).read flat
    Value.write acc flat (kind.step old v)) start
  pure (if kind = .mean ∧ 0 < count then
    sums.map fun v => Scalar.div v (Scalar.ofCount count) else sums)

/-- Softmax along an axis: exponentials of the distance to the largest element, divided by their
sum. A line of the axis has `len` elements, `inner` apart. -/
def softmax (axis : Nat) (x : Value α) : Except Fault (Array α) := do
  let len ← Size.entry x.shape axis
  let inner ← lim.product (x.shape.drop (axis + 1))
  let outer ← lim.product (x.shape.take axis)
  (List.range outer).foldlM (fun data o =>
    (List.range inner).foldlM (fun data i => do
      let positions ← (List.range len).mapM fun k => do
        let row ← lim.mul o len
        let row ← lim.add row k
        let start ← lim.mul row inner
        lim.add start i
      let line ← positions.mapM x.read
      let largest := line.foldl Scalar.max (Scalar.ofSingle .negInfinity)
      let powers := line.map fun v => Scalar.exp (Scalar.sub v largest)
      let total := powers.foldl Scalar.add Scalar.zero
      (positions.zip powers).foldlM (fun data (p, e) => Value.write data p (Scalar.div e total))
        data) data) x.data

end CanvasFusion
