import CanvasFusion.Eval.Arrangement
import CanvasFusion.Eval.Elementwise
import CanvasFusion.Eval.Window
import CanvasFusion.Graph.Order
import CanvasFusion.Ledger

/-!
# Evaluating a graph

An evaluation holds a value for each tensor fed or computed so far. Running it checks that every
input was fed, takes the values of the constants, and computes the operations in dependency order.
Integer tensors are computed on their stored values; quantization is not applied.
-/

namespace CanvasFusion

inductive EvalError where
  | missingFeed (t : TensorId)
  | dataLength (shape : Shape) (length : Nat)
  | missingData (t : TensorId)
  | unevaluated (t : TensorId)
  | graph (e : GraphError)
  | fault (f : Fault)
  deriving DecidableEq, Repr

namespace EvalError

def message : EvalError → String
  | .missingFeed t => s!"no value fed for input {t.describe}"
  | .dataLength s n => s!"{n} elements do not fill shape {s.text}"
  | .missingData t => s!"constant {t.describe} has no data"
  | .unevaluated t => s!"tensor {t.describe} was read before it was computed"
  | .graph e => e.message
  | .fault f => (GraphError.fault f).message

def ofGraph : GraphError → EvalError
  | .fault f => .fault f
  | e => .graph e

end EvalError

instance : MonadLift (Except Fault) (Except EvalError) where
  monadLift := Except.mapError .fault

instance : MonadLift (Except GraphError) (Except EvalError) where
  monadLift := Except.mapError .ofGraph

variable {α : Type} (lim : Limit)

/-- A value whose elements fill its shape. -/
def Value.checked (shape : Shape) (data : Array α) : Except EvalError (Value α) := do
  let n ← shape.count lim
  if n ≠ data.size then throw (.dataLength shape data.size)
  pure ⟨shape, data⟩

/-- The elements of an operation's output, from the values of its inputs and the output's shape. -/
def compute [Scalar α] (kind : Operator) (inputs : List (Value α)) (out : Shape) :
    Except Fault (Array α) :=
  match kind, inputs with
  | .conv2d p, [x, w] => convolve lim p x w none out
  | .conv2d p, x :: w :: b :: _ => convolve lim p x w (some b) out
  | .pool2d p, x :: _ => pool lim p x out
  | .pad p, x :: _ => padWith lim p.front (Scalar.ofSingle p.value) x out
  | .activation f, x :: _ => .ok (x.data.map (Scalar.activate f))
  | .binary kind, a :: b :: _ => combine lim kind a b out
  | .reduce kind axes keepDims, x :: _ => reduce lim kind axes keepDims x out
  | .transpose perm, x :: _ => transpose lim perm x out
  | .reshape _, x :: _ => .ok x.data
  | .concat axis, x :: rest => concatenate lim axis Scalar.zero (x :: rest) out
  | .slice start _, x :: _ => sliceAt lim start x out
  | .softmax axis, x :: _ => softmax lim axis x
  | _, _ => .error .outOfRange

abbrev Values (α : Type) := Ledger TensorId (Value α)

/-- A step of an evaluation. The values are the state, so those recorded before an error stay. -/
abbrev Evaluation (α β : Type) := ExceptT EvalError (StateM (Values α)) β

namespace Evaluation

def check {β : Type} (x : Except EvalError β) : Evaluation α β := ExceptT.mk (pure x)

def hold (t : TensorId) (v : Value α) : Evaluation α Unit := modify fun vs => vs.record t v

def feed (g : Graph) (t : TensorId) (data : Array α) : Evaluation α Unit := do
  let tensor ← check (liftM (g.tensor t))
  let v ← check (Value.checked lim tensor.spec.shape data)
  hold t v

/-- The values of some tensors, all of which have to be held. -/
def held (values : Values α) (ts : List TensorId) : Except EvalError (List (Value α)) :=
  ts.mapM fun t =>
    match values.get? t with
    | some v => .ok v
    | none => .error (.unevaluated t)

def checkFed (g : Graph) : Evaluation α Unit := do
  let values ← get
  match g.inputs.find? fun t => !values.contains t with
  | some t => throw (.missingFeed t)
  | none => pure ()

def constantValue [Scalar α] (g : Graph) (t : TensorId) : Except EvalError (Value α) := do
  let tensor ← g.tensors.get t
  match tensor.data with
  | none => throw (.missingData t)
  | some bytes =>
    let xs ← (tensor.spec.element.decode bytes).mapError fun m => EvalError.graph (.dataSize m)
    Value.checked lim tensor.spec.shape (xs.map Scalar.ofSingle).toArray

def outputValue [Scalar α] (g : Graph) (values : Values α) (op : Operation) :
    Except EvalError (Value α) := do
  let inputs ← held values op.inputs
  let shape ← g.shape op.output
  let data ← compute lim op.kind inputs shape
  Value.checked lim shape data

def computeAll [Scalar α] (g : Graph) : Evaluation α Unit := do
  checkFed g
  g.constants.forM fun t => do
    let v ← check (constantValue lim g t)
    hold t v
  let order ← check (liftM g.order)
  order.forM fun id => do
    let op ← check (liftM (g.ops.get id))
    let v ← check (outputValue lim g (← get) op)
    hold op.output v

def outputs (g : Graph) (values : Values α) : Except EvalError (List (Value α)) :=
  held values g.outputs

end Evaluation

/-- Feed some tensors, run the graph, and give every value held. -/
def evaluate [Scalar α] (g : Graph) (feeds : List (TensorId × Array α)) :
    Except EvalError (Values α) :=
  let all : Evaluation α Unit := do
    feeds.forM fun (t, data) => Evaluation.feed lim g t data
    Evaluation.computeAll lim g
  match ExceptT.run all .empty with
  | (.ok (), values) => .ok values
  | (.error e, _) => .error e

def isFeedable (g : Graph) (t : TensorId) : Bool :=
  match g.tensors.get? t with
  | some tensor => tensor.spec.role = .input
  | none => false

end CanvasFusion
