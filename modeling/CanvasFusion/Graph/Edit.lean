import CanvasFusion.Graph.Basic
import CanvasFusion.Operator.Inference

/-!
# Building graphs

An edit of a graph gives a result or an error, and in both cases the graph it leaves behind. Binding
an operation checks the shapes and keeps the edges on both sides in step.
-/

namespace CanvasFusion.Graph

/-- A change to a graph. The graph is the state, so an edit that fails halfway shows how far it
came. -/
abbrev Edit (α : Type) := ExceptT GraphError (StateM Graph) α

def Edit.check {α : Type} (x : Except GraphError α) : Edit α := ExceptT.mk (pure x)

def run {α : Type} (g : Graph) (e : Edit α) : Except GraphError α × Graph := e.run g

/-- The graph with one more tensor, listed among the inputs or outputs if it is one. -/
def withTensor (g : Graph) (t : Tensor) : Graph :=
  let id := g.tensors.next
  { g with
    tensors := g.tensors.push t
    inputs := if t.spec.role = .input then g.inputs ++ [id] else g.inputs
    outputs := if t.spec.role = .output then g.outputs ++ [id] else g.outputs }

def withTensorChanged (g : Graph) (t : TensorId) (f : Tensor → Tensor) : Graph :=
  { g with tensors := g.tensors.modify t f }

def createTensor (spec : TensorSpec) : Edit TensorId := do
  let g ← get
  set (g.withTensor (.ofSpec spec))
  pure g.tensors.next

/-- Add a constant. The bytes have to fill its shape. -/
def createConstant (lim : Limit) (spec : TensorSpec) (data : List UInt8) : Edit TensorId := do
  let spec := { spec with role := .constant }
  let size ← Edit.check (spec.byteSize lim)
  if data.length ≠ size then throw (.dataSize ⟨size, data.length⟩)
  let g ← get
  set (g.withTensor { Tensor.ofSpec spec with data := some data })
  pure g.tensors.next

def createConstantValues (lim : Limit) (element : ElementType) (shape : Shape)
    (values : List Single) : Edit TensorId :=
  createConstant lim ⟨element, shape, .constant, none⟩ (element.encode values)

def setName (t : TensorId) (name : String) : Edit Unit := do
  let g ← get
  let _ ← Edit.check (g.tensor t)
  set (g.withTensorChanged t fun x => { x with name := some name })

def setOutput (t : TensorId) : Edit Unit := do
  let g ← get
  let tensor ← Edit.check (g.tensor t)
  match tensor.spec.role with
  | .input | .constant => throw (.notWritable t)
  | .output => pure ()
  | .transient =>
    let g := g.withTensorChanged t fun x => { x with spec := { x.spec with role := .output } }
    set { g with outputs := g.outputs ++ [t] }

def inferOutput (lim : Limit) (g : Graph) (kind : Operator) (inputs : List TensorId) :
    Except GraphError Shape := do
  if inputs.isEmpty then Operator.invalid kind.name .noInputs
  let shapes ← inputs.mapM fun t => (g.tensor t).map (·.spec.shape)
  kind.inferShape lim shapes

/-- The checks an operation has to pass before it is bound to the tensor `out`. -/
def checkOp (lim : Limit) (g : Graph) (kind : Operator) (inputs : List TensorId)
    (out : TensorId) : Except GraphError Unit := do
  let inferred ← g.inferOutput lim kind inputs
  let target ← g.tensor out
  if !target.spec.role.isWritable then .error (.notWritable out)
  if target.producer.isSome then .error (.alreadyProduced out)
  if target.spec.shape ≠ inferred then
    .error (.shapeMismatch kind.name inferred target.spec.shape)

def withOp (g : Graph) (op : Operation) : Graph :=
  let id := g.ops.next
  let tensors := op.inputs.foldl (fun ts t =>
    ts.modify t fun x =>
      if id ∈ x.consumers then x else { x with consumers := x.consumers ++ [id] }) g.tensors
  { g with
    tensors := tensors.modify op.output fun x => { x with producer := some id }
    ops := g.ops.push op }

/-- Bind an operation to existing tensors. The output has to be free, and of the inferred shape. -/
def addOp (lim : Limit) (kind : Operator) (inputs outputs : List TensorId) : Edit OpId := do
  match outputs with
  | [out] =>
    let g ← get
    Edit.check (g.checkOp lim kind inputs out)
    set (g.withOp ⟨kind, inputs, out⟩)
    pure g.ops.next
  | _ => throw (.invalidOp kind.name (.outputCount outputs.length))

/-- Add the output tensor of an operation and bind the operation. The output takes its element type
and quantization from the first input. -/
def emit (lim : Limit) (kind : Operator) (inputs : List TensorId) (role : Role) :
    Edit TensorId := do
  let g ← get
  let shape ← Edit.check (g.inferOutput lim kind inputs)
  match inputs with
  | [] => throw (.invalidOp kind.name .noInputs)
  | x :: _ =>
    let first ← Edit.check (g.tensor x)
    let out ← createTensor ⟨first.spec.element, shape, role, first.spec.quant⟩
    let _ ← addOp lim kind inputs [out]
    pure out

end CanvasFusion.Graph
