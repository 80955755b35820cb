import CanvasFusion.Graph.Edit

/-!
# Graph definitions

The form in which a graph is written to a file: its tensors in the order of their handles, constants
with their values as numbers, and its operations with tensors given by position. Rebuilding a graph
from its definition runs every check again.
-/

namespace CanvasFusion

structure TensorDef where
  name : Option String
  element : ElementType
  shape : Shape
  role : Role
  quant : Option Quantization
  data : Option (List Single)
  deriving DecidableEq, Repr

structure OperationDef where
  kind : Operator
  inputs : List Nat
  outputs : List Nat
  deriving DecidableEq, Repr

structure GraphDef where
  tensors : List TensorDef
  ops : List OperationDef
  deriving DecidableEq, Repr

namespace Graph

def tensorDef (t : Tensor) : Except GraphError TensorDef := do
  let data ← match t.data with
    | none => pure none
    | some bytes => (t.spec.element.decode bytes).mapError GraphError.dataSize |>.map some
  pure ⟨t.name, t.spec.element, t.spec.shape, t.spec.role, t.spec.quant, data⟩

def operationDef (op : Operation) : OperationDef :=
  ⟨op.kind, op.inputs.map (·.index), [op.output.index]⟩

def toDef (g : Graph) : Except GraphError GraphDef := do
  let tensors ← g.tensors.toList.mapM tensorDef
  pure ⟨tensors, g.ops.toList.map operationDef⟩

/-- Add the tensor of a definition: a constant if it has data. -/
def addTensorDef (lim : Limit) (d : TensorDef) : Edit Unit := do
  let spec : TensorSpec := ⟨d.element, d.shape, d.role, d.quant⟩
  let id ← match d.data, d.role with
    | some values, _ => createConstant lim spec (d.element.encode values)
    | none, .constant => do throw (.file (.constantWithoutData (← get).tensors.size))
    | none, _ => createTensor spec
  if let some name := d.name then setName id name

/-- The handles of positions among the first `count` tensors. -/
def resolve (count : Nat) (positions : List Nat) : Except GraphError (List TensorId) :=
  positions.mapM fun p =>
    if p < count then .ok ⟨p⟩ else .error (.file (.positionOutOfRange p))

def addOperationDef (lim : Limit) (count : Nat) (d : OperationDef) : Edit Unit := do
  let inputs ← Edit.check (resolve count d.inputs)
  let outputs ← Edit.check (resolve count d.outputs)
  let _ ← addOp lim d.kind inputs outputs

def addDef (lim : Limit) (d : GraphDef) : Edit Unit := do
  d.tensors.forM (addTensorDef lim)
  d.ops.forM (addOperationDef lim d.tensors.length)

def ofDef (lim : Limit) (d : GraphDef) : Except GraphError Graph :=
  match empty.run (addDef lim d) with
  | (.ok (), g) => .ok g
  | (.error e, _) => .error e

end Graph

end CanvasFusion
