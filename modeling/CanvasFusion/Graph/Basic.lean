import CanvasFusion.Graph.Error

/-!
# Tensor graphs

A graph has tensors and operations, both addressed by handles. An operation reads some tensors and
writes one. Each tensor knows the operation that writes it and the operations that read it, and the
graph lists its inputs and outputs in the order in which they came about.
-/

namespace CanvasFusion

inductive Role where
  | input
  | output
  | constant
  | transient
  deriving DecidableEq, Repr, Inhabited

/-- Whether an operation may write a tensor of this role. -/
def Role.isWritable : Role → Bool
  | .input | .constant => false
  | .output | .transient => true

structure TensorSpec where
  element : ElementType
  shape : Shape
  role : Role
  quant : Option Quantization
  deriving DecidableEq, Repr

def TensorSpec.byteSize (lim : Limit) (spec : TensorSpec) : Except Fault Nat := do
  let n ← spec.shape.count lim
  lim.mul n spec.element.width

structure Tensor where
  name : Option String
  spec : TensorSpec
  data : Option (List UInt8)
  producer : Option OpId
  /-- The operations that read the tensor, in order, each once. -/
  consumers : List OpId
  deriving DecidableEq, Repr

/-- A tensor nothing reads or writes yet. -/
def Tensor.ofSpec (spec : TensorSpec) : Tensor := ⟨none, spec, none, none, []⟩

structure Operation where
  kind : Operator
  inputs : List TensorId
  output : TensorId
  deriving DecidableEq, Repr

structure Graph where
  tensors : Table "TensorId" Tensor
  ops : Table "OpId" Operation
  inputs : List TensorId
  /-- The tensors read from outside, in the order in which they were marked. -/
  outputs : List TensorId
  deriving DecidableEq, Repr

namespace Graph

def empty : Graph := ⟨.empty, .empty, [], []⟩

instance : Inhabited Graph := ⟨empty⟩

def tensor (g : Graph) (t : TensorId) : Except GraphError Tensor :=
  match g.tensors.get? t with
  | some tensor => .ok tensor
  | none => .error (.unknownTensor t)

def op (g : Graph) (o : OpId) : Except GraphError Operation :=
  match g.ops.get? o with
  | some op => .ok op
  | none => .error (.unknownOp o)

def spec (g : Graph) (t : TensorId) : Except Fault TensorSpec :=
  (g.tensors.get t).map (·.spec)

def shape (g : Graph) (t : TensorId) : Except Fault Shape :=
  (g.tensors.get t).map (·.spec.shape)

def producer (g : Graph) (t : TensorId) : Option OpId :=
  (g.tensors.get? t).bind (·.producer)

def consumers (g : Graph) (t : TensorId) : List OpId :=
  ((g.tensors.get? t).map (·.consumers)).getD []

def constants (g : Graph) : List TensorId :=
  (g.tensors.entries.filter fun (_, t) => t.spec.role = .constant).map (·.1)

/-- The tensors no operation has to compute: inputs, then constants. -/
def sources (g : Graph) : List TensorId := g.inputs ++ g.constants

end Graph

end CanvasFusion
