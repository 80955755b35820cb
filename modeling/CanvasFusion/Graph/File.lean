import CanvasFusion.Graph.Definition
import CanvasFusion.Operator.Json

/-!
# Graph files

A graph file is the JSON of a graph definition. A tensor has the members `name`, `dtype`, `shape`,
`attr`, `quant` and `data`, of which name, quantization and data may be absent; an operation has
`kind`, `inputs` and `outputs`.
-/

namespace CanvasFusion

open Json

variable (c : Codec)

def ElementType.names : List (String × ElementType) := ElementType.all.map fun t => (t.name, t)

def ElementType.ofJson? (j : Json) : Option ElementType := choice? false ElementType.names j

def ElementType.toJson (t : ElementType) : Json := .ofText t.name

namespace Role

def names : List (String × Role) :=
  [("input", .input), ("output", .output), ("constant", .constant), ("transient", .transient)]

def ofJson? (j : Json) : Option Role := choice? false names j

def toJson (r : Role) : Json := .ofText (nameIn names r)

end Role

namespace Quantization

def ofJson? (j : Json) : Option Quantization := do
  match ← j.fields? ["scale", "zero_point"] with
  | [scale, zeroPoint] =>
    let scale ← required c.single? scale
    let zeroPoint ← required (int? (-0x80000000) 0x7fffffff) zeroPoint
    pure ⟨scale, zeroPoint⟩
  | _ => none

def toJson (q : Quantization) : Json :=
  .object [("scale", c.ofSingle q.scale), ("zero_point", .ofInt q.zeroPoint)]

end Quantization

namespace TensorDef

def ofJson? (j : Json) : Option TensorDef := do
  match ← j.fields? ["name", "dtype", "shape", "attr", "quant", "data"] with
  | [name, element, shape, role, quant, data] =>
    let name ← withDefault none (nullable? text?) name
    let element ← required ElementType.ofJson? element
    let shape ← required (list? nat?) shape
    let role ← required Role.ofJson? role
    let quant ← withDefault none (nullable? (Quantization.ofJson? c)) quant
    let data ← withDefault none (nullable? (list? c.single?)) data
    pure ⟨name, element, shape, role, quant, data⟩
  | _ => none

/-- A member that is left out when there is nothing to say. -/
def optional {α : Type} (key : String) (f : α → Json) : Option α → List (String × Json)
  | none => []
  | some a => [(key, f a)]

def toJson (t : TensorDef) : Json :=
  .object (optional "name" .ofText t.name ++
    [("dtype", t.element.toJson), ("shape", .ofNats t.shape), ("attr", t.role.toJson)] ++
    optional "quant" (Quantization.toJson c) t.quant ++
    optional "data" (fun xs => .arr (xs.map c.ofSingle)) t.data)

end TensorDef

namespace OperationDef

/-- How deep the operator of an operation may nest: documents nest at most 127 deep, and an operator
is the fourth level of its document. -/
def operatorDepth : Nat := 124

def ofJson? (j : Json) : Option OperationDef := do
  match ← j.fields? ["kind", "inputs", "outputs"] with
  | [kind, inputs, outputs] =>
    let kind ← required (Operator.ofJson? c operatorDepth) kind
    let inputs ← required (list? nat?) inputs
    let outputs ← required (list? nat?) outputs
    pure ⟨kind, inputs, outputs⟩
  | _ => none

def toJson (o : OperationDef) : Json :=
  .object [("kind", o.kind.toJson c), ("inputs", .ofNats o.inputs), ("outputs", .ofNats o.outputs)]

end OperationDef

namespace GraphDef

def ofJson? (j : Json) : Option GraphDef := do
  match ← j.fields? ["tensors", "ops"] with
  | [tensors, ops] =>
    let tensors ← required (list? (TensorDef.ofJson? c)) tensors
    let ops ← required (list? (OperationDef.ofJson? c)) ops
    pure ⟨tensors, ops⟩
  | _ => none

def toJson (d : GraphDef) : Json :=
  .object [("tensors", .arr (d.tensors.map (TensorDef.toJson c))),
    ("ops", .arr (d.ops.map (OperationDef.toJson c)))]

end GraphDef

namespace Graph

def ofJson (lim : Limit) (j : Json) : Except GraphError Graph :=
  match GraphDef.ofJson? c j with
  | none => .error (.file .malformed)
  | some d => ofDef lim d

def ofFile (lim : Limit) (text : List Char) : Except GraphError Graph :=
  match c.parse text with
  | none => .error (.file .malformed)
  | some j => ofJson c lim j

def toFile (g : Graph) : Except GraphError String :=
  g.toDef.map fun d => c.pretty (d.toJson c)

end Graph

end CanvasFusion
