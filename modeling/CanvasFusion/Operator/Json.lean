import CanvasFusion.Json.Decode
import CanvasFusion.Operator.Basic

/-!
# Operators in JSON

An operator is an object whose member `op` names it, with its parameters as the other members. It is
taken in whole before its name is known, so all of it has to be readable.
-/

namespace CanvasFusion

open Json

variable (c : Codec)

/-- One of a few names: the bare text, or an object with the name as its only key and null as its
value. Inside a value that was taken in whole an empty object stands for null. -/
def Json.choice? {α : Type} (held : Bool) (names : List (String × α)) : Json → Option α
  | .str (some s) => names.lookup s
  | .obj [(some s, .null)] => names.lookup s
  | .obj [(some s, .obj [])] => if held then names.lookup s else none
  | _ => none

def PoolKind.names : List (String × PoolKind) := [("max", .max), ("avg", .avg)]

def BinaryKind.names : List (String × BinaryKind) :=
  [("add", .add), ("sub", .sub), ("mul", .mul), ("div", .div), ("max", .max), ("min", .min)]

def ReduceKind.names : List (String × ReduceKind) :=
  [("sum", .sum), ("mean", .mean), ("max", .max), ("min", .min), ("prod", .prod)]

def Activation.names : List (String × Activation) :=
  [("relu", .relu), ("relu6", .relu6), ("sigmoid", .sigmoid), ("tanh", .tanh)]

/-- The name an entry of a list of names carries. -/
def nameIn {α : Type} [DecidableEq α] (names : List (String × α)) (a : α) : String :=
  ((names.find? fun n => n.2 = a).map Prod.fst).getD ""

namespace Layout

def ofJson? (j : Json) : Option Layout := do
  match ← j.fields? ["batch", "channel", "spatial"] with
  | [batch, channel, spatial] =>
    let batch ← required nat? batch
    let channel ← required nat? channel
    let spatial ← required (pair? nat?) spatial
    pure ⟨batch, channel, spatial⟩
  | _ => none

def toJson (l : Layout) : Json :=
  .object [("batch", .ofNat l.batch), ("channel", .ofNat l.channel),
    ("spatial", .ofNats l.spatial.toList)]

end Layout

/-- Two numbers: the cells in front and the cells at the back. -/
def Padding.ofJson? (j : Json) : Option Padding :=
  (pair? nat? j).map fun p => ⟨p.first, p.second⟩

def Padding.toJson (p : Padding) : Json := .ofNats [p.front, p.back]

def Padding.none : Padding := ⟨0, 0⟩

def Conv2d.ofJson? (j : Json) : Option Conv2d := do
  match ← j.fields? ["stride", "dilation", "pad", "layout"] with
  | [stride, dilation, pad, layout] =>
    let stride ← withDefault (.both 1) (pair? nat?) stride
    let dilation ← withDefault (.both 1) (pair? nat?) dilation
    let pad ← withDefault (.both Padding.none) (pair? Padding.ofJson?) pad
    let layout ← withDefault .nchw Layout.ofJson? layout
    pure ⟨stride, dilation, pad, layout⟩
  | _ => none

def Pool2d.ofJson? (j : Json) : Option Pool2d := do
  match ← j.fields? ["kind", "kernel", "stride", "pad", "layout"] with
  | [kind, kernel, stride, pad, layout] =>
    let kind ← required (choice? true PoolKind.names) kind
    let kernel ← required (pair? nat?) kernel
    let stride ← withDefault (.both 1) (pair? nat?) stride
    let pad ← withDefault (.both Padding.none) (pair? Padding.ofJson?) pad
    let layout ← withDefault .nchw Layout.ofJson? layout
    pure ⟨kind, kernel, stride, pad, layout⟩
  | _ => none

def ConstantPad.ofJson? (j : Json) : Option ConstantPad := do
  match ← j.fields? ["front", "back", "value"] with
  | [front, back, value] =>
    let front ← required (list? nat?) front
    let back ← required (list? nat?) back
    let value ← withDefault .zero c.single? value
    pure ⟨front, back, value⟩
  | _ => none

namespace Activation

/-- A name, or an object whose only key is `leaky_relu`. -/
def ofJson? (held : Bool) : Json → Option Activation
  | .obj [(some "leaky_relu", j)] => do
    match ← j.fields? ["alpha"] with
    | [alpha] => (required c.single? alpha).map .leakyRelu
    | _ => none
  | j => choice? held names j

def toJson : Activation → Json
  | .leakyRelu alpha => .object [("leaky_relu", .object [("alpha", c.ofSingle alpha)])]
  | f => .ofText (nameIn names f)

end Activation

namespace Operator

def ofParameters? (name : String) (j : Json) : Option Operator := do
  match name with
  | "conv2d" => (Conv2d.ofJson? j).map .conv2d
  | "pool2d" => (Pool2d.ofJson? j).map .pool2d
  | "pad" => (ConstantPad.ofJson? c j).map .pad
  | "activation" =>
    match ← j.fields? ["func"] with
    | [f] => (required (Activation.ofJson? c true) f).map .activation
    | _ => none
  | "binary" =>
    match ← j.fields? ["kind"] with
    | [k] => (required (choice? true BinaryKind.names) k).map .binary
    | _ => none
  | "reduce" =>
    match ← j.fields? ["kind", "axes", "keep_dims"] with
    | [kind, axes, keepDims] =>
      let kind ← required (choice? true ReduceKind.names) kind
      let axes ← required (list? nat?) axes
      let keepDims ← withDefault false bool? keepDims
      pure (.reduce kind axes keepDims)
    | _ => none
  | "transpose" =>
    match ← j.fields? ["perm"] with
    | [perm] => (required (list? nat?) perm).map .transpose
    | _ => none
  | "reshape" =>
    match ← j.fields? ["shape"] with
    | [shape] => (required (list? nat?) shape).map .reshape
    | _ => none
  | "concat" =>
    match ← j.fields? ["axis"] with
    | [axis] => (required nat? axis).map .concat
    | _ => none
  | "slice" =>
    match ← j.fields? ["begin", "size"] with
    | [start, size] =>
      let start ← required (list? nat?) start
      let size ← required (list? nat?) size
      pure (.slice start size)
    | _ => none
  | "softmax" =>
    match ← j.fields? ["axis"] with
    | [axis] => (required nat? axis).map .softmax
    | _ => none
  | _ => none

/-- The operator a value describes: an object with one member `op`, or an array that begins with the
name. -/
def ofJson? (depth : Nat) (j : Json) : Option Operator := do
  if !j.readable c depth then none
  match j with
  | .obj members =>
    match under "op" members with
    | [tag] => ofParameters? c (← tag.text?) (.obj (members.filter fun m => m.1 != some "op"))
    | _ => none
  | .arr (tag :: rest) => ofParameters? c (← tag.text?) (.arr rest)
  | _ => none

def parameters : Operator → List (String × Json)
  | .conv2d p =>
    [("stride", .ofNats p.stride.toList), ("dilation", .ofNats p.dilation.toList),
      ("pad", .arr (p.pad.toList.map Padding.toJson)), ("layout", p.layout.toJson)]
  | .pool2d p =>
    [("kind", .ofText (nameIn PoolKind.names p.kind)), ("kernel", .ofNats p.kernel.toList),
      ("stride", .ofNats p.stride.toList), ("pad", .arr (p.pad.toList.map Padding.toJson)),
      ("layout", p.layout.toJson)]
  | .pad p =>
    [("front", .ofNats p.front), ("back", .ofNats p.back), ("value", c.ofSingle p.value)]
  | .activation f => [("func", f.toJson c)]
  | .binary k => [("kind", .ofText (nameIn BinaryKind.names k))]
  | .reduce k axes keepDims =>
    [("kind", .ofText (nameIn ReduceKind.names k)), ("axes", .ofNats axes),
      ("keep_dims", .bool keepDims)]
  | .transpose perm => [("perm", .ofNats perm)]
  | .reshape target => [("shape", .ofNats target)]
  | .concat axis => [("axis", .ofNat axis)]
  | .slice start size => [("begin", .ofNats start), ("size", .ofNats size)]
  | .softmax axis => [("axis", .ofNat axis)]

def toJson (op : Operator) : Json := .object (("op", .ofText op.name) :: op.parameters c)

end Operator

end CanvasFusion
