import CanvasFusion.Graph.Error

/-!
# Errors and warnings of the fusion pass

An error ends the pass. A warning does not: it says which operation was left out or kept batched,
and why.
-/

namespace CanvasFusion

inductive AxisIssue where
  | outOfRange (axis : Nat)
  | repeated (axis : Nat)
  deriving DecidableEq, Repr

def AxisIssue.message : AxisIssue → String
  | .outOfRange a => s!"axis {a} is out of range for rank 4"
  | .repeated a => s!"axis {a} is used twice"

inductive PassTable where
  | cloneTensor
  | tensor
  | tiled
  | defused
  | masked
  | forwardGap
  | gapInferShape
  | proportion
  | placement
  | axisMap
  | plan
  | fill
  | producer
  deriving DecidableEq, Repr

def PassTable.name : PassTable → String
  | .cloneTensor => "clone_tensor"
  | .tensor => "tensor"
  | .tiled => "tiled"
  | .defused => "defused"
  | .masked => "masked"
  | .forwardGap => "forward_gap"
  | .gapInferShape => "gap_infer_shape"
  | .proportion => "proportion"
  | .placement => "placement"
  | .axisMap => "axis_map"
  | .plan => "plan"
  | .fill => "fill"
  | .producer => "producer"

inductive PassKey where
  | tensor (t : TensorId)
  | operation (o : OpId)
  deriving DecidableEq, Repr

namespace PassKey

def sort : PassKey → String
  | .tensor _ => "tensor"
  | .operation _ => "operation"

def describe : PassKey → String
  | .tensor t => t.describe
  | .operation o => o.describe

end PassKey

inductive FusionError where
  | invalidAxes (issue : AxisIssue)
  | invalidTileCount
  | missingEntry (table : PassTable) (key : PassKey)
  | duplicateEntry (table : PassTable) (key : PassKey)
  /-- Gaps were still being raised when the limit on backward passes was reached. -/
  | diverged (limit : Nat)
  /-- An operation gave another shape on the canvas than its gaps say. -/
  | canvasMismatch (tensor : TensorId) (expected found : Shape)
  | graph (e : GraphError)
  | config
  | unreadable (path reason : String)
  /-- A walk over the graph ran out of steps. -/
  | outOfSteps
  | fault (f : Fault)
  deriving DecidableEq, Repr

namespace FusionError

def message : FusionError → String
  | .invalidAxes issue => s!"invalid fusion axes: {issue.message}"
  | .invalidTileCount => "tile count must be at least 1"
  | .missingEntry table key =>
    s!"{key.sort} {key.describe} has no entry in the {table.name} table"
  | .duplicateEntry table key => s!"{key.describe} was inserted twice into the {table.name} table"
  | .diverged limit => s!"gap inference did not converge within {limit} backward passes"
  | .canvasMismatch t expected found =>
    s!"fused tensor for {t.describe} has shape {found.text}, expected {expected.text}"
  | .graph e => e.message
  | .config => "TOML error: not a description of options"
  | .unreadable path reason => s!"cannot read {path}: {reason}"
  | .outOfSteps => "the pass ran out of steps"
  | .fault f => (GraphError.fault f).message

def ofGraph : GraphError → FusionError
  | .fault f => .fault f
  | e => .graph e

end FusionError

instance : MonadLift (Except Fault) (Except FusionError) where
  monadLift := Except.mapError .fault

instance : MonadLift (Except GraphError) (Except FusionError) where
  monadLift := Except.mapError .ofGraph

inductive Warning where
  /-- An operation of the source was left out, with everything behind it. -/
  | unsupportedOperator (op : OpId) (kind : String)
  /-- The inputs of an operation could not share a canvas, so it works on batched data. -/
  | unbalancedBranches (op : OpId) (kind reason : String)
  deriving DecidableEq, Repr

def Warning.message : Warning → String
  | .unsupportedOperator op kind => s!"unsupported operator {kind} {op.describe} skipped"
  | .unbalancedBranches op kind reason => s!"unbalanced branches at {kind} {op.describe}: {reason}"

end CanvasFusion
