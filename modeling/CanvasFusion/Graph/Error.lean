import CanvasFusion.Element
import CanvasFusion.Handle
import CanvasFusion.Operator.Issue

/-!
# Errors of building and loading a graph
-/

namespace CanvasFusion

inductive FileIssue where
  /-- The text is not JSON, or the JSON does not describe a graph. -/
  | malformed
  | constantWithoutData (position : Nat)
  | positionOutOfRange (position : Nat)
  deriving DecidableEq, Repr

def FileIssue.message : FileIssue → String
  | .malformed => "not a graph description"
  | .constantWithoutData n => s!"constant tensor {n} has no data"
  | .positionOutOfRange p => s!"tensor position {p} out of range"

inductive GraphError where
  | unknownTensor (t : TensorId)
  | unknownOp (o : OpId)
  /-- The tensor is already the output of another operation. -/
  | alreadyProduced (t : TensorId)
  /-- Inputs and constants are no outputs of operations. -/
  | notWritable (t : TensorId)
  | invalidOp (op : String) (issue : OperatorIssue)
  | shapeMismatch (op : String) (expected got : Shape)
  | dataSize (mismatch : SizeMismatch)
  | file (issue : FileIssue)
  | fault (f : Fault)
  deriving DecidableEq, Repr

def GraphError.message : GraphError → String
  | .unknownTensor t => s!"unknown tensor {t.describe}"
  | .unknownOp o => s!"unknown operation {o.describe}"
  | .alreadyProduced t => s!"tensor {t.describe} already has a producer"
  | .notWritable t =>
    s!"tensor {t.describe} is a graph input or constant and cannot be an operation output"
  | .invalidOp op issue => s!"{op}: {issue.message}"
  | .shapeMismatch op expected got =>
    s!"{op}: output shape mismatch: expected {expected.text}, got {got.text}"
  | .dataSize m => s!"constant data has {m.got} bytes, expected {m.expected}"
  | .file issue => s!"invalid graph file: {issue.message}"
  | .fault _ => "size out of range"

instance : MonadLift (Except Fault) (Except GraphError) where
  monadLift := Except.mapError .fault

end CanvasFusion
