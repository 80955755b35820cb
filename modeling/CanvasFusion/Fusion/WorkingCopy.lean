import CanvasFusion.Fusion.Context

/-!
# The working copy

The source graph is copied, with the batch of its inputs set to the tile count. Slices and softmax
are not supported: they are left out with a warning, together with everything that depends on them.
-/

namespace CanvasFusion

def Operator.isSupported : Operator → Bool
  | .slice .. | .softmax _ => false
  | _ => true

/-- A reshape target whose entry on the batch axis is the old batch extent gets the new one. -/
def rebatched (axis : Nat) (old : Option Nat) (new : Nat) (target : List Nat) : List Nat :=
  if old.isSome ∧ target[axis]? = old then target.set axis new else target

namespace Pass

def copyName (t cloned : TensorId) : Pass Unit := do
  let tensor ← ask fun ctx => liftM (ctx.source.tensors.get t)
  match tensor.name with
  | none => pure ()
  | some name => onCloned (Graph.setName cloned name)

def cloneInput (t : TensorId) : Pass Unit := do
  let ctx ← get
  let spec ← check (liftM (ctx.source.spec t))
  let shape ← if spec.shape.rank = 4 then
      check (liftM (spec.shape.withDim ctx.axes.batch ctx.grid.count))
    else pure spec.shape
  let cloned ← onCloned (Graph.createTensor { spec with shape := shape })
  copyName t cloned
  recordClone t cloned

def cloneConstant (t : TensorId) : Pass Unit := do
  let ctx ← get
  let tensor ← check (liftM (ctx.source.tensors.get t))
  let cloned ← onCloned (Graph.createConstant ctx.limit tensor.spec (tensor.data.getD []))
  copyName t cloned
  recordClone t cloned

def clonedKind (kind : Operator) : Pass Operator := do
  match kind with
  | .reshape target =>
    let ctx ← get
    let old ← check (liftM (sourceBatch? ctx.source ctx.axes))
    pure (.reshape (rebatched ctx.axes.batch old ctx.grid.count target))
  | kind => pure kind

/-- Copy an operation of the source whose inputs are all there, unless it was seen before. Gives the
output to go on from. -/
def cloneOp (o : OpId) : Pass (Option TensorId) := do
  let ctx ← get
  let op ← check (liftM (ctx.source.op o))
  match op.inputs.mapM ctx.cloneOf.get? with
  | none => pure none
  | some inputs =>
    if !(← visit o) then return none
    if !op.kind.isSupported then
      warn (.unsupportedOperator o op.kind.name)
      return none
    let kind ← clonedKind op.kind
    let spec ← check (liftM (ctx.source.spec op.output))
    let role := if spec.role = .output then .output else .transient
    let cloned ← onCloned (Graph.emit ctx.limit kind inputs role)
    copyName op.output cloned
    recordClone op.output cloned
    pure (some op.output)

def cloneSource : Pass Unit := do
  let source := (← get).source
  source.inputs.forM cloneInput
  source.constants.forM cloneConstant
  walk source cloneOp source.readings (source.sources.flatMap source.consumers)

end Pass

end CanvasFusion
