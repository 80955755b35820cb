import CanvasFusion.Fusion.Adapter

/-!
# Emitting the fused graph

Every operation of the working copy is emitted once its inputs are there: on the canvas if it is
planned so, and on batched data otherwise. Adapters bring each input into the form that is needed.
-/

namespace CanvasFusion

namespace GapFill

def zeroedIf (b : Bool) : GapFill := if b then .zeroed else .dirty

def ofActivation (f : Activation) (input : GapFill) : GapFill :=
  zeroedIf (input = .zeroed && f.preservesZero)

/-- What the gaps hold after a binary operator. An operand without gaps is broadcast into the gap
cells too. -/
def ofBinary (kind : BinaryKind) (inputs : List GapFill) (broadcast : Bool) : GapFill :=
  match kind with
  | .add | .sub | .max | .min => zeroedIf (!broadcast && inputs.all (· = .zeroed))
  | .mul => zeroedIf (inputs.any (· = .zeroed))
  | .div => .dirty

end GapFill

namespace Context

/-- Whether an operation reads gap cells of a canvas tensor that need not hold zeros. -/
def needsMask (ctx : Context) (plan : FusedPlan) (x : TensorId) : Except FusionError Bool := do
  if !ctx.isCanvas x then pure false
  else if (← ctx.fill x) = .zeroed then pure false
  else
    let gap ← ctx.gap x
    Dim.all.foldlM (fun needed d => do
      if needed then pure true
      else if !ctx.grid.isTiled d then pure false
      else
        let reads ← (plan.rules.get d).readsGap ctx.limit
        pure (reads && 0 < gap.get d)) false

/-- What the gaps of a canvas input hold. Tiling pads with zeros. -/
def inputFill (ctx : Context) (x : TensorId) : Except FusionError GapFill :=
  if ctx.isCanvas x then ctx.fill x else .ok .zeroed

/-- Windows across the edges of tiles write anything into the gaps of their output. -/
def windowFill (ctx : Context) (t : TensorId) : Except FusionError GapFill := do
  let gap ← ctx.gap t
  pure (.zeroedIf (Dim.all.all fun d => !(ctx.grid.isTiled d && 0 < gap.get d)))

def outputFill (ctx : Context) (op : Operation) (plan : FusedPlan) :
    Except FusionError GapFill := do
  let fills ← plan.gapped.mapM fun i => do
    let x ← Size.entry op.inputs i
    ctx.inputFill x
  match op.kind with
  | .conv2d _ | .pool2d _ => ctx.windowFill op.output
  | .pad _ => pure .zeroed
  | .activation f =>
    let fill ← Size.entry fills 0
    pure (.ofActivation f fill)
  | .binary kind => pure (.ofBinary kind fills (plan.gapped.length < op.inputs.length))
  | .concat _ => pure (.zeroedIf (fills.all (· = .zeroed)))
  | .transpose _ | .reshape _ => liftM (Size.entry fills 0)
  | .reduce .. | .slice .. | .softmax _ => pure .dirty

end Context

namespace Pass

def emitBatched (op : Operation) (role : Role) : Pass Unit := do
  let inputs ← op.inputs.mapM batchedForm
  let lim := (← get).limit
  let y ← onFused (Graph.emit lim op.kind inputs role)
  checkShape op.output y (← ask fun ctx => liftM (ctx.cloned.shape op.output))
  recordFused op.output y
  recordProportion y 1
  count fun c => { c with batchedOps := c.batchedOps + 1 }

/-- The operator on the canvas. A reshape that keeps the shape keeps that of the canvas. -/
def canvasKind (op : Operation) : Pass Operator := do
  match op.kind with
  | .reshape _ => pure (.reshape (← ask (·.gappedShape op.output)))
  | kind => pure kind

/-- An input of an operation on the canvas: in canvas form at the planned places, batched at the
others. -/
def fusedInput (plan : FusedPlan) (x : TensorId) (i : Nat) : Pass TensorId := do
  if i ∈ plan.gapped then
    let masked ← ask (·.needsMask plan x)
    canvasForm x masked
  else batchedForm x

/-- Emit an operation on the canvas. An output of the graph is de-fused at once. -/
def emitFused (op : Operation) (plan : FusedPlan) (role : Role) : Pass Unit := do
  let inputs ← op.inputs.zipIdx.mapM fun (x, i) => fusedInput plan x i
  let kind ← canvasKind op
  let lim := (← get).limit
  let y ← onFused (Graph.emit lim kind inputs .transient)
  checkShape op.output y (← ask (·.gappedShape op.output))
  recordFill op.output (← ask (·.outputFill op plan))
  recordFused op.output y
  recordProportion y (← ask (·.canvasProportion op.output))
  count fun c => { c with fusedOps := c.fusedOps + 1 }
  if role = .output then
    let _ ← defuse op.output .output

def emitOp (o : OpId) : Pass TensorId := do
  let ctx ← get
  let op ← check (liftM (ctx.cloned.op o))
  let spec ← check (liftM (ctx.cloned.spec op.output))
  let role := if spec.role = .output then Role.output else .transient
  match ← check (ctx.plan o) with
  | .batched => emitBatched op role
  | .fused plan => emitFused op plan role
  pure op.output

def emitSource (t : TensorId) : Pass Unit := do
  let ctx ← get
  let tensor ← check (liftM (ctx.cloned.tensors.get t))
  let fused ← onFused (match tensor.data with
    | some data => Graph.createConstant ctx.limit tensor.spec data
    | none => Graph.createTensor tensor.spec)
  match tensor.name with
  | none => pure ()
  | some name => onFused (Graph.setName fused name)
  recordFused t fused
  recordProportion fused 1

/-- Emit an operation if its inputs are there and it was not emitted before. Gives its output. -/
def emitReady (o : OpId) : Pass (Option TensorId) := do
  let ctx ← get
  let op ← check (liftM (ctx.cloned.ops.get o))
  if !op.inputs.all ctx.fusedOf.contains then return none
  if !(← visit o) then return none
  some <$> emitOp o

def emitAll : Pass Unit := do
  modify fun ctx => { ctx with visited := [] }
  let g := (← get).cloned
  g.sources.forM emitSource
  walk g emitReady g.readings (g.sources.flatMap g.consumers)

end Pass

end CanvasFusion
