import CanvasFusion.Fusion.Planning

/-!
# Gap inference

Operations of the working copy are visited once all their inputs are placed. The first visit plans
the operation; every visit moves gaps from its inputs to its output. An operation may need a larger
gap than an input carries. Then that input is raised, and with it, through the backward rules of the
operations before it, everything it comes from, as far back as batched tensors, which can take any
gap. The readers of every tensor whose gap changed are visited again, until nothing changes.

Each such backward pass is counted, and there is a limit to them, so inference is a recursion on the
passes that are left. Between two passes it only moves gaps forward along a graph without cycles,
which comes to rest on its own: `sweepBound` is more steps than that can take.
-/

namespace CanvasFusion

structure Visit where
  /-- The tensors whose readers have to be visited again, in order. -/
  changed : List TensorId
  raised : Bool
  deriving DecidableEq, Repr

inductive Sweep where
  | settled
  /-- A backward pass was made; the queue is what is left to visit. -/
  | raised (queue : List OpId)
  | unfinished
  deriving DecidableEq, Repr

namespace Context

/-- The gap an operation needs on its canvas inputs: enough for its rule at each of them, and enough
for its output to keep the gap it has. -/
def neededGap (ctx : Context) (plan : FusedPlan) (inputs : List TensorId)
    (current : Option (Pair Nat)) : Except FusionError (Pair Nat) :=
  Pair.ofFnM fun d =>
    if !ctx.grid.isTiled d then pure 0
    else do
      let rule := plan.rules.get d
      let need ← inputs.foldlM (fun need x => do
        let gap ← ctx.gap x
        let least ← rule.admissible ctx.limit (gap.get d)
        pure (max need least)) 0
      match current with
      | none => pure need
      | some current =>
        let reached ← rule.forward ctx.limit need
        if reached < current.get d then liftM (rule.backward ctx.limit (current.get d))
        else pure need

def forwardGap (ctx : Context) (plan : FusedPlan) (need : Pair Nat) : Except Fault (Pair Nat) :=
  Pair.ofFnM fun d =>
    if !ctx.grid.isTiled d then pure 0
    else (plan.rules.get d).forward ctx.limit (need.get d)

def isReady (ctx : Context) (o : OpId) : Except Fault Bool := do
  let op ← ctx.cloned.ops.get o
  pure (op.inputs.all ctx.placements.contains)

/-- Moving gaps forward without a backward pass takes fewer steps than this. Between two visits of
an operation that change anything, some operation before it has to change its output, so with `n`
tensors there are fewer than `2 ^ n` such visits. -/
def sweepBound (ctx : Context) (queue : List OpId) : Nat :=
  queue.length + Nat.pow 2 (ctx.cloned.tensors.size + 1) * (ctx.cloned.ops.size + 1)

end Context

namespace Pass

def countBackwardPass : Pass Unit := do
  count fun c => { c with backwardPasses := c.backwardPasses + 1 }
  let ctx ← get
  if ctx.maxBackwardPasses < ctx.counters.backwardPasses then
    throw (.diverged ctx.maxBackwardPasses)

/-- Raise a tensor to at least a gap, and what it comes from with it; the last canvas input of an
operation first. Gives the tensors that changed, in order. No chain of operations is longer than
there are tensors, so `depth` need not be larger than that. -/
def raise : Nat → TensorId → Pair Nat → Pass (List TensorId)
  | 0, _, _ => throw .outOfSteps
  | depth + 1, t, gap => do
    if !(← mergeGap t gap) then return []
    let ctx ← get
    let merged ← check (ctx.gap t)
    match ← check (Context.entry .placement (.tensor t) (ctx.placements.get? t)) with
    | .batched => pure [t]
    | .canvas =>
      let producer ← check (Context.entry .producer (.tensor t) (ctx.cloned.producer t))
      match ← check (ctx.plan producer) with
      | .batched => pure [t]
      | .fused plan =>
        let want ← check (liftM (Pair.ofFnM fun d =>
          (plan.rules.get d).backward ctx.limit (merged.get d)))
        let op ← check (liftM (ctx.cloned.ops.get producer))
        let inputs ← check (liftM (plan.gapped.mapM (Size.entry op.inputs)))
        let changed ← inputs.reverse.mapM fun x => raise depth x want
        pure (t :: changed.flatten)

/-- Raise those of the inputs whose gap is too small. This makes at most one backward pass. -/
def raiseInputs (depth : Nat) (need : Pair Nat) : List TensorId → Bool → Pass Visit
  | [], raised => pure ⟨[], raised⟩
  | x :: rest, raised => do
    let gap ← ask (·.gap x)
    if gap.first < need.first ∨ gap.second < need.second then
      if !raised then countBackwardPass
      let changed ← raise depth x need
      let later ← raiseInputs depth need rest true
      pure ⟨changed ++ later.changed, true⟩
    else raiseInputs depth need rest raised

/-- Reconcile the gaps around an operation on the canvas. Gives the gap of its output. -/
def reconcile (op : Operation) (plan : FusedPlan) : Pass (Visit × Pair Nat) := do
  let inputs ← check (liftM (plan.gapped.mapM (Size.entry op.inputs)))
  let ctx ← get
  let need ← check (ctx.neededGap plan inputs (ctx.gaps.get? op.output))
  let visit ← raiseInputs (ctx.cloned.tensors.size + 1) need inputs false
  let out ← ask fun ctx => liftM (ctx.forwardGap plan need)
  pure (visit, out)

def place (o : OpId) (op : Operation) : Pass Unit := do
  let map ← ask fun ctx => liftM (ctx.outputAxisMap op)
  recordAxisMap op.output map
  let plan ← plan o op
  recordPlacement op.output plan.placement
  recordPlan o plan

def visitOp (o : OpId) : Pass Visit := do
  count fun c => { c with forwardVisits := c.forwardVisits + 1 }
  let op ← ask fun ctx => liftM (ctx.cloned.op o)
  let isFirst := !(← get).plans.contains o
  if isFirst then place o op
  let (visit, gap) ← match ← ask (·.plan o) with
    | .batched => pure (⟨[], false⟩, .both 0)
    | .fused plan => reconcile op plan
  let changed ← mergeGap op.output gap
  if isFirst || changed then pure { visit with changed := visit.changed ++ [op.output] }
  else pure visit

/-- Visit queued operations, oldest first, up to the first backward pass. -/
def sweep : Nat → List OpId → Pass Sweep
  | _, [] => pure .settled
  | 0, _ :: _ => pure .unfinished
  | steps + 1, o :: queue => do
    if ← ask fun ctx => liftM (ctx.isReady o) then
      let visit ← visitOp o
      let g := (← get).cloned
      let queue := queue ++ visit.changed.flatMap g.consumers
      if visit.raised then pure (.raised queue) else sweep steps queue
    else sweep steps queue

/-- Sweep until nothing is left to visit. The first argument is one more than the backward passes
that are left. -/
def settle : Nat → List OpId → Pass Unit
  | 0, _ => throw .outOfSteps
  | passes + 1, queue => do
    match ← sweep ((← get).sweepBound queue) queue with
    | .settled => pure ()
    | .raised queue => settle passes queue
    | .unfinished => throw .outOfSteps

def placeSource (t : TensorId) : Pass Unit := do
  let ctx ← get
  let shape ← check (liftM (ctx.cloned.shape t))
  recordAxisMap t (if shape.rank = 4 then some ctx.axes else none)
  recordPlacement t .batched
  let _ ← mergeGap t (.both 0)

/-- Find the placement, the gap and the canvas shape of every tensor of the working copy. -/
def inferGaps : Pass Unit := do
  let g := (← get).cloned
  g.sources.forM placeSource
  let ctx ← get
  settle (ctx.maxBackwardPasses - ctx.counters.backwardPasses + 1)
    (g.sources.flatMap g.consumers)

end Pass

end CanvasFusion
