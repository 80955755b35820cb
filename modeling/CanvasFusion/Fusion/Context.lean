import CanvasFusion.Fusion.Options
import CanvasFusion.Graph.Edit
import CanvasFusion.Ledger
import CanvasFusion.Tiling.Gap
import CanvasFusion.Tiling.Grid

/-!
# The state of a run

Three graphs are at work: the source, which stays as it is; the working copy, re-batched to the tile
count, which gap inference annotates; and the fused graph, which emission builds. Tables keyed by
tensors of the working copy tie them together. Most tables are written once: a second entry for a
key is an error, and so is reading an entry that is not there.
-/

namespace CanvasFusion

/-- Where the data of a tensor lives in the fused graph. -/
inductive Placement where
  /-- One sample for each position on the batch axis, as in the source. -/
  | batched
  /-- All samples as tiles of one canvas. -/
  | canvas
  deriving DecidableEq, Repr

def Placement.name : Placement → String
  | .batched => "batched"
  | .canvas => "canvas"

/-- How an operation moves to the canvas. -/
structure FusedPlan where
  /-- The gap rule along each dimension; the identity where the grid has one tile. -/
  rules : Pair GapRule
  /-- The input places whose tensors are on the canvas, or are tiled onto it. The other inputs are
  read in batched form. -/
  gapped : List Nat
  deriving DecidableEq, Repr

def FusedPlan.pointwise (gapped : List Nat) : FusedPlan := ⟨.both .identity, gapped⟩

inductive Plan where
  | batched
  | fused (plan : FusedPlan)
  deriving DecidableEq, Repr

def Plan.placement : Plan → Placement
  | .batched => .batched
  | .fused _ => .canvas

structure Counters where
  backwardPasses : Nat
  forwardVisits : Nat
  fusedOps : Nat
  batchedOps : Nat
  tileAdapters : Nat
  defuseAdapters : Nat
  masks : Nat
  deriving DecidableEq, Repr

def Counters.zero : Counters := ⟨0, 0, 0, 0, 0, 0, 0⟩

structure Context where
  limit : Limit
  source : Graph
  cloned : Graph
  fused : Graph
  axes : AxisMap
  grid : Grid
  maxBackwardPasses : Nat
  warnings : List Warning
  counters : Counters
  /-- From tensors of the source to the working copy. -/
  cloneOf : Ledger TensorId TensorId
  /-- From the working copy to the fused graph, each tensor where its operation put it. -/
  fusedOf : Ledger TensorId TensorId
  gaps : Ledger TensorId (Pair Nat)
  /-- The shape with its gaps: that of the canvas, for a tensor that is on one or could be. -/
  canvasShapes : Ledger TensorId Shape
  /-- The share of a fused tensor that holds samples. -/
  proportions : Ledger TensorId Float
  placements : Ledger TensorId Placement
  axisMaps : Ledger TensorId AxisMap
  plans : Ledger OpId Plan
  fills : Ledger TensorId GapFill
  /-- Canvas forms of batched tensors. -/
  tiled : Ledger TensorId TensorId
  /-- Batched forms of canvas tensors. -/
  defused : Ledger TensorId TensorId
  masked : Ledger TensorId TensorId
  visited : List OpId

/-- The batch extent of the first rank-4 input of a graph. -/
def sourceBatch? (g : Graph) (axes : AxisMap) : Except Fault (Option Nat) := do
  let shapes ← g.inputs.mapM g.shape
  match shapes.find? fun s => s.rank = 4 with
  | none => pure none
  | some s => (Size.entry s axes.batch).map some

namespace Context

/-- The state at the start. The tile count is the one asked for, or the batch of the source. -/
def initial (lim : Limit) (source : Graph) (options : Options) : Except FusionError Context := do
  options.validate
  let count ← match options.tileCount with
    | some n => pure n
    | none => do
      let batch ← sourceBatch? source options.axes
      pure (batch.getD 1)
  let grid ← Grid.ofCount lim count
  pure {
    limit := lim, source := source, cloned := .empty, fused := .empty, axes := options.axes,
    grid := grid, maxBackwardPasses := options.maxBackwardPasses, warnings := [],
    counters := .zero, cloneOf := .empty, fusedOf := .empty, gaps := .empty,
    canvasShapes := .empty, proportions := .empty, placements := .empty, axisMaps := .empty,
    plans := .empty, fills := .empty, tiled := .empty, defused := .empty, masked := .empty,
    visited := [] }

def isEnabled (ctx : Context) : Bool := 1 < ctx.grid.count

def entry {ν : Type} (table : PassTable) (key : PassKey) (v : Option ν) :
    Except FusionError ν :=
  match v with
  | some v => .ok v
  | none => .error (.missingEntry table key)

def gap (ctx : Context) (t : TensorId) : Except FusionError (Pair Nat) :=
  entry .forwardGap (.tensor t) (ctx.gaps.get? t)

def gappedShape (ctx : Context) (t : TensorId) : Except FusionError Shape :=
  entry .gapInferShape (.tensor t) (ctx.canvasShapes.get? t)

def fusedTensor (ctx : Context) (t : TensorId) : Except FusionError TensorId :=
  entry .tensor (.tensor t) (ctx.fusedOf.get? t)

def axisMap (ctx : Context) (t : TensorId) : Except FusionError AxisMap :=
  entry .axisMap (.tensor t) (ctx.axisMaps.get? t)

def fill (ctx : Context) (t : TensorId) : Except FusionError GapFill :=
  entry .fill (.tensor t) (ctx.fills.get? t)

def plan (ctx : Context) (o : OpId) : Except FusionError Plan :=
  entry .plan (.operation o) (ctx.plans.get? o)

def isCanvas (ctx : Context) (t : TensorId) : Bool := ctx.placements.get? t = some .canvas

/-- Whether a batched tensor can be tiled: its batch holds exactly the samples of the grid. -/
def isTileable (ctx : Context) (t : TensorId) : Except Fault Bool :=
  if ctx.isEnabled && ctx.placements.get? t = some .batched then
    match ctx.axisMaps.get? t with
    | none => .ok false
    | some map => do
      let shape ← ctx.cloned.shape t
      let batch ← Size.entry shape map.batch
      pure (batch = ctx.grid.count)
  else .ok false

/-- The shape of a tensor on a canvas with the given gap. A tensor that cannot be on a canvas keeps
its own shape. -/
def canvasShape (ctx : Context) (t : TensorId) (gap : Pair Nat) : Except Fault Shape := do
  let shape ← ctx.cloned.shape t
  match ctx.axisMaps.get? t with
  | none => pure shape
  | some map =>
    let batch ← Size.entry shape map.batch
    if batch ≠ ctx.grid.count then pure shape
    else
      let canvas ← shape.withDim map.batch 1
      Dim.all.foldlM (fun canvas d => do
        let extent ← Size.entry shape (map.fuse.get d)
        let extent ← ctx.grid.canvasExtent ctx.limit d extent (gap.get d)
        Shape.withDim canvas (map.fuse.get d) extent) canvas

/-- Raise the gap of a tensor to at least the given one, and its shape with it. Says whether
anything changed; the first gap of a tensor counts as a change. -/
def mergeGap (ctx : Context) (t : TensorId) (gap : Pair Nat) : Except Fault (Context × Bool) :=
  let old := ctx.gaps.get? t
  let merged := match old with
    | some old => old.zipWith max gap
    | none => gap
  if old = some merged then .ok (ctx, false)
  else do
    let ctx := { ctx with gaps := ctx.gaps.record t merged }
    let shape ← ctx.canvasShape t merged
    pure ({ ctx with canvasShapes := ctx.canvasShapes.record t shape }, true)

def canvasProportion (ctx : Context) (t : TensorId) : Except FusionError Float := do
  let gap ← ctx.gap t
  let map ← ctx.axisMap t
  let shape ← ctx.cloned.shape t
  let extent ← map.sampleExtent shape
  ctx.grid.proportion ctx.limit extent gap

end Context

/-! ## Steps of the pass -/

/-- A step of the pass. The state is kept when a step fails. -/
abbrev Pass (α : Type) := ExceptT FusionError (StateM Context) α

namespace Pass

def check {α : Type} (x : Except FusionError α) : Pass α := ExceptT.mk (pure x)

def ask {α : Type} (f : Context → Except FusionError α) : Pass α := do
  check (f (← get))

def onCloned {α : Type} (e : Graph.Edit α) : Pass α := do
  let ctx ← get
  let (result, g) := ctx.cloned.run e
  set { ctx with cloned := g }
  check (result.mapError .ofGraph)

def onFused {α : Type} (e : Graph.Edit α) : Pass α := do
  let ctx ← get
  let (result, g) := ctx.fused.run e
  set { ctx with fused := g }
  check (result.mapError .ofGraph)

/-- Make an entry in a table that is written once. `get` and `put` reach the table in the state. -/
def recordOnce {κ ν : Type} [DecidableEq κ] (table : PassTable) (toKey : κ → PassKey)
    (get : Context → Ledger κ ν) (put : Context → Ledger κ ν → Context) (k : κ) (v : ν) :
    Pass Unit := do
  let ctx ← MonadState.get
  if (get ctx).contains k then throw (.duplicateEntry table (toKey k))
  set (put ctx ((get ctx).record k v))

def recordClone (t cloned : TensorId) : Pass Unit :=
  recordOnce .cloneTensor .tensor (·.cloneOf) (fun ctx l => { ctx with cloneOf := l }) t cloned

def recordFused (t fused : TensorId) : Pass Unit :=
  recordOnce .tensor .tensor (·.fusedOf) (fun ctx l => { ctx with fusedOf := l }) t fused

def recordTiled (t fused : TensorId) : Pass Unit :=
  recordOnce .tiled .tensor (·.tiled) (fun ctx l => { ctx with tiled := l }) t fused

def recordDefused (t fused : TensorId) : Pass Unit :=
  recordOnce .defused .tensor (·.defused) (fun ctx l => { ctx with defused := l }) t fused

def recordMasked (t fused : TensorId) : Pass Unit :=
  recordOnce .masked .tensor (·.masked) (fun ctx l => { ctx with masked := l }) t fused

def recordProportion (fused : TensorId) (share : Float) : Pass Unit :=
  recordOnce .proportion .tensor (·.proportions) (fun ctx l => { ctx with proportions := l })
    fused share

def recordPlacement (t : TensorId) (p : Placement) : Pass Unit :=
  recordOnce .placement .tensor (·.placements) (fun ctx l => { ctx with placements := l }) t p

def recordFill (t : TensorId) (f : GapFill) : Pass Unit :=
  recordOnce .fill .tensor (·.fills) (fun ctx l => { ctx with fills := l }) t f

def recordPlan (o : OpId) (p : Plan) : Pass Unit :=
  recordOnce .plan .operation (·.plans) (fun ctx l => { ctx with plans := l }) o p

/-- A tensor of another rank has no axis map to record. -/
def recordAxisMap (t : TensorId) : Option AxisMap → Pass Unit
  | none => pure ()
  | some map =>
    recordOnce .axisMap .tensor (·.axisMaps) (fun ctx l => { ctx with axisMaps := l }) t map

def mergeGap (t : TensorId) (gap : Pair Nat) : Pass Bool := do
  let (ctx, changed) ← ask fun ctx => liftM (ctx.mergeGap t gap)
  set ctx
  pure changed

def warn (w : Warning) : Pass Unit :=
  modify fun ctx => { ctx with warnings := ctx.warnings ++ [w] }

def count (f : Counters → Counters) : Pass Unit :=
  modify fun ctx => { ctx with counters := f ctx.counters }

/-- Mark an operation as visited. Says whether it is the first time. -/
def visit (o : OpId) : Pass Bool := do
  let ctx ← get
  if o ∈ ctx.visited then pure false
  else
    set { ctx with visited := o :: ctx.visited }
    pure true

/-- Hand the queued operations of a graph to `step`, oldest first. When a step says which tensor it
computed, the readers of that tensor join the queue. -/
def walk (g : Graph) (step : OpId → Pass (Option TensorId)) : Nat → List OpId → Pass Unit
  | _, [] => pure ()
  | 0, _ :: _ => throw .outOfSteps
  | steps + 1, o :: queue => do
    match ← step o with
    | none => walk g step steps queue
    | some t => walk g step steps (queue ++ g.consumers t)

end Pass

/-- The readers of all tensors of a graph together. A walk that computes each tensor at most once
takes at most this many steps. -/
def Graph.readings (g : Graph) : Nat :=
  g.tensors.toList.foldl (fun n t => n + t.consumers.length) 0

end CanvasFusion
