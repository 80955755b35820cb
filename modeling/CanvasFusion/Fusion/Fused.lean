import CanvasFusion.Fusion.Emission
import CanvasFusion.Fusion.GapInference
import CanvasFusion.Fusion.Report
import CanvasFusion.Fusion.WorkingCopy

/-!
# The fusion pass

`fuse` puts the samples of a batch side by side on one canvas. The source is copied, gaps are
inferred on the copy, and the fused graph is emitted from it. The result says where each tensor of
the source went.
-/

namespace CanvasFusion

inductive Phase where
  | cloning
  | gapInference
  | emission
  deriving DecidableEq, Repr

namespace Phase

def all : List Phase := [.cloning, .gapInference, .emission]

def name : Phase → String
  | .cloning => "cloning"
  | .gapInference => "gap_inference"
  | .emission => "rewriting"

def run : Phase → Pass Unit
  | .cloning => Pass.cloneSource
  | .gapInference => Pass.inferGaps
  | .emission => Pass.emitAll

end Phase

structure TensorFusion where
  placement : Placement
  gap : Pair Nat
  /-- The shape on the canvas, or the batched shape. -/
  canvasShape : Shape
  fused : Option TensorId
  /-- The batched form of a canvas tensor, if one was needed. -/
  defused : Option TensorId
  proportion : Option Float

structure Fused where
  graph : Graph
  /-- From inputs and outputs of the source to the fused graph. -/
  io : Ledger TensorId TensorId
  report : Report
  /-- Where each tensor of the source went, if it was copied. -/
  info : Ledger TensorId TensorFusion
  missing : List TensorId

def Fused.isComplete (f : Fused) : Bool := f.missing.isEmpty

namespace Context

/-- The batched fused tensor of an output of the source, if it has one. -/
def outputOf? (ctx : Context) (t : TensorId) : Option TensorId := do
  let cloned ← ctx.cloneOf.get? t
  match ctx.defused.get? cloned with
  | some batched => some batched
  | none => if ctx.isCanvas cloned then none else ctx.fusedOf.get? cloned

/-- Where a tensor of the source went; nothing if it has no copy or the copy was never placed. -/
def tensorFusion? (ctx : Context) (t : TensorId) : Except FusionError (Option TensorFusion) :=
  match ctx.cloneOf.get? t with
  | none => .ok none
  | some cloned =>
    match ctx.placements.get? cloned, ctx.gaps.get? cloned with
    | some placement, some gap => do
      let shape ← ctx.gappedShape cloned
      let fused := ctx.fusedOf.get? cloned
      pure (some ⟨placement, gap, shape, fused, ctx.defused.get? cloned,
        fused.bind ctx.proportions.get?⟩)
    | _, _ => .ok none

def report (ctx : Context) : Report := ⟨ctx.grid.count, ctx.grid.tiles, ctx.counters, ctx.warnings⟩

end Context

namespace Pass

def collectInput (t : TensorId) : Pass (TensorId × TensorId) := do
  let ctx ← get
  let cloned ← check (Context.entry .cloneTensor (.tensor t) (ctx.cloneOf.get? t))
  let fused ← check (ctx.fusedTensor cloned)
  pure (t, fused)

/-- The fused tensor of an output of the source, which takes over its name. -/
def collectOutput (t : TensorId) : Pass (TensorId × Option TensorId) := do
  let ctx ← get
  match ctx.outputOf? t with
  | none => pure (t, none)
  | some fused =>
    let tensor ← check (liftM (ctx.source.tensors.get t))
    match tensor.name with
    | none => pure ()
    | some name => onFused (Graph.setName fused name)
    pure (t, some fused)

def collectTensor (t : TensorId) : Pass (Option (TensorId × TensorFusion)) := do
  let fusion ← ask (·.tensorFusion? t)
  pure (fusion.map fun f => (t, f))

def collect : Pass Fused := do
  let source := (← get).source
  let inputs ← source.inputs.mapM collectInput
  let outputs ← source.outputs.mapM collectOutput
  let info ← source.tensors.handles.mapM collectTensor
  let ctx ← get
  pure {
    graph := ctx.fused
    io := ⟨inputs ++ outputs.filterMap fun (t, fused) => fused.map fun fused => (t, fused)⟩
    report := ctx.report
    info := ⟨info.filterMap id⟩
    missing := outputs.filterMap fun (t, fused) => if fused.isNone then some t else none }

def fuse : Pass Fused := do
  Phase.all.forM Phase.run
  collect

end Pass

def fuse (lim : Limit) (options : Options) (source : Graph) : Except FusionError Fused := do
  let ctx ← Context.initial lim source options
  (Pass.fuse.run ctx).1

end CanvasFusion
