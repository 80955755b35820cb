import CanvasFusion.Proofs.Fusion.CanvasPlan
import CanvasFusion.Proofs.Tiling.AdapterShapes

/-!
# The fused graph while it is emitted

Emission writes each of its tables once, and never changes what it has added to the fused graph. So
the invariant (`Emitting`) says of every entry how the tensor came about: a source is copied
(`EmittedAs.source`), an operation is there on batched data (`EmittedAs.batched`) or on the canvas
(`EmittedAs.canvas`), and an adapter is made of the operators of its kind (`TiledAs`, `DefusedAs`,
`MaskedAs`). All of this stays true while the graph grows (`EmittedAs.grow`).
-/

namespace CanvasFusion

open Context

/-! ## Chains of operators -/

/-- Operators of one input, applied one after the other. -/
inductive Graph.Chain (g : Graph) : TensorId → List Operator → TensorId → Prop where
  | nil (x : TensorId) : Chain g x [] x
  | snoc {x y z : TensorId} {kinds : List Operator} {kind : Operator} {o : OpId}
      (h : Chain g x kinds y) (hop : g.ops.get? o = some ⟨kind, [y], z⟩) :
      Chain g x (kinds ++ [kind]) z

theorem Graph.Chain.grow {g g' : Graph} {x y : TensorId} {kinds : List Operator}
    (h : g.Chain x kinds y) (hg : g.Grows g') : g'.Chain x kinds y := by
  induction h with
  | nil => exact .nil x
  | snoc _ hop ih => exact .snoc ih (hg.op hop)

/-- A slice of `x` for each tile of a canvas, and their concatenation. -/
def Graph.Cuts (g : Graph) (K : Canvas) (m : AxisMap) (C : Nat) (x f : TensorId) : Prop :=
  ∃ parts o, g.ops.get? o = some ⟨.concat m.batch, parts, f⟩ ∧
    List.Forall₂ (fun n part => ∃ o, g.ops.get? o =
      some ⟨.slice (K.origin m n) (K.block m C), [x], part⟩) (List.range K.count) parts

theorem Graph.Cuts.grow {g g' : Graph} {K : Canvas} {m : AxisMap} {C : Nat} {x f : TensorId}
    (h : g.Cuts K m C x f) (hg : g.Grows g') : g'.Cuts K m C x f := by
  obtain ⟨parts, o, hop, hparts⟩ := h
  refine ⟨parts, o, hg.op hop, hparts.imp fun n part h => ?_⟩
  obtain ⟨o', hop'⟩ := h
  exact ⟨o', hg.op hop'⟩

/-- The product of `x` and the mask of a canvas. -/
def Graph.Masks (g : Graph) (K : Canvas) (m : AxisMap) (x f : TensorId) : Prop :=
  ∃ c o y, g.ops.get? o = some ⟨.binary .mul, [x, c], f⟩ ∧ g.tensors.get? c = some y ∧
    y.spec.role = .constant ∧ y.spec.shape = m.arrange 1 1 K.size ∧
    y.data = some (y.spec.element.encode (K.mask m))

theorem Graph.Masks.grow {g g' : Graph} {K : Canvas} {m : AxisMap} {x f : TensorId}
    (h : g.Masks K m x f) (hg : g.Grows g') : g'.Masks K m x f := by
  obtain ⟨c, o, y, hop, hy, hrole, hshape, hdata⟩ := h
  obtain ⟨y', hy', hs, hd⟩ := hg.tensor hy
  exact ⟨c, o, y', hg.op hop, hy', hs ▸ hrole, hs ▸ hshape, by rw [hd, hs]; exact hdata⟩

namespace Context

variable {ctx ctx' ctx'' : Context} {t x f y : TensorId} {o : OpId} {op : Operation}
  {plan : FusedPlan} {P : Prop}

/-! ## How tensors come about -/

/-- The shape of a tensor where its operation puts it. -/
def fusedShape (ctx : Context) (t : TensorId) : Shape :=
  if ctx.isCanvas t then ctx.tiledShape t else ctx.cloned.shapeOf t

/-- The batched form of a tensor. -/
def BatchedAs (ctx : Context) (t f : TensorId) : Prop :=
  if ctx.isCanvas t then ctx.defused.get? t = some f else ctx.fusedOf.get? t = some f

/-- The plan reads the gaps of a tensor, along some dimension that has any. -/
def ReadsGapOf (ctx : Context) (plan : FusedPlan) (t : TensorId) : Prop :=
  ∃ d, ctx.grid.isTiled d = true ∧ (plan.rules.get d).readsGap .unbounded = .ok true ∧
    0 < (ctx.gapOf t).get d

/-- Some operation on the canvas reads gaps, along a dimension with more than one tile. -/
def ReadsGaps (ctx : Context) : Prop :=
  ∃ o plan d, ctx.plans.get? o = some (.fused plan) ∧ ctx.grid.isTiled d = true ∧
    (plan.rules.get d).readsGap .unbounded = .ok true

/-- The canvas form of a tensor for an operation with the given plan. -/
inductive CanvasAs (ctx : Context) (plan : FusedPlan) (t f : TensorId) : Prop where
  | tiled (hbatched : ctx.isCanvas t = false) (h : ctx.tiled.get? t = some f)
  | masked (hcanvas : ctx.isCanvas t = true) (h : ctx.masked.get? t = some f)
  | clean (hcanvas : ctx.isCanvas t = true) (h : ctx.fusedOf.get? t = some f)
      (hclean : ctx.fills.get? t = some .zeroed ∨ ¬ ctx.ReadsGapOf plan t)

/-- An input of an operation on the canvas. -/
def OperandAs (ctx : Context) (plan : FusedPlan) (i : Nat) (t f : TensorId) : Prop :=
  if i ∈ plan.gapped then ctx.CanvasAs plan t f else ctx.BatchedAs t f

/-- How a tensor of the working copy came into the fused graph. -/
inductive EmittedAs (ctx : Context) (t f : TensorId) : Prop where
  | source {x y : Tensor} (hx : ctx.cloned.tensors.get? t = some x)
      (hrole : x.spec.role.isWritable = false) (hy : ctx.fused.tensors.get? f = some y)
      (hspec : y.spec = x.spec) (hdata : y.data = x.data)
  | batched {o o' : OpId} {op : Operation} {inputs : List TensorId}
      (hop : ctx.cloned.ops.get? o = some op) (hout : op.output = t)
      (hbatched : ctx.isCanvas t = false) (hop' : ctx.fused.ops.get? o' = some ⟨op.kind, inputs, f⟩)
      (hinputs : List.Forall₂ ctx.BatchedAs op.inputs inputs)
  | canvas {o o' : OpId} {op : Operation} {plan : FusedPlan} {inputs : List TensorId}
      {fill : GapFill}
      (hfuses : ctx.Fuses o op plan) (hout : op.output = t)
      (hop' : ctx.fused.ops.get? o' = some ⟨ctx.canvasKindOf op, inputs, f⟩)
      (hinputs : List.Forall₂ (fun p => ctx.OperandAs plan p.2 p.1) op.inputs.zipIdx inputs)
      (hfill : ctx.outputFill op plan = .ok fill) (hfills : ctx.fills.get? t = some fill)

/-- A batched tensor that has been tiled. -/
structure TiledAs (ctx : Context) (t f : TensorId) : Prop where
  hasSamples : ctx.HasSamples t
  batched : ctx.isCanvas t = false
  chain : ∃ x, ctx.fusedOf.get? t = some x ∧
    ctx.fused.Chain x ((ctx.canvasOf t).tiling (ctx.mapOf t) (ctx.channelsOf t)) f

/-- A canvas tensor that has been de-fused. -/
structure DefusedAs (ctx : Context) (t f : TensorId) : Prop where
  canvas : ctx.isCanvas t = true
  blocks : ∃ x, ctx.fusedOf.get? t = some x ∧
    ctx.fused.Cuts (ctx.canvasOf t) (ctx.mapOf t) (ctx.channelsOf t) x f

/-- A canvas tensor that has been masked. -/
structure MaskedAs (ctx : Context) (t f : TensorId) : Prop where
  canvas : ctx.isCanvas t = true
  reads : ctx.ReadsGaps
  product : ∃ x, ctx.fusedOf.get? t = some x ∧
    ctx.fused.Masks (ctx.canvasOf t) (ctx.mapOf t) x f

/-! ## Growing states -/

/-- What depends on the core alone is the same for states of one core. -/
theorem congr_core {β : Type} (f : Context → β) (h : ctx'.core = ctx.core)
    (hf : ∀ c, f (core c) = f c) : f ctx' = f ctx := by
  rw [← hf ctx', ← hf ctx, h]

/-- The second state comes from the first by adding to the fused graph and to the tables of
emission. -/
structure Grown (ctx ctx' : Context) : Prop where
  core : ctx'.core = ctx.core
  limit : ctx'.limit = ctx.limit
  fused : ctx.fused.Grows ctx'.fused
  fusedOf : ∀ {t f}, ctx.fusedOf.get? t = some f → ctx'.fusedOf.get? t = some f
  tiled : ∀ {t f}, ctx.tiled.get? t = some f → ctx'.tiled.get? t = some f
  defused : ∀ {t f}, ctx.defused.get? t = some f → ctx'.defused.get? t = some f
  masked : ∀ {t f}, ctx.masked.get? t = some f → ctx'.masked.get? t = some f
  fills : ∀ {t f}, ctx.fills.get? t = some f → ctx'.fills.get? t = some f

namespace Grown

theorem refl (ctx : Context) : Grown ctx ctx := ⟨rfl, rfl, .refl _, id, id, id, id, id⟩

theorem trans (h : Grown ctx ctx') (h' : Grown ctx' ctx'') : Grown ctx ctx'' where
  core := h'.core.trans h.core
  limit := h'.limit.trans h.limit
  fused := h.fused.trans h'.fused
  fusedOf ht := h'.fusedOf (h.fusedOf ht)
  tiled ht := h'.tiled (h.tiled ht)
  defused ht := h'.defused (h.defused ht)
  masked ht := h'.masked (h.masked ht)
  fills ht := h'.fills (h.fills ht)

variable (h : Grown ctx ctx')

include h

theorem cloned : ctx'.cloned = ctx.cloned := congr_core Context.cloned h.core fun _ => rfl

theorem grid : ctx'.grid = ctx.grid := congr_core Context.grid h.core fun _ => rfl

theorem isCanvas : ctx'.isCanvas = ctx.isCanvas := congr_core Context.isCanvas h.core fun _ => rfl

theorem mapOf : ctx'.mapOf = ctx.mapOf := congr_core Context.mapOf h.core fun _ => rfl

theorem canvasOf : ctx'.canvasOf = ctx.canvasOf := congr_core Context.canvasOf h.core fun _ => rfl

theorem channelsOf : ctx'.channelsOf = ctx.channelsOf :=
  congr_core Context.channelsOf h.core fun _ => rfl

theorem tiledShape : ctx'.tiledShape = ctx.tiledShape :=
  congr_core Context.tiledShape h.core fun _ => rfl

theorem canvasKindOf : ctx'.canvasKindOf = ctx.canvasKindOf :=
  congr_core Context.canvasKindOf h.core fun _ => rfl

theorem fusedShape : ctx'.fusedShape = ctx.fusedShape :=
  congr_core Context.fusedShape h.core fun _ => rfl

theorem hasSamples : ctx'.HasSamples = ctx.HasSamples :=
  congr_core HasSamples h.core fun _ => rfl

end Grown

theorem Fuses.congr (h : ctx.Fuses o op plan) (hcore : ctx'.core = ctx.core) :
    ctx'.Fuses o op plan where
  known := (congr_core (fun c => c.cloned.ops.get? o) hcore fun _ => rfl).trans h.known
  planned := (congr_core (fun c => c.plans.get? o) hcore fun _ => rfl).trans h.planned
  canvas := (congr_core (fun c => c.isCanvas op.output) hcore fun _ => rfl).trans h.canvas
  means := hcore ▸ h.means
  sound := hcore ▸ h.sound
  balanced := by
    have hgap : ctx'.gapOf = ctx.gapOf := congr_core gapOf hcore fun _ => rfl
    rw [hcore, hgap]
    exact h.balanced
  operand hi hx := by
    have hmap : ctx'.mapOf = ctx.mapOf := congr_core mapOf hcore fun _ => rfl
    have hsamples : ctx'.HasSamples = ctx.HasSamples :=
      congr_core HasSamples hcore fun _ => rfl
    rw [hmap, hsamples]
    exact h.operand hi hx

section Grow

variable (hg : Grown ctx ctx')

include hg

theorem BatchedAs.grow (h : ctx.BatchedAs t f) : ctx'.BatchedAs t f := by
  unfold BatchedAs at h ⊢
  rw [hg.isCanvas]
  by_cases ht : ctx.isCanvas t = true
  · rw [if_pos ht] at h ⊢
    exact hg.defused h
  · rw [if_neg ht] at h ⊢
    exact hg.fusedOf h

theorem Grown.readsGapOf : ctx'.ReadsGapOf = ctx.ReadsGapOf :=
  congr_core ReadsGapOf hg.core fun _ => rfl

theorem CanvasAs.grow (h : ctx.CanvasAs plan t f) : ctx'.CanvasAs plan t f := by
  cases h with
  | tiled hbatched h => exact .tiled (hg.isCanvas ▸ hbatched) (hg.tiled h)
  | masked hcanvas h => exact .masked (hg.isCanvas ▸ hcanvas) (hg.masked h)
  | clean hcanvas h hclean =>
    refine .clean (hg.isCanvas ▸ hcanvas) (hg.fusedOf h) ?_
    rw [hg.readsGapOf]
    exact hclean.imp hg.fills id

theorem OperandAs.grow {i : Nat} (h : ctx.OperandAs plan i t f) : ctx'.OperandAs plan i t f := by
  unfold OperandAs at h ⊢
  by_cases hi : i ∈ plan.gapped
  · rw [if_pos hi] at h ⊢
    exact h.grow hg
  · rw [if_neg hi] at h ⊢
    exact h.grow hg

theorem Grown.inputFill {v : GapFill} (h : ctx.inputFill x = .ok v) : ctx'.inputFill x = .ok v := by
  unfold Context.inputFill at h ⊢
  rw [hg.isCanvas]
  by_cases hx : ctx.isCanvas x = true
  · rw [if_pos hx] at h ⊢
    unfold fill entry at h ⊢
    grind [fills]
  · rw [if_neg hx] at h ⊢
    exact h

/-- What the gaps of an output hold stays the same. -/
theorem Grown.outputFill {fill : GapFill} (h : ctx.outputFill op plan = .ok fill) :
    ctx'.outputFill op plan = .ok fill := by
  have hwindow : ctx'.windowFill = ctx.windowFill := congr_core windowFill hg.core fun _ => rfl
  obtain ⟨fills, hfills, hrest⟩ := bind_eq_ok.1 h
  refine bind_eq_ok.2 ⟨fills, ?_, ?_⟩
  · refine mapM_eq_ok_iff.2 ((mapM_eq_ok_iff.1 hfills).imp fun i v hv => ?_)
    grind [bind_eq_ok, inputFill]
  · rw [hwindow]
    exact hrest

/-- **How a tensor came about stays true** while the graph grows. -/
theorem EmittedAs.grow (h : ctx.EmittedAs t f) : ctx'.EmittedAs t f := by
  cases h with
  | source hx hrole hy hspec hdata =>
    obtain ⟨y', hy', hs, hd⟩ := hg.fused.tensor hy
    exact .source (hg.cloned ▸ hx) hrole hy' (hs.trans hspec) (hd.trans hdata)
  | batched hop hout hbatched hop' hinputs =>
    exact .batched (hg.cloned ▸ hop) hout (hg.isCanvas ▸ hbatched) (hg.fused.op hop')
      (hinputs.imp fun _ _ h => h.grow hg)
  | canvas hfuses hout hop' hinputs hfill hfills =>
    rw [← hg.canvasKindOf] at hop'
    exact .canvas (hfuses.congr hg.core) hout (hg.fused.op hop')
      (hinputs.imp fun _ _ h => h.grow hg) (hg.outputFill hfill) (hg.fills hfills)

theorem TiledAs.grow (h : ctx.TiledAs t f) : ctx'.TiledAs t f where
  hasSamples := hg.hasSamples ▸ h.hasSamples
  batched := hg.isCanvas ▸ h.batched
  chain := by
    obtain ⟨x, hx, hchain⟩ := h.chain
    rw [hg.canvasOf, hg.mapOf, hg.channelsOf]
    exact ⟨x, hg.fusedOf hx, hchain.grow hg.fused⟩

theorem DefusedAs.grow (h : ctx.DefusedAs t f) : ctx'.DefusedAs t f where
  canvas := hg.isCanvas ▸ h.canvas
  blocks := by
    obtain ⟨x, hx, hcuts⟩ := h.blocks
    rw [hg.canvasOf, hg.mapOf, hg.channelsOf]
    exact ⟨x, hg.fusedOf hx, hcuts.grow hg.fused⟩

theorem MaskedAs.grow (h : ctx.MaskedAs t f) : ctx'.MaskedAs t f where
  canvas := hg.isCanvas ▸ h.canvas
  reads := by
    rw [congr_core ReadsGaps hg.core fun _ => rfl]
    exact h.reads
  product := by
    obtain ⟨x, hx, hmasks⟩ := h.product
    rw [hg.canvasOf, hg.mapOf]
    exact ⟨x, hg.fusedOf hx, hmasks.grow hg.fused⟩

end Grow

/-! ## The invariant -/

/-- What is true during emission. Where `P` is true, nothing can go wrong. -/
structure Emitting (P : Prop) (ctx : Context) : Prop where
  settled : ctx.core.Settled
  stocked : ctx.cloned.Stocked
  smooth : P → ctx.limit = .unbounded ∧ ∀ t, ∀ e ∈ ctx.cloned.shapeOf t, 0 < e
  runnable : ctx.fused.Runnable
  fusedOf : ∀ {t f}, ctx.fusedOf.get? t = some f →
    ctx.fused.Has f (ctx.fusedShape t) ∧ ctx.EmittedAs t f
  injective : ∀ {t t' f}, ctx.fusedOf.get? t = some f → ctx.fusedOf.get? t' = some f → t = t'
  tiled : ∀ {t f}, ctx.tiled.get? t = some f → ctx.fused.Has f (ctx.tiledShape t) ∧ ctx.TiledAs t f
  defused : ∀ {t f}, ctx.defused.get? t = some f →
    ctx.fused.Has f (ctx.cloned.shapeOf t) ∧ ctx.DefusedAs t f
  masked : ∀ {t f}, ctx.masked.get? t = some f → ctx.fused.Has f (ctx.tiledShape t) ∧
    ctx.MaskedAs t f
  fills : ∀ {t}, ctx.fills.get? t ≠ none ↔ ctx.isCanvas t = true ∧ ctx.fusedOf.get? t ≠ none
  proportions : ∀ {f}, ctx.proportions.get? f ≠ none → f.index < ctx.fused.tensors.size
  /-- Nothing is fed but the inputs of the working copy. -/
  inputs : ∀ f ∈ ctx.fused.inputs, ∃ t ∈ ctx.cloned.inputs, ctx.fusedOf.get? t = some f
  masks : 0 < ctx.counters.masks → ctx.ReadsGaps

namespace Emitting

variable (h : Emitting P ctx)

include h

/-- What has been emitted is a tensor of the working copy. -/
theorem clone_known {t f : TensorId} (hf : ctx.fusedOf.get? t = some f) :
    ∃ z, ctx.cloned.tensors.get? t = some z := by
  have hwf := h.settled.wellFormed
  cases (h.fusedOf hf).2 with
  | source hz => exact ⟨_, hz⟩
  | batched hop hout => exact hout ▸ hwf.output_known hop
  | canvas hfuses hout => exact hout ▸ hwf.output_known hfuses.known

/-- The invariant of a grown state, by what is new in it. -/
theorem grow (hg : Grown ctx ctx') (hrunnable : ctx'.fused.Runnable)
    (hfusedOf : ∀ {t f}, ctx'.fusedOf.get? t = some f → ctx.fusedOf.get? t = some f ∨
      ctx'.fused.Has f (ctx'.fusedShape t) ∧ ctx'.EmittedAs t f)
    (hinjective : ∀ {t t' f}, ctx'.fusedOf.get? t = some f → ctx'.fusedOf.get? t' = some f → t = t')
    (htiled : ∀ {t f}, ctx'.tiled.get? t = some f → ctx.tiled.get? t = some f ∨
      ctx'.fused.Has f (ctx'.tiledShape t) ∧ ctx'.TiledAs t f)
    (hdefused : ∀ {t f}, ctx'.defused.get? t = some f → ctx.defused.get? t = some f ∨
      ctx'.fused.Has f (ctx'.cloned.shapeOf t) ∧ ctx'.DefusedAs t f)
    (hmasked : ∀ {t f}, ctx'.masked.get? t = some f → ctx.masked.get? t = some f ∨
      ctx'.fused.Has f (ctx'.tiledShape t) ∧ ctx'.MaskedAs t f)
    (hfills : ∀ {t}, ctx'.fills.get? t ≠ none ↔ ctx'.isCanvas t = true ∧ ctx'.fusedOf.get? t ≠ none)
    (hproportions : ∀ {f}, ctx'.proportions.get? f ≠ none → f.index < ctx'.fused.tensors.size)
    (hinputs : ∀ f ∈ ctx'.fused.inputs, ∃ t ∈ ctx'.cloned.inputs, ctx'.fusedOf.get? t = some f)
    (hmasks : 0 < ctx'.counters.masks → ctx'.ReadsGaps) : Emitting P ctx' where
  settled := hg.core ▸ h.settled
  stocked := hg.cloned ▸ h.stocked
  smooth hp := by
    rw [hg.limit, hg.cloned]
    exact h.smooth hp
  runnable := hrunnable
  fusedOf hf := by
    rcases hfusedOf hf with hold | hnew
    · obtain ⟨hhas, hemitted⟩ := h.fusedOf hold
      rw [hg.fusedShape]
      exact ⟨hhas.grow hg.fused, hemitted.grow hg⟩
    · exact hnew
  injective := hinjective
  tiled hf := by
    rcases htiled hf with hold | hnew
    · obtain ⟨hhas, htiled⟩ := h.tiled hold
      rw [hg.tiledShape]
      exact ⟨hhas.grow hg.fused, htiled.grow hg⟩
    · exact hnew
  defused hf := by
    rcases hdefused hf with hold | hnew
    · obtain ⟨hhas, hdefused⟩ := h.defused hold
      rw [hg.cloned]
      exact ⟨hhas.grow hg.fused, hdefused.grow hg⟩
    · exact hnew
  masked hf := by
    rcases hmasked hf with hold | hnew
    · obtain ⟨hhas, hmasked⟩ := h.masked hold
      rw [hg.tiledShape]
      exact ⟨hhas.grow hg.fused, hmasked.grow hg⟩
    · exact hnew
  fills := hfills
  proportions := hproportions
  inputs := hinputs
  masks := hmasks

/-! ### Forms -/

theorem has_of_batchedAs (hf : ctx.BatchedAs t f) : ctx.fused.Has f (ctx.cloned.shapeOf t) := by
  unfold BatchedAs at hf
  by_cases ht : ctx.isCanvas t = true
  · rw [if_pos ht] at hf
    exact (h.defused hf).1
  · rw [if_neg ht] at hf
    have hhas := (h.fusedOf hf).1
    rwa [fusedShape, if_neg ht] at hhas

theorem has_of_canvasAs (hf : ctx.CanvasAs plan t f) : ctx.fused.Has f (ctx.tiledShape t) := by
  cases hf with
  | tiled _ hf => exact (h.tiled hf).1
  | masked _ hf => exact (h.masked hf).1
  | clean hcanvas hf _ =>
    have hhas := (h.fusedOf hf).1
    rwa [fusedShape, if_pos hcanvas] at hhas

theorem has_of_operandAs {i : Nat} (hf : ctx.OperandAs plan i t f) :
    ctx.fused.Has f (ctx.operandShape plan t i) := by
  unfold OperandAs at hf
  unfold operandShape
  by_cases hi : i ∈ plan.gapped
  · rw [if_pos hi] at hf ⊢
    exact h.has_of_canvasAs hf
  · rw [if_neg hi] at hf ⊢
    exact h.has_of_batchedAs hf

end Emitting

end Context

end CanvasFusion
