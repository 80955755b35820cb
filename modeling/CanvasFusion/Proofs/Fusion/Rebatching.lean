import CanvasFusion.Proofs.Fusion.Run

/-!
# Re-batching

Cloning sets the batch of every input of rank 4 to the number of samples. Where no number is asked
for, it is the batch of the first such input, so an input with another batch is changed as well.

**Theorem (cloneSource_keeps_shapes_iff).** If no number of samples is asked for, all copies keep
their shapes if and only if the inputs of rank 4 share one batch, and it is not empty. The same
condition decides whether the inputs and outputs of the fused graph have the shapes of the source.
-/

namespace CanvasFusion

namespace Context

variable {lim : Limit} {source : Graph} {options : Options} {ctx₀ ctx ctx₁ ctx₂ ctx₃ : Context}
  {t c f : TensorId} {P : Prop}

/-- The copy of an input has its batch set to the number of samples. -/
theorem Copying.input_shape (h : Copying ctx₀ ctx) (hsource : ctx₀.source.WellFormed)
    (ht : t ∈ ctx₀.source.inputs) (hc : ctx.cloneOf.get? t = some c) :
    ctx.cloned.shapeOf c = ctx₀.inputShape (ctx₀.source.shapeOf t) := by
  have hsrc : ctx.source = ctx₀.source := by rw [h.frame]
  have hshape : ctx.inputShape = ctx₀.inputShape := by
    funext s
    unfold inputShape
    rw [h.frame]
  obtain ⟨x, hx, hrole⟩ := hsource.mem_inputs.1 ht
  cases h.copied hc with
  | input hx' _ hy hspec _ =>
    rw [hsrc] at hx'
    rw [Graph.shapeOf_eq hy, hspec, hshape, Graph.shapeOf_eq hx']
  | constant hx' hrole' => grind
  | written hop hout =>
    rw [hsrc] at hop
    exact absurd (List.mem_append_left _ (hout ▸ ht)) (hsource.not_source_of_output hop)

/-- Setting the batch of an input keeps its shape only if the batch was that already. -/
theorem extent_of_inputShape (haxes : ctx.axes.Valid) {s : Shape} (hrank : s.length = 4)
    (h : ctx.inputShape s = s) : s.extent ctx.axes.batch = ctx.grid.count := by
  rw [inputShape, if_pos hrank] at h
  rw [← h, Shape.extent_set (hrank ▸ haxes.batch_lt), if_pos rfl]

/-- **Copies keep their shapes** if and only if the inputs have the samples of the grid. -/
theorem Cloned.shapes_eq_iff (h : Cloned ctx₀ ctx) (haxes : ctx₀.axes.Valid)
    (hsource : ctx₀.source.WellFormed) :
    (∀ t c, ctx.cloneOf.get? t = some c → ctx.cloned.shapeOf c = ctx₀.source.shapeOf t) ↔
      ctx₀.KeepsBatch := by
  refine ⟨fun hall t ht hrank => ?_, fun hb t c hc => h.copying.shape_eq hb haxes hsource hc⟩
  obtain ⟨c, hc⟩ := Option.ne_none_iff_exists'.1 (h.sources t (List.mem_append_left _ ht))
  grind [extent_of_inputShape, Copying.input_shape, Cloning.copying, toCloning]

section Runs

variable {r : Fused} (h : Run P ctx₀ ctx₁ ctx₂ ctx₃) (hend : Collected ctx₃ ctx r)
  (hsource : ctx₀.source.WellFormed)

include h hend hsource

/-- An input or output in the fused graph has the shape of its copy. -/
theorem Run.io_shape (ht : t ∈ ctx₀.source.inputs ++ ctx₀.source.outputs)
    (hf : r.io.get? t = some f) :
    ∃ c, ctx₁.cloneOf.get? t = some c ∧ r.graph.shapeOf f = ctx₁.cloned.shapeOf c := by
  obtain ⟨c, hc, hbatched⟩ := h.io_batched hend hsource ht hf
  have hhas := (h.emitted.emitting.has_of_batchedAs hbatched).grow hend.relabels.grows
  refine ⟨c, h.cloneOf_eq ▸ hc, ?_⟩
  rw [hend.graph, hhas.shapeOf_eq, h.cloned_eq]

/-- Inputs and outputs keep their shapes under the condition that copies do. -/
theorem Run.io_shapes_eq_iff (haxes : ctx₀.axes.Valid) :
    (∀ t ∈ ctx₀.source.inputs ++ ctx₀.source.outputs, ∀ f, r.io.get? t = some f →
      r.graph.shapeOf f = ctx₀.source.shapeOf t) ↔ ctx₀.KeepsBatch := by
  refine ⟨fun hall t ht hrank => ?_, fun hb t ht f hf => ?_⟩
  · have hmem := List.mem_append_left ctx₀.source.outputs ht
    obtain ⟨_, f, -, -, hin⟩ := h.inputOf?_eq_some ht
    have hf : r.io.get? t = some f := by rw [hend.input (h.source_eq ▸ ht), hin]
    obtain ⟨c, hc, hshape⟩ := h.io_shape hend hsource hmem hf
    refine extent_of_inputShape haxes hrank ?_
    rw [← h.cloned.copying.input_shape hsource ht hc, ← hshape, hall t hmem f hf]
  · obtain ⟨c, hc, hshape⟩ := h.io_shape hend hsource ht hf
    rw [hshape, h.cloned.copying.shape_eq hb haxes hsource hc]

end Runs

/-- The samples of the grid, where no number of samples is asked for. -/
theorem Starts.count_of_unset (h₀ : Starts lim source options ctx₀)
    (hunset : options.tileCount = none) : ∃ batch, sourceBatch? source options.axes = .ok batch ∧
      ctx₀.grid.count = max (batch.getD 1) 1 := by
  obtain ⟨n, hn, hgrid⟩ := h₀.count
  rw [sampleCount, hunset] at hn
  cases hbatch : sourceBatch? source options.axes with
  | error e =>
    rw [hbatch] at hn
    cases hn
  | ok batch =>
    rw [hbatch] at hn
    cases hn
    exact ⟨batch, rfl, (Grid.ofCount_spec hgrid).1⟩

end Context

open Context

/-! ## Main result -/

/-- Two inputs of rank 4, with two samples and with one. -/
def unevenBatches : List Graph.Call :=
  [.createTensor ⟨.f32, [2, 1, 1, 1], .input, none⟩,
    .createTensor ⟨.f32, [1, 1, 1, 1], .input, none⟩]

/-- **Without a number of samples asked for, shapes are kept if and only if the inputs share a
batch.** The batch of an input of rank 4 becomes that of the first such input, and no empty one
stays. -/
theorem cloneSource_keeps_shapes_iff {lim lim' : Limit} {calls : List Graph.Call}
    {options : Options} {ctx₀ ctx : Context} (hunset : options.tileCount = none)
    (hinit : Context.initial lim (Graph.build lim' calls) options = .ok ctx₀)
    (hclone : Pass.cloneSource.run ctx₀ = (.ok (), ctx)) :
    let source := Graph.build lim' calls
    ∃ batch, sourceBatch? source options.axes = .ok batch ∧
      let samples := max (batch.getD 1) 1
      let Shared := ∀ t ∈ source.inputs, (source.shapeOf t).rank = 4 →
        (source.shapeOf t).extent options.axes.batch = samples
      (∀ t ∈ source.inputs, ∃ c, ctx.cloneOf.get? t = some c ∧ ctx.cloned.shapeOf c =
        if (source.shapeOf t).rank = 4 then (source.shapeOf t).set options.axes.batch samples
        else source.shapeOf t) ∧
      ((∀ t c, ctx.cloneOf.get? t = some c → ctx.cloned.shapeOf c = source.shapeOf t) ↔ Shared) ∧
      ∀ r, fuse lim options source = .ok r →
        ((∀ t ∈ source.inputs ++ source.outputs, ∀ f, r.io.get? t = some f →
          r.graph.shapeOf f = source.shapeOf t) ↔ Shared) := by
  intro source
  have hsource : source.WellFormed := Graph.wellFormed_build lim' calls
  have h₀ := starts_of_initial hinit
  have hsource₀ : ctx₀.source.WellFormed := h₀.source_eq ▸ hsource
  have hcloned := (after_cloneSource (P := False) h₀ hsource₀ False.elim).of_run hclone
  obtain ⟨batch, hbatch, hcount⟩ := h₀.count_of_unset hunset
  have hshared : ctx₀.KeepsBatch ↔ ∀ t ∈ source.inputs, (source.shapeOf t).rank = 4 →
      (source.shapeOf t).extent options.axes.batch = max (batch.getD 1) 1 := by
    rw [KeepsBatch, h₀.source_eq, h₀.axes_eq, hcount]
    rfl
  refine ⟨batch, hbatch, fun t ht => ?_, ?_, fun r hr => ?_⟩
  · have ht₀ : t ∈ ctx₀.source.inputs := h₀.source_eq ▸ ht
    obtain ⟨c, hc⟩ := Option.ne_none_iff_exists'.1 (hcloned.sources t (List.mem_append_left _ ht₀))
    refine ⟨c, hc, ?_⟩
    rw [hcloned.copying.input_shape hsource₀ ht₀ hc, h₀.source_eq, inputShape, h₀.axes_eq, hcount]
    rfl
  · rw [← hshared, ← hcloned.shapes_eq_iff h₀.axes hsource₀, h₀.source_eq]
  · obtain ⟨ctx₀', ctx₁, ctx₂, ctx₃, ctx', hinit', -, -, hphases, hend⟩ := exists_run hsource hr
    cases hinit.symm.trans hinit'
    rw [← hshared, ← hphases.io_shapes_eq_iff hend hsource₀ h₀.axes, h₀.source_eq]

/-- An input with one sample gets a second one, since the input before it has two. -/
theorem cloneSource_keeps_shapes_iff_uneven : ∃ ctx₀ ctx,
    Context.initial .word64 (Graph.build .word64 unevenBatches) .standard = .ok ctx₀ ∧
    Pass.cloneSource.run ctx₀ = (.ok (), ctx) ∧
    (∃ c, ctx.cloneOf.get? ⟨1⟩ = some c ∧ ctx.cloned.shapeOf c = [2, 1, 1, 1]) ∧
    ¬ ∀ t c, ctx.cloneOf.get? t = some c →
      ctx.cloned.shapeOf c = (Graph.build .word64 unevenBatches).shapeOf t := by
  obtain ⟨ctx₀, ctx, hinit, hclone, -⟩ := exists_cloned .word64
    (Graph.build .word64 unevenBatches) .standard (by decide +kernel)
  obtain ⟨batch, hbatch, hinputs, hkeeps, -⟩ := cloneSource_keeps_shapes_iff rfl hinit hclone
  have hbatch' : sourceBatch? (Graph.build .word64 unevenBatches) Options.standard.axes =
      .ok (some 2) := by decide +kernel
  cases hbatch.symm.trans hbatch'
  obtain ⟨c, hc, hshape⟩ := hinputs ⟨1⟩ (by decide +kernel)
  refine ⟨ctx₀, ctx, hinit, hclone, ⟨c, hc, hshape.trans (by decide +kernel)⟩, fun hall => ?_⟩
  have hone := hkeeps.1 hall ⟨1⟩ (by decide +kernel) (by decide +kernel)
  revert hone
  decide +kernel

end CanvasFusion
