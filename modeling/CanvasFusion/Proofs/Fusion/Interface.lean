import CanvasFusion.Proofs.Fusion.Run

/-!
# The interface of the fused graph

A caller of the pass swaps the fused graph for the source. That works if both have the same
interface: the same inputs in the same order, the same outputs, and names that can be looked up.

The interface is followed through the phases. Cloning copies inputs in order, with names and roles
(`Mirrors`). Emission makes the batched form of an output an output, whatever else it adds
(`Presents`). Collecting the result changes names only, and the name an output gets is that of the
one output of the source it belongs to.
-/

namespace CanvasFusion

open List Option CanvasFusion.Graph

/-! ## Fused tensors -/

/-- The output that an operation writes, if it is one of the graph. -/
def Graph.writtenOutput? (g : Graph) (o : OpId) : Option TensorId :=
  (g.ops.get? o).bind fun op => if g.outputs.contains op.output then some op.output else none

theorem Graph.writtenOutput?_eq {g : Graph} {o : OpId} {op : Operation}
    (hop : g.ops.get? o = some op) :
    g.writtenOutput? o = if op.output ∈ g.outputs then some op.output else none := by
  simp [writtenOutput?, hop]

namespace Context

variable {P : Prop} {ctx ctx' ctx₀ : Context} {t c f y : TensorId} {o : OpId} {op : Operation}
  {z : Tensor} {done : List TensorId}

/-- What a caller sees of the fused graph, while it is emitted. -/
structure Presents (ctx : Context) : Prop where
  inputs : List.Forall₂ (fun c f => ctx.fusedOf.get? c = some f) ctx.cloned.inputs ctx.fused.inputs
  /-- The outputs come as the operations that write them are emitted. -/
  outputs : List.Forall₂ ctx.BatchedAs (ctx.visited.reverse.filterMap ctx.cloned.writtenOutput?)
    ctx.fused.outputs
  name : ∀ {c f}, c ∈ ctx.cloned.sources → ctx.fusedOf.get? c = some f →
    ∃ z y, ctx.cloned.tensors.get? c = some z ∧ ctx.fused.tensors.get? f = some y ∧ y.name = z.name
  canvas : ∀ {c f}, ctx.isCanvas c = true → ctx.fusedOf.get? c = some f →
    ∃ y, ctx.fused.tensors.get? f = some y ∧ y.spec.role = .transient

/-- The same before operations are emitted, by the sources that are done. -/
structure PresentsSources (done : List TensorId) (ctx : Context) : Prop where
  inputs : List.Forall₂ (fun c f => ctx.fusedOf.get? c = some f)
    (done.filter fun c => c ∈ ctx.cloned.inputs) ctx.fused.inputs
  outputs : ctx.fused.outputs = []
  known : ∀ {c f}, ctx.fusedOf.get? c = some f → c ∈ done ∧
    ∃ z y, ctx.cloned.tensors.get? c = some z ∧ ctx.fused.tensors.get? f = some y ∧ y.name = z.name

theorem PresentsSources.step (h : PresentsSources done ctx)
    (hz : ctx.cloned.tensors.get? t = some z) (hw : z.spec.role.isWritable = false)
    (hwf : ctx.cloned.WellFormed) (hnew : ctx.fusedOf.get? t = none)
    (hs : ctx.Sourced t z y ctx') : PresentsSources (done ++ [t]) ctx' := by
  have hcloned : ctx'.cloned = ctx.cloned := by rw [hs.frame]
  refine ⟨?_, ?_, fun {c f} hf => ?_⟩
  · have hold := h.inputs.imp fun c f hf => Ledger.get?_record_of_new (v := y) hnew hf
    have hin : t ∈ ctx.cloned.inputs ↔ z.spec.role = .input := by simp [hwf.mem_inputs, hz]
    rw [hs.enters.inputs, hs.fusedOf, hcloned, filter_append]
    refine rel_append hold ?_
    by_cases hrole : z.spec.role = .input
    · simp [hin, hrole]
    · simp [hin, hrole]
  · have hout : z.spec.role ≠ .output := fun hrole => by
      rw [hrole] at hw
      cases hw
    rw [hs.enters.outputs, h.outputs, if_neg hout]
    rfl
  · rw [hs.fusedOf] at hf
    rw [hcloned]
    rcases Ledger.cases_of_get?_record hf with hf | ⟨rfl, rfl⟩
    · obtain ⟨hmem, z', y', hz', hy', hname⟩ := h.known hf
      obtain ⟨y'', hy'', -, hname'⟩ := hs.enters.tensor hy'
      exact ⟨mem_append_left _ hmem, z', y'', hz', hy'', hname'.trans hname⟩
    · obtain ⟨y', hy', -, hname⟩ := hs.enters.entered
      exact ⟨mem_append_right _ mem_cons_self, z, y', hz, hy', hname⟩

theorem PresentsSources.presents (h : PresentsSources ctx.cloned.sources ctx)
    (hs : ctx.core.Settled) (hvisited : ctx.visited = []) : Presents ctx where
  inputs := by
    have hdisjoint := (nodup_append.1 hs.wellFormed.sources_nodup).2.2
    have hin : (ctx.cloned.sources.filter fun c => c ∈ ctx.cloned.inputs) = ctx.cloned.inputs := by
      rw [sources, filter_append, filter_eq_self.2 fun c hc => decide_eq_true hc,
        filter_eq_nil_iff.2 fun c hc hin => hdisjoint c (of_decide_eq_true hin) c hc rfl,
        append_nil]
    exact hin ▸ h.inputs
  outputs := by
    rw [hvisited, h.outputs]
    exact .nil
  name _ hf := (h.known hf).2
  canvas hcanvas hf := by grind [Settled.source, known]

/-- **What an operation adds** to what a caller sees. -/
theorem presents_kept : KeptByOps P True ctx₀ Presents := by
  intro o op ctx hrew h hop hseen hin
  refine .of_forall (fun _ ctx' hserved => ?_) fun _ _ => trivial
  have hwf := hrew.emitting.settled.wellFormed
  have hcloned : ctx'.cloned = ctx.cloned := hserved.grown.cloned
  have hisCanvas : ctx'.isCanvas = ctx.isCanvas := hserved.grown.isCanvas
  have hvisited : ctx'.visited = o :: ctx.visited := hserved.visited
  have hgrown : ∀ {u f}, ctx.fusedOf.get? u = some f → ctx'.fusedOf.get? u = some f :=
    hserved.grown.fusedOf
  obtain ⟨outs, hsupplies, houts⟩ := hserved.supplies
  have hcontinues : ctx.fused.Continues outs ctx'.fused := hsupplies.continues
  -- What was emitted before is as it was.
  have hback : ∀ {u f}, u ≠ op.output → ctx'.fusedOf.get? u = some f →
      ctx.fusedOf.get? u = some f := by
    intro u f hne hf
    have hknown : ctx.fusedOf.get? u ≠ none :=
      (hserved.fusedOf.1 (hf ▸ some_ne_none f)).resolve_right hne
    obtain ⟨f', hf'⟩ := ne_none_iff_exists'.1 hknown
    rw [hf', ← hgrown hf', hf]
  refine ⟨?_, ?_, fun {c f} hc hf => ?_, fun {c f} hc hf => ?_⟩
  · rw [hcloned, hcontinues.inputs]
    exact h.inputs.imp fun _ _ => hgrown
  · have hold := h.outputs.imp fun u f hf => BatchedAs.grow hserved.grown hf
    have hlast : [o].filterMap ctx.cloned.writtenOutput? =
        if op.output ∈ ctx.cloned.outputs then [op.output] else [] := by
      rw [filterMap_cons, writtenOutput?_eq hop]
      split_ifs <;> rfl
    rw [hvisited, hcloned, reverse_cons, filterMap_append, hcontinues.outputs, hlast]
    exact rel_append hold houts
  · rw [hcloned] at hc ⊢
    have hne : c ≠ op.output := fun heq => hwf.not_source_of_output hop (heq ▸ hc)
    grind [Presents.name, Continues.tensor]
  · rw [hisCanvas] at hc
    by_cases heq : c = op.output
    · obtain ⟨f', y, hf', hy, hrole⟩ := hserved.inner (heq ▸ hc)
      rw [heq, hf', some_inj] at hf
      exact ⟨y, hf ▸ hy, hrole⟩
    · grind [Presents.canvas, Continues.tensor]

/-- **What a caller sees** of the fused graph, at the end of emission. -/
theorem Run.presents {ctx₁ ctx₂ ctx₃ : Context} {lim : Limit} {source : Graph} {options : Options}
    (h : Run P ctx₀ ctx₁ ctx₂ ctx₃) (h₀ : Starts lim source options ctx₀) : Presents ctx₃ := by
  have hblank := h.blank h₀
  have hstocked := h.stocked
  have hwf : ctx₂.cloned.WellFormed := h.settled.wellFormed
  have hstart : PresentsSources [] { ctx₂ with visited := [] } := by
    refine ⟨?_, ?_, fun {c f} hf => ?_⟩
    · show List.Forall₂ _ _ ctx₂.fused.inputs
      rw [hblank.fused]
      exact .nil
    · show ctx₂.fused.outputs = []
      rw [hblank.fused]
      rfl
    · exact (Ledger.not_get?_empty hblank.fusedOf hf).elim
  refine ((after_emitAll_keeping (P := False) h.settled hstocked hblank False.elim
    (J := PresentsSources) (K := Presents) hstart (fun hcore _ hj hz hw hnew => ?_)
    (fun hcore hvisited hemitting hj => ?_) presents_kept).of_run h.emits).2
  · have hcloned := congr_core cloned hcore fun _ => rfl
    exact .of_forall (fun _ _ ⟨y, hs⟩ => hj.step hz hw (hcloned ▸ hwf) hnew hs) fun _ _ => trivial
  · have hcloned := congr_core cloned hcore fun _ => rfl
    rw [← hcloned] at hj
    exact hj.presents hemitting.settled hvisited

end Context

/-! ## Labels -/

namespace Graph

variable {g : Graph} {f : TensorId} {x : Tensor} {labels : List (TensorId × Option String)}

theorem labelled_of_not_mem (h : ∀ p ∈ labels, p.1 ≠ f) :
    (g.labelled labels).tensors.get? f = g.tensors.get? f := by
  induction labels using List.reverseRecOn with
  | nil => rfl
  | append_singleton labels p ih =>
    have hne : f ≠ p.1 := (h p (mem_append_right _ mem_cons_self)).symm
    rw [labelled_concat, named_get?, ih fun q hq => h q (mem_append_left _ hq)]
    simp [hne]

/-- A tensor whose labels agree gets their name. -/
theorem labelled_nameOf {n : String} (hx : g.tensors.get? f = some x)
    (hall : ∀ p ∈ labels, p.1 = f → p.2 = some n) (hmem : ∃ p ∈ labels, p.1 = f) :
    (g.labelled labels).nameOf f = some n := by
  induction labels using List.reverseRecOn with
  | nil =>
    obtain ⟨p, hp, -⟩ := hmem
    cases hp
  | append_singleton labels p ih =>
    rw [labelled_concat, nameOf, named_get?]
    by_cases hf : f = p.1
    · obtain ⟨x', hx', -⟩ := (g.relabels_labelled labels).grows.tensor hx
      grind
    · obtain ⟨q, hq, hqf⟩ := hmem
      have hq' : q ∈ labels := by grind
      have hname := ih (fun q hq => hall q (mem_append_left _ hq)) ⟨q, hq', hqf⟩
      simpa [nameOf, hf] using hname

end Graph

/-! ## Results -/

namespace Context

variable {P : Prop} {lim : Limit} {source : Graph} {options : Options}
  {ctx₀ ctx₁ ctx₂ ctx₃ ctx : Context} {t t' c f f' : TensorId} {r : Fused}

theorem BatchedAs.unique (h : ctx.BatchedAs c f) (h' : ctx.BatchedAs c f') : f = f' := by
  grind [BatchedAs]

section Results

variable (h : Run P ctx₀ ctx₁ ctx₂ ctx₃) (h₀ : Starts lim source options ctx₀)
  (hsource : ctx₀.source.WellFormed)

include h h₀ hsource

omit hsource in
/-- The inputs of the fused graph are those of the source. -/
theorem Run.inputs_eq :
    List.Forall₂ (fun t f => ctx₃.inputOf? t = some f) ctx₀.source.inputs ctx₃.fused.inputs := by
  have hcopies := h.cloned.mirrors.inputs
  have hfused := (h.presents h₀).inputs
  grind [forall₂_comp, inputOf?, cloned_eq, cloneOf_eq]

omit h₀ in
/-- The copies of outputs are the outputs of the working copy. -/
theorem Run.clone_mem_outputs (ht : ctx₃.cloneOf.get? t = some c) :
    c ∈ ctx₃.cloned.outputs ↔ t ∈ ctx₀.source.outputs := by
  rw [h.cloneOf_eq] at ht
  obtain ⟨x, y, hx, hy, -, hrole⟩ := h.cloned.mirrors.copy ht
  rw [h.cloned.source_eq] at hx
  rw [h.cloned_eq, h.cloned.copying.wellFormed.mem_outputs, hsource.mem_outputs]
  simp [hx, hy, hrole]

omit h₀ hsource in
/-- The outputs of the working copy, in the order in which they are emitted. -/
theorem Run.mem_written : c ∈ ctx₃.visited.reverse.filterMap ctx₃.cloned.writtenOutput? ↔
    c ∈ ctx₃.cloned.outputs := by
  have hs := h.emitted.emitting.settled
  have hwf : ctx₃.cloned.WellFormed := hs.wellFormed
  rw [mem_filterMap]
  constructor
  · rintro ⟨o, -, ho⟩
    obtain ⟨op, -, ho⟩ := bind_eq_some_iff.1 ho
    grind
  · intro hc
    obtain ⟨z, hz, hrole⟩ := hwf.mem_outputs.1 hc
    have hseq : ctx₃.cloned.Sequential := hs.sound.base.sequential
    obtain ⟨o, ho⟩ := hseq.written hz (by rw [hrole]; rfl)
    obtain ⟨op, hop, rfl⟩ := (hwf.producer_iff hz).1 ho
    refine ⟨o, mem_reverse.2 (h.emitted.mem_visited (h.emitted.cloned ▸ hop)), ?_⟩
    rw [writtenOutput?_eq hop, if_pos hc]

/-- The outputs of the fused graph are the batched forms of the outputs of the source. -/
theorem Run.mem_outputs : f ∈ ctx₃.fused.outputs ↔
    ∃ t ∈ ctx₀.source.outputs, ctx₃.outputOf? t = some f := by
  have houtputs := (h.presents h₀).outputs
  constructor
  · intro hf
    obtain ⟨c, hc, hbatched⟩ := forall₂_right_mem houtputs hf
    rw [h.mem_written] at hc
    obtain ⟨z, hz, -⟩ := h.emitted.emitting.settled.wellFormed.mem_outputs.1 hc
    obtain ⟨t, ht⟩ := h.cloned.copying.covered (h.cloned_eq ▸ hz)
    rw [← h.cloneOf_eq] at ht
    have hout := (h.clone_mem_outputs hsource ht).1 hc
    grind [outputOf?_eq_some, BatchedAs.unique]
  · rintro ⟨t, hout, hf⟩
    obtain ⟨c, ht⟩ := ne_none_iff_exists'.1 fun hnone => by
      rw [(h.outputOf?_eq_none_iff hsource hout).2 hnone] at hf
      cases hf
    obtain ⟨f', hf', hbatched⟩ := h.outputOf?_eq_some hsource hout ht
    have hc := (h.mem_written).2 ((h.clone_mem_outputs hsource ht).2 hout)
    obtain ⟨f'', hmem, hbatched'⟩ := forall₂_left_mem houtputs hc
    grind [BatchedAs.unique]

/-- Different outputs have different batched forms. -/
theorem Run.output_injective (ht : t ∈ ctx₀.source.outputs) (ht' : t' ∈ ctx₀.source.outputs)
    (hf : ctx₃.outputOf? t = some f) (hf' : ctx₃.outputOf? t' = some f) : t = t' := by
  have hform : ∀ {u}, u ∈ ctx₀.source.outputs → ctx₃.outputOf? u = some f →
      ∃ c, ctx₃.cloneOf.get? u = some c ∧ c ∈ ctx₃.cloned.outputs ∧ ctx₃.BatchedAs c f := by
    intro u hu huf
    obtain ⟨c, hc⟩ := ne_none_iff_exists'.1 fun hnone => by
      rw [(h.outputOf?_eq_none_iff hsource hu).2 hnone] at huf
      cases huf
    obtain ⟨f', hf', hbatched⟩ := h.outputOf?_eq_some hsource hu hc
    rw [huf, some_inj] at hf'
    exact ⟨c, hc, (h.clone_mem_outputs hsource hc).2 hu, hf' ▸ hbatched⟩
  obtain ⟨c, hc, hmem, hbatched⟩ := hform ht hf
  obtain ⟨c', hc', hmem', hbatched'⟩ := hform ht' hf'
  have hsame : c = c' := forall₂_injective (h.presents h₀).outputs (fun h h' => h.unique h')
    h.emitted.emitting.runnable.wellFormed.outputs_nodup (h.mem_written.2 hmem)
    (h.mem_written.2 hmem')
    hbatched hbatched'
  subst hsame
  rw [h.cloneOf_eq] at hc hc'
  exact h.cloned.copying.injective hc hc'

omit hsource in
/-- Different inputs have different fused tensors. -/
theorem Run.input_injective (ht : t ∈ ctx₀.source.inputs) (ht' : t' ∈ ctx₀.source.inputs)
    (hf : ctx₃.inputOf? t = some f) (hf' : ctx₃.inputOf? t' = some f) : t = t' :=
  forall₂_injective (h.inputs_eq h₀) (fun h h' => Option.some.inj (h.symm.trans h'))
    h.emitted.emitting.runnable.wellFormed.inputs_nodup ht ht' hf hf'

omit h₀ hsource in
theorem Run.mem_labels {p : TensorId × Option String} :
    p ∈ ctx₃.labels ctx₀.source.outputs ↔ ∃ t ∈ ctx₀.source.outputs,
      ctx₃.outputOf? t = some p.1 ∧ p.2 = ctx₀.source.nameOf t := by
  grind [labels, map_eq_some_iff, source_eq]

variable (hend : Collected ctx₃ ctx r)

include hend

/-- **Names of outputs.** -/
theorem Run.output_name {n : String} (ht : t ∈ ctx₀.source.outputs) (hf : ctx₃.outputOf? t = some f)
    (hname : ctx₀.source.nameOf t = some n) : ctx.fused.nameOf f = some n := by
  have hout := (h.mem_outputs h₀ hsource).2 ⟨t, ht, hf⟩
  obtain ⟨x, hx, -⟩ := h.emitted.emitting.runnable.wellFormed.mem_outputs.1 hout
  rw [hend.labelled, h.source_eq]
  refine labelled_nameOf hx (fun p hp hpf => ?_)
    ⟨(f, some n), h.mem_labels.2 ⟨t, ht, hf, hname.symm⟩, rfl⟩
  grind [mem_labels, output_injective]

/-- **Names of inputs.** -/
theorem Run.input_name (ht : t ∈ ctx₀.source.inputs)
    (hf : ctx₃.inputOf? t = some f) : ctx.fused.nameOf f = ctx₀.source.nameOf t := by
  have hwf := h.emitted.emitting.runnable.wellFormed
  obtain ⟨c, f', hc, hf', hin⟩ := h.inputOf?_eq_some ht
  -- An input of the fused graph is no output of it, so no label is for it.
  have hother : ∀ p ∈ ctx₃.labels ctx₃.source.outputs, p.1 ≠ f := by
    rw [h.source_eq]
    rintro p hp rfl
    obtain ⟨u, hu, hout, -⟩ := h.mem_labels.1 hp
    obtain ⟨x, hx, hrole⟩ := hwf.mem_outputs.1 ((h.mem_outputs h₀ hsource).2 ⟨u, hu, hout⟩)
    obtain ⟨f, hmem, hf''⟩ := forall₂_left_mem (h.inputs_eq h₀) ht
    grind [WellFormed.mem_inputs]
  obtain ⟨z, hz, hrole⟩ := h.clone_input hsource ht hc
  have hclone : c ∈ ctx₃.cloned.sources :=
    h.emitted.emitting.settled.wellFormed.source_of_role hz hrole
  obtain ⟨z', y, hz', hy, hname⟩ := (h.presents h₀).name hclone hf'
  cases hz.symm.trans hz'
  rw [h.cloneOf_eq] at hc
  obtain ⟨x, z', hx, hz', hname', -⟩ := h.cloned.mirrors.copy hc
  rw [h.cloned_eq, hz', some_inj] at hz
  rw [h.cloned.source_eq] at hx
  grind [nameOf, labelled_of_not_mem, Collected.labelled]

/-- The fused tensor of an input or output of the source is of one of these kinds. -/
theorem Run.io_cases (hf : r.io.get? t = some f) :
    t ∈ ctx₀.source.inputs ∧ ctx₃.inputOf? t = some f ∧ f ∈ ctx₃.fused.inputs ∨
      t ∈ ctx₀.source.outputs ∧ ctx₃.outputOf? t = some f ∧ f ∈ ctx₃.fused.outputs := by
  by_cases hin : t ∈ ctx₀.source.inputs
  · rw [hend.input (h.source_eq ▸ hin)] at hf
    obtain ⟨f', hmem, hf'⟩ := forall₂_left_mem (h.inputs_eq h₀) hin
    rw [hf, some_inj] at hf'
    exact .inl ⟨hin, hf, hf' ▸ hmem⟩
  · by_cases hout : t ∈ ctx₀.source.outputs
    · grind [Collected.output, source_eq, mem_outputs]
    · rw [hend.inner] at hf
      · cases hf
      · rw [h.source_eq, mem_append, not_or]
        exact ⟨hin, hout⟩

/-- **No two inputs or outputs share a fused tensor.** -/
theorem Run.io_injective (hf : r.io.get? t = some f) (hf' : r.io.get? t' = some f) : t = t' := by
  have hwf := h.emitted.emitting.runnable.wellFormed
  have hroles : f ∈ ctx₃.fused.inputs → f ∉ ctx₃.fused.outputs := fun hin hout => by
    grind [WellFormed.mem_inputs, WellFormed.mem_outputs]
  rcases h.io_cases h₀ hsource hend hf with ⟨ht, hf, hin⟩ | ⟨ht, hf, hout⟩
  · rcases h.io_cases h₀ hsource hend hf' with ⟨ht', hf', -⟩ | ⟨-, -, hout⟩
    · exact h.input_injective h₀ ht ht' hf hf'
    · exact absurd hout (hroles hin)
  · rcases h.io_cases h₀ hsource hend hf' with ⟨-, -, hin⟩ | ⟨ht', hf', -⟩
    · exact absurd hout (hroles hin)
    · exact h.output_injective h₀ hsource ht ht' hf hf'

omit h₀ hsource in
theorem Run.not_mem_missing (ht : t ∈ ctx₀.source.outputs) :
    t ∉ r.missing ↔ r.io.get? t ≠ none := by
  rw [← h.source_eq] at ht
  rw [hend.missing, hend.output ht, mem_filter, and_iff_right ht]
  simp

end Results

end Context

open Context

/-- **The interface of the fused graph** is that of the source. Its inputs are the inputs of the
source, in order. Its outputs are the outputs of the source that are not missing, each in batched
form and with the shape that the working copy gives it; what is on the canvas is never one. Inputs
and outputs keep their names, and no two of them share a fused tensor. -/
theorem fuse_interface {lim lim' : Limit} {calls : List Graph.Call} {options : Options} {r : Fused}
    (h : fuse lim options (Graph.build lim' calls) = .ok r) :
    let source := Graph.build lim' calls
    ∃ ctx₀ ctx, Context.initial lim source options = .ok ctx₀ ∧ Pass.fuse.run ctx₀ = (.ok r, ctx) ∧
      source.inputs.mapM r.io.get? = some r.graph.inputs ∧
      (∀ t, r.io.get? t ≠ none ↔ t ∈ source.inputs ∨ t ∈ source.outputs ∧ t ∉ r.missing) ∧
      (∀ t t' f, r.io.get? t = some f → r.io.get? t' = some f → t = t') ∧
      r.graph.outputs.Nodup ∧
      (∀ f, f ∈ r.graph.outputs ↔ ∃ t ∈ source.outputs, t ∉ r.missing ∧ r.io.get? t = some f) ∧
      (∀ t info f, r.info.get? t = some info → info.placement = .canvas → info.fused = some f →
        f ∉ r.graph.outputs) ∧
      (∀ t ∈ source.outputs, ∀ f, r.io.get? t = some f → ∃ c info, ctx.cloneOf.get? t = some c ∧
        r.graph.shapeOf f = ctx.cloned.shapeOf c ∧ r.info.get? t = some info ∧
        (info.placement = .batched ∧ info.fused = some f ∨
          info.placement = .canvas ∧ info.defused = some f)) ∧
      ∀ t ∈ source.inputs ++ source.outputs, ∀ f n, r.io.get? t = some f →
        source.nameOf t = some n → r.graph.nameOf f = some n := by
  intro source
  have hsource : source.WellFormed := Graph.wellFormed_build lim' calls
  obtain ⟨ctx₀, ctx₁, ctx₂, ctx₃, ctx, hinit, hrun, h₀, hphases, hend⟩ := exists_run hsource h
  rw [← h₀.source_eq] at hsource ⊢
  have hrelabels : ctx₃.fused.Relabels r.graph := hend.graph ▸ hend.relabels
  have hemitting := hphases.emitted.emitting
  have hwf := hemitting.runnable.wellFormed
  refine ⟨ctx₀, ctx, h₀.source_eq ▸ hinit, hrun, ?_, fun t => ?_,
    fun t t' f => hphases.io_injective h₀ hsource hend, ?_, fun f => ?_,
    fun t info f hinfo hcanvas hf hout => ?_, fun t ht f hf => ?_, fun t ht f n hf hname => ?_⟩
  · have hin := List.forall₂_iff_zip.1 (hphases.inputs_eq h₀)
    rw [mapM_get?_eq_some, hrelabels.inputs_eq]
    refine List.forall₂_iff_zip.2 ⟨hin.1, fun hp => ?_⟩
    exact (hend.input (hphases.source_eq ▸ (List.of_mem_zip hp).1)).trans (hin.2 hp)
  · constructor
    · intro hne
      obtain ⟨f, hf⟩ := Option.ne_none_iff_exists'.1 hne
      rcases hphases.io_cases h₀ hsource hend hf with ⟨ht, -⟩ | ⟨ht, -⟩
      · exact .inl ht
      · exact .inr ⟨ht, (hphases.not_mem_missing hend ht).2 hne⟩
    · rintro (ht | ⟨ht, hmissing⟩)
      · obtain ⟨c, f, -, -, hf⟩ := hphases.inputOf?_eq_some ht
        rw [hend.input (hphases.source_eq ▸ ht), hf]
        exact Option.some_ne_none f
      · exact (hphases.not_mem_missing hend ht).1 hmissing
  · rw [hrelabels.outputs_eq]
    exact hwf.outputs_nodup
  · rw [hrelabels.outputs_eq, hphases.mem_outputs h₀ hsource]
    refine exists_congr fun t => and_congr_right fun ht => ?_
    rw [hphases.not_mem_missing hend ht, hend.output (hphases.source_eq ▸ ht)]
    exact ⟨fun hf => ⟨hf ▸ Option.some_ne_none f, hf⟩, And.right⟩
  · rw [hend.info, Option.map_eq_some_iff] at hinfo
    obtain ⟨c, -, rfl⟩ := hinfo
    have hon : ctx₃.isCanvas c = true := by
      by_contra hon
      simp [fusionOf, hon] at hcanvas
    obtain ⟨y, hy, hrole⟩ := (hphases.presents h₀).canvas hon hf
    rw [hrelabels.outputs_eq] at hout
    obtain ⟨y', hy', hrole'⟩ := hwf.mem_outputs.1 hout
    cases hy.symm.trans hy'
    cases hrole.symm.trans hrole'
  · obtain ⟨c, hc, hbatched⟩ := hphases.io_batched hend hsource (List.mem_append_right _ ht) hf
    have hcloneOf : ctx.cloneOf = ctx₃.cloneOf := by rw [hend.state]
    have hcloned : ctx.cloned = ctx₃.cloned := by rw [hend.state]
    refine ⟨c, ctx₃.fusionOf c, hcloneOf ▸ hc, ?_, by rw [hend.info, hc]; rfl, ?_⟩
    · rw [hcloned]
      exact ((hemitting.has_of_batchedAs hbatched).grow hrelabels.grows).shapeOf_eq
    · unfold BatchedAs at hbatched
      by_cases hon : ctx₃.isCanvas c = true
      · rw [if_pos hon] at hbatched
        exact .inr ⟨if_pos hon, hbatched⟩
      · rw [if_neg hon] at hbatched
        exact .inl ⟨if_neg hon, hbatched⟩
  · rw [hend.graph]
    rcases hphases.io_cases h₀ hsource hend hf with ⟨ht, hf, -⟩ | ⟨ht, hf, -⟩
    · exact (hphases.input_name h₀ hsource hend ht hf).trans hname
    · exact hphases.output_name h₀ hsource hend ht hf hname

/-- Two samples that leave by three outputs: the first on the canvas, the second on batched data,
and the third through a slice, so that it is missing. -/
def threeOutputs : List Graph.Call :=
  [.createTensor ⟨.f32, [2, 1, 1, 4], .input, none⟩, .setName ⟨0⟩ "image",
    .emit (.pool2d ⟨.max, ⟨1, 2⟩, ⟨1, 1⟩, .both ⟨0, 0⟩, .nchw⟩) [⟨0⟩] .output,
    .setName ⟨1⟩ "pooled",
    .emit (.activation .relu) [⟨0⟩] .output,
    .emit (.slice [0, 0, 0, 0] [2, 1, 1, 2]) [⟨1⟩] .output]

theorem fuse_interface_threeOutputs : ∃ r,
    fuse .word64 .standard (Graph.build .word64 threeOutputs) = .ok r ∧
    r.missing = [⟨3⟩] ∧ [⟨0⟩].mapM r.io.get? = some r.graph.inputs ∧
    (∀ f, f ∈ r.graph.outputs ↔ r.io.get? ⟨1⟩ = some f ∨ r.io.get? ⟨2⟩ = some f) ∧
    ∀ f, r.io.get? ⟨1⟩ = some f → r.graph.nameOf f = some "pooled" := by
  obtain ⟨r, hr⟩ := exists_fused .word64 .standard (Graph.build .word64 threeOutputs)
    (by decide +kernel)
  obtain ⟨_, _, -, -, hinputs, hkeys, -, -, houtputs, -, -, hnames⟩ := fuse_interface hr
  have hmissing : r.missing = [⟨3⟩] := by
    have h :
      ((fuse .word64 .standard (Graph.build .word64 threeOutputs)).toOption.map Fused.missing) =
      some [⟨3⟩] := by decide +kernel
    simpa [hr, Except.toOption] using h
  have houts : (Graph.build .word64 threeOutputs).outputs = [⟨1⟩, ⟨2⟩, ⟨3⟩] := by decide +kernel
  have hins : (Graph.build .word64 threeOutputs).inputs = [⟨0⟩] := by decide +kernel
  rw [hins] at hinputs
  refine ⟨r, hr, hmissing, hinputs, fun f => ?_, fun f hf => ?_⟩
  · rw [houtputs, houts, hmissing]
    simp
  · exact hnames ⟨1⟩ (by rw [houts]; simp) f "pooled" hf (by decide +kernel)

end CanvasFusion
