import CanvasFusion.Proofs.Fusion.Interface

/-!
# The order of outputs

Operations are emitted breadth first. The walk starts with the readers of the sources and takes the
first operation in line whose inputs are all there; the readers of its output then join the end of
the line. An output of the fused graph comes into being when the operation that writes it is
emitted, so the outputs are in the order of this walk (`Graph.outputOrder`), which need not be their
order in the source.

Where a longer chain of operations leads to the first output than to the second, the two change
places (`fuse_reverses_outputs`).
-/

namespace CanvasFusion

open List

/-! ## Breadth-first walks -/

namespace Graph

variable {g : Graph} {seen : List OpId} {o : OpId} {op : Operation} {t : TensorId}

/-- A tensor is there once some operations have been taken: it is a source, or one of them writes
it. -/
def reaches (g : Graph) (seen : List OpId) (t : TensorId) : Bool :=
  g.sources.contains t || seen.any fun o => (g.ops.get? o).any fun op => op.output = t

/-- The output of an operation that is next: it has not been taken, and its inputs are there. -/
def next? (g : Graph) (seen : List OpId) (o : OpId) : Option TensorId :=
  (g.ops.get? o).bind fun op =>
    if !seen.contains o && op.inputs.all (g.reaches seen) then some op.output else none

/-- The operations that a walk has taken in the end, the last one first. -/
def walked (g : Graph) : Nat → List OpId → List OpId → List OpId
  | _, [], seen => seen
  | 0, _ :: _, seen => seen
  | steps + 1, o :: queue, seen =>
    match g.next? seen o with
    | none => g.walked steps queue seen
    | some t => g.walked steps (queue ++ g.consumers t) (o :: seen)

/-- The operations of a graph in breadth-first order. -/
def breadthFirst (g : Graph) : List OpId :=
  (g.walked g.readings (g.sources.flatMap g.consumers) []).reverse

/-- The outputs of a graph, in the order in which a breadth-first walk writes them. -/
def outputOrder (g : Graph) : List TensorId := g.breadthFirst.filterMap g.writtenOutput?

theorem reaches_iff : g.reaches seen t = true ↔
    t ∈ g.sources ∨ ∃ o ∈ seen, ∃ op, g.ops.get? o = some op ∧ op.output = t := by
  simp [reaches, Option.any_eq_true]

theorem next?_eq (hop : g.ops.get? o = some op) : g.next? seen o =
    if o ∉ seen ∧ ∀ x ∈ op.inputs, g.reaches seen x = true then some op.output else none := by
  simp [next?, hop]

end Graph

/-- A walk takes operations in breadth-first order if each of its steps takes what is next. -/
theorem After.walked {g : Graph} {step : OpId → Pass (Option TensorId)} {I : Context → Prop}
    (hstep : ∀ o op ctx, g.ops.get? o = some op → I ctx → After (step o) ctx (fun r ctx' =>
      I ctx' ∧ r = g.next? ctx.visited o ∧
        ctx'.visited = if r.isSome then o :: ctx.visited else ctx.visited) fun _ _ => True)
    (hg : g.WellFormed) (steps : Nat) : ∀ queue ctx, (∀ o ∈ queue, ∃ op, g.ops.get? o = some op) →
      I ctx → After (Pass.walk g step steps queue) ctx (fun _ ctx' =>
        ctx'.visited = g.walked steps queue ctx.visited) fun _ _ => True := by
  induction steps with
  | zero =>
    intro queue ctx _ _
    cases queue with
    | nil => exact .pure rfl
    | cons o queue => exact .throw trivial
  | succ steps ih =>
    intro queue ctx hqueue h
    cases queue with
    | nil => exact .pure rfl
    | cons o queue =>
      obtain ⟨op, hop⟩ := hqueue o mem_cons_self
      have hrest : ∀ o' ∈ queue, ∃ op', g.ops.get? o' = some op' := fun o' ho' =>
        hqueue o' (mem_cons_of_mem o ho')
      unfold Pass.walk
      refine .then_ (hstep o op ctx hop h) ?_
      rintro r ctx' ⟨h', hr, hvisited⟩
      rw [Graph.walked, ← hr]
      cases r with
      | none => grind
      | some t =>
        have hvisited' : ctx'.visited = o :: ctx.visited := hvisited
        rw [← hvisited']
        refine ih _ ctx' (fun o' ho' => ?_) h'
        rcases mem_append.1 ho' with ho' | ho'
        · exact hrest o' ho'
        · grind [Graph.WellFormed.consumers_known]

namespace Context

variable {P : Prop} {lim : Limit} {source : Graph} {options : Options}
  {ctx₀ ctx₁ ctx₂ ctx₃ ctx : Context} {t : TensorId}

/-! ## Emission -/

/-- What has been emitted is what the operations taken so far reach. -/
theorem Rewriting.isEmitted_eq (h : Rewriting P ctx₀ ctx)
    (hsources : ∀ t ∈ ctx₀.cloned.sources, ctx.fusedOf.get? t ≠ none) :
    ctx.isEmitted t = ctx₀.cloned.reaches ctx.visited t := by
  have hwf : ctx₀.cloned.WellFormed := h.cloned ▸ h.emitting.settled.wellFormed
  have htaken : ∀ {o op}, ctx.cloned.ops.get? o = some op → ctx.fusedOf.get? op.output ≠ none →
      ∃ o ∈ ctx.visited, ∃ op', ctx₀.cloned.ops.get? o = some op' ∧ op'.output = op.output := by
    grind [unvisited, cloned]
  rw [Bool.eq_iff_iff, isEmitted_iff, Graph.reaches_iff]
  constructor
  · intro hne
    obtain ⟨f, hf⟩ := Option.ne_none_iff_exists'.1 hne
    cases (h.emitting.fusedOf hf).2 with
    | source hx hrole => exact .inl (hwf.mem_sources.2 ⟨_, h.cloned ▸ hx, hrole⟩)
    | batched hop hout => exact .inr (hout ▸ htaken hop (hout ▸ hne))
    | canvas hfuses hout => exact .inr (hout ▸ htaken hfuses.known (hout ▸ hne))
  · grind [visited]

/-- **Operations are emitted in breadth-first order.** -/
theorem Run.visited_eq (h : Run P ctx₀ ctx₁ ctx₂ ctx₃) (h₀ : Starts lim source options ctx₀) :
    ctx₃.visited.reverse = ctx₃.cloned.breadthFirst := by
  have hwf : ctx₂.cloned.WellFormed := h.settled.wellFormed
  let I : Context → Prop := fun ctx =>
    Rewriting False ctx₂ ctx ∧ ∀ t ∈ ctx₂.cloned.sources, ctx.fusedOf.get? t ≠ none
  have hwalk : After Pass.emitAll ctx₂ (fun _ ctx' => ctx'.visited = ctx₂.cloned.walked
      ctx₂.cloned.readings (ctx₂.cloned.sources.flatMap ctx₂.cloned.consumers) [])
      fun _ _ => True := by
    unfold Pass.emitAll
    refine .bind (.modify ?_)
    refine .bind (.get ?_)
    refine .then_ ((after_emitSources (P := False) (F := True) (J := fun _ _ => True) h.settled
      h.stocked (h.blank h₀) False.elim trivial fun _ _ _ _ _ _ => .of_forall (fun _ _ _ => trivial)
      fun _ _ => trivial).imp (fun _ _ h => h) fun _ _ _ => trivial)
      fun _ ctx₄ ⟨hrewriting, hvisited, hdone, _⟩ => ?_
    have hI : I ctx₄ := ⟨hrewriting, fun t ht => (hdone t).2 ht⟩
    rw [← hvisited]
    refine After.walked (I := I) (fun o op ctx hop hI => ?_) hwf _ _ _ (fun o ho => ?_) hI
    · refine ((after_emitReady (F := True) (K := fun _ => True)
        (fun _ _ _ _ _ => .of_forall (fun _ _ _ => trivial) fun _ _ => trivial) hI.1
        trivial hop).imp
        (fun r ctx' hstep => ?_) fun _ _ _ => trivial)
      obtain ⟨⟨⟨hrewriting', -⟩, hadv, -⟩, htakes⟩ := hstep
      refine ⟨⟨hrewriting', fun t ht => Advances.emitted hadv (hI.2 t ht)⟩, ?_⟩
      rw [Graph.next?_eq hop]
      cases htakes with
      | taken hready hvisited =>
        simp only [Ready, hI.1.isEmitted_eq hI.2] at hready
        exact ⟨(if_pos hready).symm, hvisited⟩
      | left hnot =>
        simp only [Ready, hI.1.isEmitted_eq hI.2] at hnot
        exact ⟨(if_neg hnot).symm, rfl⟩
    · grind [Graph.WellFormed.consumers_known]
  rw [hwalk.of_run h.emits, h.emitted.cloned]
  rfl

/-- The outputs of the source that have a copy, in the order in which the copies are written. -/
theorem Run.exists_order (h : Run P ctx₀ ctx₁ ctx₂ ctx₃) (h₀ : Starts lim source options ctx₀)
    (hsource : ctx₀.source.WellFormed) : ∃ order : List TensorId, List.Forall₂ (fun t c =>
      t ∈ ctx₀.source.outputs ∧ ctx₃.cloneOf.get? t = some c) order ctx₃.cloned.outputOrder := by
  have hcopy : ∀ c ∈ ctx₃.cloned.outputOrder,
      ∃ t, t ∈ ctx₀.source.outputs ∧ ctx₃.cloneOf.get? t = some c := by
    intro c hc
    rw [Graph.outputOrder, ← h.visited_eq h₀, h.mem_written] at hc
    obtain ⟨z, hz, -⟩ := h.emitted.emitting.settled.wellFormed.mem_outputs.1 hc
    obtain ⟨t, ht⟩ := h.cloned.copying.covered (h.cloned_eq ▸ hz)
    grind [clone_mem_outputs, cloneOf_eq]
  choose! original horiginal using hcopy
  exact ⟨_, forall₂_map_left_iff.2 (forall₂_same.2 horiginal)⟩

end Context

open Context

/-- **Outputs come in breadth-first order.** The outputs of the fused graph are the outputs of the
source that are not missing, in the order in which a breadth-first walk over the working copy writes
them. -/
theorem fuse_output_order {lim lim' : Limit} {calls : List Graph.Call}
    {options : Options} {r : Fused} (h : fuse lim options (Graph.build lim' calls) = .ok r) :
    let source := Graph.build lim' calls
    ∃ (ctx₀ ctx : Context) (order : List TensorId), Context.initial lim source options = .ok ctx₀ ∧
      Pass.fuse.run ctx₀ = (.ok r, ctx) ∧
      order.Perm (source.outputs.filter fun t => t ∉ r.missing) ∧
      order.mapM ctx.cloneOf.get? = some ctx.cloned.outputOrder ∧
      order.mapM r.io.get? = some r.graph.outputs := by
  intro source
  have hsource : source.WellFormed := Graph.wellFormed_build lim' calls
  obtain ⟨ctx₀, ctx₁, ctx₂, ctx₃, ctx, hinit, hrun, h₀, hphases, hend⟩ := exists_run hsource h
  rw [← h₀.source_eq] at hsource ⊢
  have hrelabels : ctx₃.fused.Relabels r.graph := hend.graph ▸ hend.relabels
  obtain ⟨order, horder⟩ := hphases.exists_order h₀ hsource
  have hwritten : ctx₃.visited.reverse.filterMap ctx₃.cloned.writtenOutput? =
      ctx₃.cloned.outputOrder := by rw [hphases.visited_eq h₀]; rfl
  have houtputs := (hphases.presents h₀).outputs
  rw [hwritten] at houtputs
  have hio : List.Forall₂ (fun t f => r.io.get? t = some f) order r.graph.outputs := by
    rw [hrelabels.outputs_eq]
    refine forall₂_comp horder houtputs fun {t c f} ⟨ht, hc⟩ hf => ?_
    obtain ⟨f', hf', hbatched⟩ := hphases.outputOf?_eq_some hsource ht hc
    rw [hend.output (hphases.source_eq ▸ ht), hf', hbatched.unique hf]
  refine ⟨ctx₀, ctx, order, h₀.source_eq ▸ hinit, hrun, ?_, ?_, mapM_get?_eq_some.2 hio⟩
  · have hnodup : r.graph.outputs.Nodup := by
      rw [hrelabels.outputs_eq]
      exact hphases.emitted.emitting.runnable.wellFormed.outputs_nodup
    refine (List.perm_ext_iff_of_nodup (nodup_of_forall₂ hio
      (fun h h' => Option.some.inj (h.symm.trans h')) hnodup) (hsource.outputs_nodup.filter _)).2
      fun t => ?_
    rw [List.mem_filter, decide_eq_true_eq]
    constructor
    · intro ht
      obtain ⟨c, -, hout, -⟩ := forall₂_left_mem horder ht
      obtain ⟨f, -, hf⟩ := forall₂_left_mem hio ht
      exact ⟨hout, (hphases.not_mem_missing hend hout).2 (hf ▸ Option.some_ne_none f)⟩
    · rintro ⟨hout, hmissing⟩
      have hne := (hphases.not_mem_missing hend hout).1 hmissing
      obtain ⟨c, hc⟩ := Option.ne_none_iff_exists'.1 fun hnone => by
        rw [hend.output (hphases.source_eq ▸ hout)] at hne
        exact hne ((hphases.outputOf?_eq_none_iff hsource hout).2 hnone)
      have hmem : c ∈ ctx₃.cloned.outputOrder := by
        rw [← hwritten, hphases.mem_written, hphases.clone_mem_outputs hsource hc]
        exact hout
      obtain ⟨t', ht', -, hc'⟩ := forall₂_right_mem horder hmem
      rw [hphases.cloneOf_eq] at hc hc'
      exact hphases.cloned.copying.injective hc hc' ▸ ht'
  · rw [mapM_get?_eq_some, hend.state]
    exact horder.imp fun _ _ h => h.2

/-- Two outputs, the first at the end of a longer chain. -/
def unevenChains : List Graph.Call :=
  [.createTensor ⟨.f32, [1], .input, none⟩, .createTensor ⟨.f32, [1], .transient, none⟩,
    .createTensor ⟨.f32, [1], .output, none⟩, .createTensor ⟨.f32, [1], .output, none⟩,
    .addOp (.activation .relu) [⟨0⟩] [⟨1⟩], .addOp (.activation .relu) [⟨1⟩] [⟨2⟩],
    .addOp (.activation .relu) [⟨0⟩] [⟨3⟩]]

theorem fuse_output_order_unevenChains : ∃ (r : Fused) (order : List TensorId),
    fuse .word64 .standard (Graph.build .word64 unevenChains) = .ok r ∧
      order.Perm ((Graph.build .word64 unevenChains).outputs.filter fun t => t ∉ r.missing) ∧
      order.mapM r.io.get? = some r.graph.outputs := by
  obtain ⟨r, hr⟩ := exists_fused .word64 .standard (Graph.build .word64 unevenChains)
    (by decide +kernel)
  obtain ⟨_, _, order, -, -, hperm, -, hio⟩ := fuse_output_order hr
  exact ⟨r, order, hr, hperm, hio⟩

/-- **Outputs change places.** No output is missing, and the fused graph lists them the other way
round. -/
theorem fuse_reverses_outputs : ∃ r f f',
    fuse .word64 .standard (Graph.build .word64 unevenChains) = .ok r ∧
      (Graph.build .word64 unevenChains).outputs = [⟨2⟩, ⟨3⟩] ∧ r.missing = [] ∧
      r.io.get? ⟨2⟩ = some f ∧ r.io.get? ⟨3⟩ = some f' ∧ f ≠ f' ∧ r.graph.outputs = [f', f] := by
  obtain ⟨r, hr⟩ := exists_fused .word64 .standard (Graph.build .word64 unevenChains)
    (by decide +kernel)
  have h : (fuse .word64 .standard (Graph.build .word64 unevenChains)).toOption.map (fun r =>
      (r.missing, r.io.get? ⟨2⟩, r.io.get? ⟨3⟩, r.graph.outputs)) =
      some ([], some ⟨3⟩, some ⟨2⟩, [⟨2⟩, ⟨3⟩]) := by decide +kernel
  simp only [hr, Except.toOption, Option.map_some, Option.some_inj, Prod.mk.injEq] at h
  obtain ⟨hmissing, hf, hf', houtputs⟩ := h
  exact ⟨r, ⟨3⟩, ⟨2⟩, hr, by decide +kernel, hmissing, hf, hf', by decide, houtputs⟩

end CanvasFusion
