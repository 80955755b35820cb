import CanvasFusion.Proofs.Fusion.Run

/-!
# What emission makes

**Theorem (Run.accounted).** At the end of a run a tensor has a tiled form if and only if some
operation needs one, and so for de-fused and for masked forms. The counters count these forms, each
once, and the operations by their plans.

What an operation needs is known when it is emitted, and does not change later: the gaps of its
inputs have their contents by then.
-/

namespace CanvasFusion.Context

variable {ctx ctx' ctx₀ ctx₁ ctx₂ ctx₃ : Context} {t x : TensorId} {o : OpId} {op : Operation}
  {P : Prop}

/-! ## The books -/

/-- The adapters that are there are those that the operations emitted so far need, and everything is
counted. -/
structure Accounted (ctx : Context) : Prop where
  tallied : ctx.Tallied
  tiled : ∀ t, ctx.tiled.get? t ≠ none ↔ ∃ o ∈ ctx.visited, (ctx.demand o).tiled t
  defused : ∀ t, ctx.defused.get? t ≠ none ↔ ∃ o ∈ ctx.visited, (ctx.demand o).defused t
  masked : ∀ t, ctx.masked.get? t ≠ none ↔ ∃ o ∈ ctx.visited, (ctx.demand o).masked t
  ready : ∀ o ∈ ctx.visited, ∃ op, ctx.cloned.ops.get? o = some op ∧
    ∀ x ∈ op.inputs, ctx.fusedOf.get? x ≠ none
  fusedOps : ctx.counters.fusedOps = ctx.visited.countP ctx.isFused
  batchedOps : ctx.counters.batchedOps = ctx.visited.countP fun o => !ctx.isFused o

/-- The inputs of operations that have been emitted keep their needs. -/
theorem Accounted.demand_eq (h : Accounted ctx) (hemitting : Emitting P ctx)
    (hgrown : Grown ctx ctx') (ho : o ∈ ctx.visited) : ctx'.demand o = ctx.demand o := by
  grind [ready, Grown.demand, Emitting.fills]

/-- One table of adapters, after one more operation. -/
theorem exists_visited_cons {visited : List OpId} {n n' : OpId → Needs} {p : Needs → Prop}
    (hold : ∀ o' ∈ visited, n' o' = n o') (hnew : n' o = n o) :
    (∃ o' ∈ o :: visited, p (n' o')) ↔ (∃ o' ∈ visited, p (n o')) ∨ p (n o) := by
  grind

theorem accounted_kept : KeptByOps P True ctx₀ Accounted := by
  intro o op ctx hrew h hop hseen hin
  refine .of_forall (fun _ ctx' hserved => ?_) fun _ _ => trivial
  have hgrown : Grown ctx ctx' := { hserved.grown with }
  have hvisited : ctx'.visited = o :: ctx.visited := hserved.visited
  have hold : ∀ o' ∈ ctx.visited, ctx'.demand o' = ctx.demand o' := fun o' ho' =>
    h.demand_eq hrew.emitting hgrown ho'
  have hnew : ctx'.demand o = ctx.demand o := hgrown.demand hop fun x hx hcanvas =>
    hrew.emitting.fills.2 ⟨hcanvas, hin x hx⟩
  have hfused : ctx'.isFused = ctx.isFused := congr_core Context.isFused hgrown.core fun _ => rfl
  obtain ⟨outs, hsupplies, -⟩ := hserved.supplies
  refine ⟨hsupplies.tallied { h.tallied with }, fun t => ?_,
    fun t => ?_, fun t => ?_, fun o' ho' => ?_, ?_, ?_⟩
  · rw [hvisited, exists_visited_cons (p := fun n => n.tiled t) hold hnew, ← h.tiled]
    exact hsupplies.tiled t
  · rw [hvisited, exists_visited_cons (p := fun n => n.defused t) hold hnew, ← h.defused]
    exact hsupplies.defused t
  · rw [hvisited, exists_visited_cons (p := fun n => n.masked t) hold hnew, ← h.masked]
    exact hsupplies.masked t
  · rw [hvisited, List.mem_cons] at ho'
    rw [hgrown.cloned]
    rcases ho' with rfl | ho'
    · exact ⟨op, hop, fun x hx => hserved.fusedOf.2 (.inl (hin x hx))⟩
    · obtain ⟨op', hop', hin'⟩ := h.ready o' ho'
      exact ⟨op', hop', fun x hx => hserved.fusedOf.2 (.inl (hin' x hx))⟩
  · rw [hserved.fusedOps_eq, hvisited, hfused, List.countP_cons, ← h.fusedOps]
    rfl
  · rw [hserved.batchedOps_eq, hvisited, hfused, List.countP_cons, ← h.batchedOps]
    show _ + (if ctx.isFused o then 0 else 1) = _
    cases ctx.isFused o <;> rfl

/-- No operation and no adapter has been made so far, and nothing has been counted. -/
structure Unadapted (ctx : Context) : Prop where
  ops : ctx.fused.ops.size = 0
  tiled : ctx.tiled = .empty
  defused : ctx.defused = .empty
  masked : ctx.masked = .empty
  counters : ctx.counters.fusedOps = 0 ∧ ctx.counters.batchedOps = 0 ∧ ctx.counters.masks = 0
  adapters : ctx.counters.tileAdapters = 0 ∧ ctx.counters.defuseAdapters = 0

theorem Unadapted.accounted (h : ctx.Unadapted) (hvisited : ctx.visited = []) : ctx.Accounted := by
  have hcounted : (Ledger.empty : Ledger TensorId TensorId).Counted 0 := ⟨List.nodup_nil, rfl⟩
  refine ⟨⟨?_, ?_, ?_, ?_⟩, fun t => ?_, fun t => ?_, fun t => ?_, fun o ho => ?_, ?_, ?_⟩
  · rw [h.tiled, h.adapters.1]
    exact hcounted
  · rw [h.defused, h.adapters.2]
    exact hcounted
  · rw [h.masked, h.counters.2.2]
    exact hcounted
  · rw [h.ops, countedOps, h.tiled, h.counters.1, h.counters.2.1, h.counters.2.2, h.adapters.2,
      Nat.zero_mul]
    rfl
  · simp [h.tiled, hvisited]
  · simp [h.defused, hvisited]
  · simp [h.masked, hvisited]
  · simp [hvisited] at ho
  · rw [h.counters.1, hvisited]
    rfl
  · rw [h.counters.2.1, hvisited]
    rfl

/-- **The books of a run** are in order at its end. -/
theorem Run.accounted {lim : Limit} {source : Graph} {options : Options}
    (h : Run P ctx₀ ctx₁ ctx₂ ctx₃) (h₀ : Starts lim source options ctx₀) : ctx₃.Accounted := by
  have hblank := h.blank h₀
  have hstart : ({ ctx₂ with visited := [] } : Context).Unadapted :=
    { hblank with ops := by rw [hblank.fused]; rfl }
  refine ((after_emitAll_keeping (P := False) h.settled h.stocked hblank False.elim
    (J := fun _ => Unadapted) (K := Accounted) hstart (fun _ _ hj _ _ _ => ?_)
    (fun _ hvisited _ hj => hj.accounted hvisited) accounted_kept).of_run h.emits).2
  refine .of_forall (fun _ ctx' ⟨y, hs⟩ => ?_) fun _ _ => trivial
  have hframe := hs.frame
  refine ⟨?_, ?_, ?_, ?_, ?_, ?_⟩
  · rw [hs.ops_eq]
    exact hj.ops
  · rw [hframe]
    exact hj.tiled
  · rw [hframe]
    exact hj.defused
  · rw [hframe]
    exact hj.masked
  · rw [hframe]
    exact hj.counters
  · rw [hframe]
    exact hj.adapters

end CanvasFusion.Context
