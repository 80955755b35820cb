import CanvasFusion.Proofs.Fusion.Demand

/-!
# Matching working copies

Nothing that the pass decides about a working copy depends on the numbers of its tensors and
operations. If two working copies match and their gaps are settled, on the same grid and with the
same axes, then corresponding tensors and operations go the same way (`Matched`).

* Plans follow along the order of the graph (`Matched.alike`, `Matched.decision_eq`). * Gaps are the
least solution of equations that correspond, so each is at or below the other (`Matched.gapOf_eq`),
and canvas shapes go with them (`Matched.canvasShapes_eq`). * What the gaps of a canvas hold follows
along the order of the graph again (`Matched.fills_eq`), and with it what each operation needs
(`Matched.demand`).

**Theorem (Matched.counters_eq).** Emission makes as many adapters of each kind, and emits as many
operations on the canvas and on batched data.
-/

namespace CanvasFusion.Context

variable {ctx ctx' : Context} {R : TensorId → TensorId → Prop} {S : OpId → OpId → Prop}
  {t t' x x' : TensorId} {o o' : OpId} {op op' : Operation} {plan : FusedPlan}

/-! ## Plans -/

/-- The gaps of working copies that match are settled, on one grid. -/
structure Matched (R : TensorId → TensorId → Prop) (S : OpId → OpId → Prop) (ctx ctx' : Context) :
    Prop where
  cloned : ctx.cloned.Matches R S ctx'.cloned
  axes : ctx.axes = ctx'.axes
  grid : ctx.grid = ctx'.grid
  left : ctx.core.Settled
  right : ctx'.core.Settled

namespace Matched

variable (h : Matched R S ctx ctx')

include h

theorem symm : Matched (fun t' t => R t t') (fun o' o => S o o') ctx' ctx :=
  ⟨h.cloned.symm, h.axes.symm, h.grid.symm, h.right, h.left⟩

/-- **Corresponding tensors are placed alike.** -/
theorem alike (ht : R t t') : Alike ctx.core ctx'.core t t' := by
  obtain ⟨x, x', hx, hx', -⟩ := h.cloned.tensor ht
  exact h.left.sound.consistent.agree h.cloned h.left.sound.base h.right.sound.base
    h.right.sound.consistent h.axes h.grid ht (h.left.allPlaced t x hx)
    (h.right.allPlaced t' x' hx')

theorem isCanvas_eq (ht : R t t') : ctx.isCanvas t = ctx'.isCanvas t' := (h.alike ht).isCanvas

/-- **Corresponding operations are planned alike.** -/
theorem decision_eq (hop : ctx.cloned.ops.get? o = some op)
    (hop' : ctx'.cloned.ops.get? o' = some op')
    (hkind : op.kind = op'.kind) (hinputs : List.Forall₂ R op.inputs op'.inputs)
    (hout : R op.output op'.output) : ctx.core.decision op = ctx'.core.decision op' ∧
      ctx.plans.get? o = ctx'.plans.get? o' := by
  obtain ⟨y, y', hy, hy', -⟩ := h.cloned.tensor hout
  have hplanned := (h.left.sound.consistent.op hop).resolve_left fun hnone =>
    h.left.allPlaced _ y hy hnone.2
  have hplanned' := (h.right.sound.consistent.op hop').resolve_left fun hnone =>
    h.right.allPlaced _ y' hy' hnone.2
  exact h.left.sound.consistent.decision_eq h.cloned h.left.sound.base h.right.sound.base
    h.right.sound.consistent h.axes h.grid hkind hinputs hout hplanned hplanned'

theorem plans_eq (ho : S o o') : ctx.plans.get? o = ctx'.plans.get? o' := by
  obtain ⟨op, op', hop, hop', hkind, hinputs, hout⟩ := h.cloned.op ho
  exact (h.decision_eq hop hop' hkind hinputs hout).2

/-- **Corresponding operations are unbalanced for the same reasons.** -/
theorem unbalanced_iff (ho : S o o') (name reason : String) :
    ctx.core.Unbalanced o name reason ↔ ctx'.core.Unbalanced o' name reason := by
  obtain ⟨op, op', hop, hop', hkind, hinputs, hout⟩ := h.cloned.op ho
  have hdec := (h.decision_eq hop hop' hkind hinputs hout).1
  constructor
  · rintro ⟨op₁, r, hop₁, hr, rfl, rfl⟩
    cases hop.symm.trans hop₁
    exact ⟨op', r, hop', hdec ▸ hr, by rw [hkind], rfl⟩
  · rintro ⟨op₁, r, hop₁, hr, rfl, rfl⟩
    cases hop'.symm.trans hop₁
    exact ⟨op, r, hop, hdec.trans hr, by rw [hkind], rfl⟩

/-! ## Gaps -/

/-- Gaps that solve one working copy solve the other. -/
theorem solves {σ σ' : TensorId → Pair Nat} (hσ' : ctx'.core.Solves σ')
    (hσ : ∀ {t t'}, R t t' → σ t = σ' t') : ctx.core.Solves σ := by
  have hgrid : ctx.core.grid = ctx'.core.grid := h.grid
  -- An operation on the canvas, with the one it corresponds to and the inputs they have in common.
  have hfused : ∀ {o op plan}, ctx.core.cloned.ops.get? o = some op →
      ctx.core.plans.get? o = some (.fused plan) → ∃ o' op', ctx'.core.cloned.ops.get? o' =
        some op' ∧
        ctx'.core.plans.get? o' = some (.fused plan) ∧ R op.output op'.output ∧
        ∀ x ∈ gappedInputs op plan, ∃ x' ∈ gappedInputs op' plan, R x x' := by
    intro o op plan hop hplan
    obtain ⟨o', ho⟩ := h.cloned.op_left hop
    obtain ⟨op₁, op', hop₁, hop', -, hinputs, hout⟩ := h.cloned.op ho
    cases hop.symm.trans hop₁
    refine ⟨o', op', hop', (h.plans_eq ho).symm.trans hplan, hout, fun x hx => ?_⟩
    obtain ⟨i, hi, hxi⟩ := mem_gappedInputs.1 hx
    obtain ⟨x', hxi', hR⟩ := forall₂_getElem? hinputs hxi
    exact ⟨x', mem_gappedInputs.2 ⟨i, hi, hxi'⟩, hR⟩
  refine ⟨fun {t z} d ht hd => ?_, fun {o op plan} d hop hplan hd x hx y hy => ?_,
    fun {o op plan} d hop hplan hd x hx => ?_, fun {o op plan} d hop hplan hd x hx => ?_⟩
  · obtain ⟨t', hR⟩ := h.cloned.left ht
    obtain ⟨_, z', -, hz', -⟩ := h.cloned.tensor hR
    rw [hσ hR]
    exact hσ'.untiled d hz' (hgrid ▸ hd)
  · grind [Solves.equal]
  · grind [Solves.admissible]
  · obtain ⟨o', op', hop', hplan', hout, hin⟩ := hfused hop hplan
    obtain ⟨x', hx', hRx⟩ := hin x hx
    rw [hσ hRx, hσ hout]
    exact hσ'.forward d hop' hplan' (hgrid ▸ hd) x' hx'

/-- The gaps of the other working copy solve this one, and the gaps of this one are its least
solution. -/
theorem gapOf_le (ht : R t t') (d : Dim) : (ctx.gapOf t).get d ≤ (ctx'.gapOf t').get d := by
  classical
  let σ : TensorId → Pair Nat := fun u =>
    if hu : ∃ u', R u u' then ctx'.gapOf hu.choose else .both 0
  have hσ : ∀ {u u'}, R u u' → σ u = ctx'.gapOf u' := by
    intro u u' hR
    have hu : ∃ u', R u u' := ⟨u', hR⟩
    rw [show σ u = ctx'.gapOf hu.choose from dif_pos hu, (h.cloned.unique hu.choose_spec hR).1 rfl]
  obtain ⟨z, -, hz, -⟩ := h.cloned.tensor ht
  rw [← hσ ht]
  exact h.left.least σ (h.solves h.right.solves hσ) t z d hz

/-- **Corresponding tensors have the same gap.** -/
theorem gapOf_eq (ht : R t t') : ctx.gapOf t = ctx'.gapOf t' :=
  Pair.ext_get fun d => Nat.le_antisymm (h.gapOf_le ht d) (h.symm.gapOf_le ht d)

/-- **Corresponding tensors have the same canvas shape.** -/
theorem canvasShapes_eq (ht : R t t') : ctx.canvasShapes.get? t = ctx'.canvasShapes.get? t' := by
  obtain ⟨z, z', hz, hz', -⟩ := h.cloned.tensor ht
  obtain ⟨s, hs, hshape⟩ := h.left.sound.gapped.shape (h.left.gap hz)
  obtain ⟨s', hs', hshape'⟩ := h.right.sound.gapped.shape (h.right.gap hz')
  have halike := h.alike ht
  have hgap : ctx.core.gapOf t = ctx'.core.gapOf t' := h.gapOf_eq ht
  have hgrid : ctx.core.grid = ctx'.core.grid := h.grid
  have hlimit : ctx.core.limit = ctx'.core.limit := rfl
  rw [canvasShape_congr hlimit hgrid halike.shape halike.axisMap, hgap, hshape'] at hshape
  cases hshape
  exact hs.trans hs'.symm

end Matched

/-! ## What the gaps hold -/

/-- Emission has come to its end, with its books in order. -/
structure Finished (P : Prop) (ctx : Context) : Prop where
  emitting : Emitting P ctx
  complete : ∀ {t z}, ctx.cloned.tensors.get? t = some z → ctx.fusedOf.get? t ≠ none
  mem_visited : ∀ {o}, o ∈ ctx.visited ↔ ∃ op, ctx.cloned.ops.get? o = some op
  nodup : ctx.visited.Nodup
  accounted : ctx.Accounted

theorem Run.finished {lim : Limit} {source : Graph} {options : Options}
    {ctx₀ ctx₁ ctx₂ ctx₃ : Context} {P : Prop} (h : Run P ctx₀ ctx₁ ctx₂ ctx₃)
    (h₀ : Starts lim source options ctx₀) : ctx₃.Finished P where
  emitting := h.emitted.emitting
  complete hz := h.emitted.complete (h.emitted.cloned ▸ hz)
  mem_visited {o} := by
    rw [h.emitted.cloned]
    constructor
    · intro ho
      obtain ⟨op, hop, -⟩ := h.emitted.visited o ho
      exact ⟨op, hop⟩
    · rintro ⟨op, hop⟩
      exact h.emitted.mem_visited hop
  nodup := h.emitted.visited_nodup
  accounted := h.accounted h₀

/-- What the gaps of a canvas hold was worked out when its operation was emitted. -/
theorem Finished.fill {P : Prop} (h : ctx.Finished P) {z : Tensor}
    (hz : ctx.cloned.tensors.get? t = some z) (hcanvas : ctx.isCanvas t = true) :
    ∃ o op plan fill, ctx.cloned.ops.get? o = some op ∧ op.output = t ∧
      ctx.plans.get? o = some (.fused plan) ∧ ctx.outputFill op plan = .ok fill ∧
      ctx.fills.get? t = some fill := by
  have hs := h.emitting.settled
  obtain ⟨f, hf⟩ := Option.ne_none_iff_exists'.1 (h.complete hz)
  cases (h.emitting.fusedOf hf).2 with
  | source hx hrole => grind [Settled.source, Graph.WellFormed.mem_sources, Settled.wellFormed]
  | batched _ _ hbatched =>
    rw [hbatched] at hcanvas
    cases hcanvas
  | canvas hfuses hout _ _ hfill hfills =>
    exact ⟨_, _, _, _, hfuses.known, hout, hfuses.planned, hfill, hfills⟩

/-- What the gaps of an output hold follows from what the gaps of the inputs hold. -/
theorem outputFill_congr (hkind : op.kind = op'.kind)
    (hinputs : List.Forall₂ (fun x x' => ctx.inputFill x = ctx'.inputFill x') op.inputs op'.inputs)
    (hout : ctx.windowFill op.output = ctx'.windowFill op'.output) (plan : FusedPlan) :
    ctx.outputFill op plan = ctx'.outputFill op' plan := by
  have hfills : ∀ i, (do
      let x ← (Size.entry op.inputs i : Except FusionError TensorId)
      ctx.inputFill x) = (do
      let x ← (Size.entry op'.inputs i : Except FusionError TensorId)
      ctx'.inputFill x) := by
    intro i
    rcases entry_rel_entry hinputs i with ⟨x, x', hx, hx', hfill⟩ | ⟨e, hx, hx'⟩
    · rw [hx, hx']
      exact hfill
    · rw [hx, hx']
      rfl
  unfold outputFill
  simp only [hfills, hkind, hout, hinputs.length_eq]

section Emission

variable {P : Prop} (h : Matched R S ctx ctx') (hf : ctx.Finished P) (hf' : ctx'.Finished P)

include h

theorem Matched.gap_eq (ht : R t t') : ctx.gap t = ctx'.gap t' := by
  obtain ⟨z, z', hz, hz', -⟩ := h.cloned.tensor ht
  rw [h.left.gap_ok hz, h.right.gap_ok hz', h.gapOf_eq ht]

theorem Matched.windowFill_eq (ht : R t t') : ctx.windowFill t = ctx'.windowFill t' := by
  unfold windowFill
  rw [h.gap_eq ht, h.grid]

include hf hf'

omit hf' in
/-- The gaps of a canvas that is read hold something. -/
theorem Matched.fill_eq (ht : R t t') (hcanvas : ctx.isCanvas t = true)
    (hfills : ctx.fills.get? t = ctx'.fills.get? t') : ctx.fill t = ctx'.fill t' := by
  obtain ⟨z, -, hz, -⟩ := h.cloned.tensor ht
  obtain ⟨_, _, _, v, -, -, -, -, hv⟩ := hf.fill hz hcanvas
  rw [fill, fill, ← hfills, hv]
  rfl

/-- **Corresponding tensors hold the same in their gaps.** -/
theorem Matched.fills_eq (ht : R t t') : ctx.fills.get? t = ctx'.fills.get? t' := by
  induction t using Handle.induction generalizing t' with
  | _ t ih =>
    obtain ⟨z, z', hz, hz', -⟩ := h.cloned.tensor ht
    have hsame := h.isCanvas_eq ht
    cases hcanvas : ctx.isCanvas t with
    | false =>
      have hnone : ctx.fills.get? t = none := by
        by_contra hne
        rw [(hf.emitting.fills.1 hne).1] at hcanvas
        cases hcanvas
      have hnone' : ctx'.fills.get? t' = none := by
        by_contra hne
        rw [hsame, (hf'.emitting.fills.1 hne).1] at hcanvas
        cases hcanvas
      rw [hnone, hnone']
    | true =>
      obtain ⟨o, op, plan, fill, hop, rfl, hplan, hfill, hfills⟩ := hf.fill hz hcanvas
      obtain ⟨o₁, op₁, plan₁, fill', hop₁, hout₁, hplan₁, hfill', hfills'⟩ :=
        hf'.fill hz' (hsame ▸ hcanvas)
      obtain ⟨o', op', ho, hop', hout', hkind, hinputs⟩ := h.cloned.written hop ht
      obtain rfl := h.right.wellFormed.op_eq_of_output hop₁ hop' (hout₁.trans hout'.symm)
      cases hop₁.symm.trans hop'
      have hplans := h.plans_eq ho
      rw [hplan, hplan₁] at hplans
      cases hplans
      have hfed : List.Forall₂ (fun x x' => ctx.inputFill x = ctx'.inputFill x') op.inputs
          op₁.inputs := by
        refine (forall₂_mem hinputs).imp fun x x' ⟨hx, _, hR⟩ => ?_
        grind [inputFill, Graph.Sequential.input_lt, Settled.sequential, left, isCanvas_eq, fill_eq]
      grind [outputFill_congr, windowFill_eq]

/-- **Corresponding inputs are masked for the same plans.** -/
theorem Matched.needsMask_eq (hlimit : ctx.limit = ctx'.limit) (ht : R t t') (plan : FusedPlan) :
    ctx.needsMask plan t = ctx'.needsMask plan t' := by
  grind [needsMask, isCanvas_eq, gap_eq, grid, fill_eq, fills_eq]

end Emission

/-! ## What operations need -/

/-- The needs are the same, for tensors that correspond. -/
structure Needs.Match (R : TensorId → TensorId → Prop) (n n' : Needs) : Prop where
  tiled : ∀ {t t'}, R t t' → (n.tiled t ↔ n'.tiled t')
  defused : ∀ {t t'}, R t t' → (n.defused t ↔ n'.defused t')
  masked : ∀ {t t'}, R t t' → (n.masked t ↔ n'.masked t')

namespace Needs.Match

variable {n n' m m' : Needs}

theorem none : Needs.Match R .none .none := ⟨fun _ => Iff.rfl, fun _ => Iff.rfl, fun _ => Iff.rfl⟩

theorem or (h : Needs.Match R n n') (h' : Needs.Match R m m') :
    Needs.Match R (n.or m) (n'.or m') where
  tiled ht := or_congr (h.tiled ht) (h'.tiled ht)
  defused ht := or_congr (h.defused ht) (h'.defused ht)
  masked ht := or_congr (h.masked ht) (h'.masked ht)

/-- What the steps of a loop need, one by one. -/
theorem any {α β : Type} {T : α → β → Prop} {as : List α} {bs : List β} {n : α → Needs}
    {n' : β → Needs} (hT : List.Forall₂ T as bs) (h : ∀ a b, T a b → Needs.Match R (n a) (n' b)) :
    Needs.Match R (.any as n) (.any bs n') := by
  have hexists : ∀ {p : α → Prop} {q : β → Prop}, (∀ a b, T a b → (p a ↔ q b)) →
      ((∃ a ∈ as, p a) ↔ ∃ b ∈ bs, q b) := by
    intro p q hpq
    constructor
    · rintro ⟨a, ha, hp⟩
      obtain ⟨b, hb, hab⟩ := forall₂_left_mem hT ha
      exact ⟨b, hb, (hpq a b hab).1 hp⟩
    · rintro ⟨b, hb, hq⟩
      obtain ⟨a, ha, hab⟩ := forall₂_right_mem hT hb
      exact ⟨a, ha, (hpq a b hab).2 hq⟩
  exact ⟨fun ht => hexists fun a b hab => (h a b hab).tiled ht,
    fun ht => hexists fun a b hab => (h a b hab).defused ht,
    fun ht => hexists fun a b hab => (h a b hab).masked ht⟩

variable {g g' : Graph} (hm : g.Matches R S g') (hx : R x x')

include hm hx

theorem tile : Needs.Match R (.tile x) (.tile x') :=
  ⟨fun ht => hm.unique ht hx, fun _ => Iff.rfl, fun _ => Iff.rfl⟩

theorem defuse : Needs.Match R (.defuse x) (.defuse x') :=
  ⟨fun _ => Iff.rfl, fun ht => hm.unique ht hx, fun _ => Iff.rfl⟩

theorem mask : Needs.Match R (.mask x) (.mask x') :=
  ⟨fun _ => Iff.rfl, fun _ => Iff.rfl, fun ht => hm.unique ht hx⟩

end Needs.Match

section Demand

variable {P : Prop} (h : Matched R S ctx ctx') (hf : ctx.Finished P) (hf' : ctx'.Finished P)
  (hlimit : ctx.limit = ctx'.limit)

include h

theorem Matched.batchedNeeds (hx : R x x') :
    Needs.Match R (ctx.batchedNeeds x) (ctx'.batchedNeeds x') := by
  unfold Context.batchedNeeds
  rw [← h.isCanvas_eq hx]
  split_ifs
  · exact .defuse h.cloned hx
  · exact .none

theorem Matched.roleOf_eq (hx : R x x') : ctx.roleOf x = ctx'.roleOf x' := by
  obtain ⟨z, z', hz, hz', -, hrole⟩ := h.cloned.tensor hx
  grind [roleOf, Graph.WellFormed.mem_outputs, Settled.wellFormed, left, right]

include hf hf' hlimit

theorem Matched.operandNeeds (hx : R x x') (plan : FusedPlan) (i : Nat) :
    Needs.Match R (ctx.operandNeeds plan (x, i)) (ctx'.operandNeeds plan (x', i)) := by
  unfold Context.operandNeeds
  simp only [← h.isCanvas_eq hx, ← h.needsMask_eq hf hf' hlimit hx]
  split_ifs
  · exact .mask h.cloned hx
  · exact .none
  · exact .tile h.cloned hx
  · exact h.batchedNeeds hx

/-- **Corresponding operations need the same.** -/
theorem Matched.demand (ho : S o o') : Needs.Match R (ctx.demand o) (ctx'.demand o') := by
  obtain ⟨op, op', hop, hop', -, hinputs, hout⟩ := h.cloned.op ho
  unfold Context.demand
  rw [hop, hop', ← h.plans_eq ho]
  rcases ctx.plans.get? o with _ | _ | plan
  · exact .none
  · exact .any hinputs fun x x' hx => h.batchedNeeds hx
  · show Needs.Match R (ctx.fusedNeeds op plan (ctx.roleOf op.output))
      (ctx'.fusedNeeds op' plan (ctx'.roleOf op'.output))
    unfold fusedNeeds
    rw [← h.roleOf_eq hout]
    refine .or (.any (forall₂_zipIdx hinputs 0) ?_) ?_
    · grind [operandNeeds]
    · split_ifs
      · exact .defuse h.cloned hout
      · exact .none

omit hlimit in
theorem Matched.visited (ho : o ∈ ctx.visited) : ∃ o' ∈ ctx'.visited, S o o' := by
  obtain ⟨op, hop⟩ := hf.mem_visited.1 ho
  obtain ⟨o', hS⟩ := h.cloned.op_left hop
  obtain ⟨-, op', -, hop', -⟩ := h.cloned.op hS
  exact ⟨o', hf'.mem_visited.2 ⟨op', hop'⟩, hS⟩

omit hlimit in
/-- The operations visited correspond, so some of them has a property on both sides or on none. -/
theorem Matched.exists_visited {p p' : OpId → Prop} (hp : ∀ {o o'}, S o o' → (p o ↔ p' o')) :
    (∃ o ∈ ctx.visited, p o) ↔ ∃ o' ∈ ctx'.visited, p' o' := by
  constructor
  · rintro ⟨o, ho, hpo⟩
    obtain ⟨o', ho', hS⟩ := h.visited hf hf' ho
    exact ⟨o', ho', (hp hS).1 hpo⟩
  · rintro ⟨o', ho', hpo'⟩
    obtain ⟨o, ho, hS⟩ := h.symm.visited hf' hf ho'
    exact ⟨o, ho, (hp hS).2 hpo'⟩

omit hlimit in
/-- The operations visited correspond, so as many of them have a property on both sides. -/
theorem Matched.countP_visited {p p' : OpId → Bool} (hp : ∀ {o o'}, S o o' → p o = p' o') :
    ctx.visited.countP p = ctx'.visited.countP p' := by
  rw [List.countP_eq_length_filter, List.countP_eq_length_filter]
  refine length_eq_of_related (R := S) (hf.nodup.filter _) (hf'.nodup.filter _)
    (h.cloned.op_unique h.left.wellFormed h.right.wellFormed) (fun o ho => ?_) fun o' ho' => ?_
  · obtain ⟨hmem, hpo⟩ := List.mem_filter.1 ho
    obtain ⟨o', ho', hS⟩ := h.visited hf hf' hmem
    exact ⟨o', List.mem_filter.2 ⟨ho', hp hS ▸ hpo⟩, hS⟩
  · obtain ⟨hmem, hpo⟩ := List.mem_filter.1 ho'
    obtain ⟨o, ho, hS⟩ := h.symm.visited hf' hf hmem
    exact ⟨o, List.mem_filter.2 ⟨ho, (hp hS).trans hpo⟩, hS⟩

omit hf hf' hlimit in
/-- Tables with corresponding entries are counted alike. -/
theorem Matched.counted_eq {l l' : Ledger TensorId TensorId} {n n' : Nat} (hl : l.Counted n)
    (hl' : l'.Counted n')
    (hknown : ∀ {t f}, l.get? t = some f → ∃ z, ctx.cloned.tensors.get? t = some z)
    (hknown' : ∀ {t f}, l'.get? t = some f → ∃ z, ctx'.cloned.tensors.get? t = some z)
    (hsame : ∀ {t t'}, R t t' → (l.get? t ≠ none ↔ l'.get? t' ≠ none)) : n = n' := by
  rw [hl.count, hl'.count]
  refine length_eq_of_related (R := R) hl.nodup hl'.nodup h.cloned.unique (fun t ht => ?_)
    fun t' ht' => ?_
  · have hne := Ledger.mem_keys.1 ht
    obtain ⟨f, hf⟩ := Option.ne_none_iff_exists'.1 hne
    obtain ⟨z, hz⟩ := hknown hf
    obtain ⟨t', hR⟩ := h.cloned.left hz
    exact ⟨t', Ledger.mem_keys.2 ((hsame hR).1 hne), hR⟩
  · have hne := Ledger.mem_keys.1 ht'
    obtain ⟨f, hf⟩ := Option.ne_none_iff_exists'.1 hne
    obtain ⟨z, hz⟩ := hknown' hf
    obtain ⟨t, hR⟩ := h.cloned.right hz
    exact ⟨t, Ledger.mem_keys.2 ((hsame hR).2 hne), hR⟩

/-- **Emission counts the same.** -/
theorem Matched.counters_eq : ctx.counters.fusedOps = ctx'.counters.fusedOps ∧
    ctx.counters.batchedOps = ctx'.counters.batchedOps ∧
    ctx.counters.tileAdapters = ctx'.counters.tileAdapters ∧
    ctx.counters.defuseAdapters = ctx'.counters.defuseAdapters ∧
    ctx.counters.masks = ctx'.counters.masks := by
  have ha := hf.accounted
  have ha' := hf'.accounted
  have hfused : ∀ {o o'}, S o o' → ctx.isFused o = ctx'.isFused o' := fun ho => by
    rw [isFused, isFused, h.plans_eq ho]
  refine ⟨?_, ?_, ?_, ?_, ?_⟩
  · grind [Accounted.fusedOps, countP_visited]
  · grind [Accounted.batchedOps, countP_visited]
  · refine h.counted_eq ha.tallied.tiled ha'.tallied.tiled (fun hx => ?_) (fun hx => ?_) fun ht =>
      ?_
    · obtain ⟨_, hy, -⟩ := (hf.emitting.tiled hx).2.chain
      exact hf.emitting.clone_known hy
    · obtain ⟨_, hy, -⟩ := (hf'.emitting.tiled hx).2.chain
      exact hf'.emitting.clone_known hy
    · rw [ha.tiled, ha'.tiled]
      exact h.exists_visited hf hf' fun ho => (h.demand hf hf' hlimit ho).tiled ht
  · refine h.counted_eq ha.tallied.defused ha'.tallied.defused (fun hx => ?_) (fun hx => ?_)
      fun ht => ?_
    · obtain ⟨_, hy, -⟩ := (hf.emitting.defused hx).2.blocks
      exact hf.emitting.clone_known hy
    · obtain ⟨_, hy, -⟩ := (hf'.emitting.defused hx).2.blocks
      exact hf'.emitting.clone_known hy
    · rw [ha.defused, ha'.defused]
      exact h.exists_visited hf hf' fun ho => (h.demand hf hf' hlimit ho).defused ht
  · refine h.counted_eq ha.tallied.masked ha'.tallied.masked (fun hx => ?_) (fun hx => ?_) fun ht =>
      ?_
    · obtain ⟨_, hy, -⟩ := (hf.emitting.masked hx).2.product
      exact hf.emitting.clone_known hy
    · obtain ⟨_, hy, -⟩ := (hf'.emitting.masked hx).2.product
      exact hf'.emitting.clone_known hy
    · rw [ha.masked, ha'.masked]
      exact h.exists_visited hf hf' fun ho => (h.demand hf hf' hlimit ho).masked ht

end Demand

end CanvasFusion.Context
