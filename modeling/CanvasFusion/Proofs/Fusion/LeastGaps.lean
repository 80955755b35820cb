import CanvasFusion.Proofs.Fusion.Visiting

/-!
# Gap inference finds the least solution

The queue holds every operation that is ready and not calm. A visit without a backward pass calms
its operation and unsettles later ones only, so operations that are not calm, read as the digits of
a binary number, count down: a sweep ends within `sweepBound` (`after_sweep`). A visit with a
backward pass uses up one of the passes that are left (`after_settle`).

Gaps never exceed those of a solution, and each backward pass makes their sum larger. So inference
ends with the least solution (`Inferring.isLeastSolution`), or with an error that a solution of a
small sum excludes.

Where no two operations share an input on the canvas, only first visits make backward passes, so
there are no more of them than operations (`Once`), and as many passes are enough.
-/

namespace CanvasFusion

open List Pass Table

/-! ## Counting down -/

open Classical in
/-- The numbers below `m` with a property, as a binary number whose highest digit is that of
zero. -/
noncomputable def debt (P : Nat → Prop) : Nat → Nat
  | 0 => 0
  | m + 1 => 2 * debt P m + (if P m then 1 else 0)

theorem debt_lt (P : Nat → Prop) (m : Nat) : debt P m < 2 ^ m := by
  induction m with
  | zero => simp [debt]
  | succ m ih =>
    rw [debt, Nat.pow_succ]
    split_ifs <;> omega

theorem debt_mono {P P' : Nat → Prop} {m : Nat} (h : ∀ i < m, P' i → P i) :
    debt P' m ≤ debt P m := by
  induction m with
  | zero => exact Nat.le_refl _
  | succ m ih =>
    grind [debt]

/-- Losing a digit outweighs whatever is gained behind it. -/
theorem debt_lt_debt {P P' : Nat → Prop} {m k : Nat} (hk : k < m) (hP : P k) (hP' : ¬ P' k)
    (h : ∀ i < k, P' i → P i) : debt P' m < debt P m := by
  induction m with
  | zero => omega
  | succ m ih =>
    rw [debt, debt]
    rcases Nat.lt_or_eq_of_le (Nat.le_of_lt_succ hk) with hlt | rfl
    · have := ih hlt
      split_ifs <;> omega
    · have := debt_mono h
      rw [if_pos hP, if_neg hP']
      omega

namespace Context

variable {planned ctx ctx' : Context} {op : Operation} {o : OpId} {t : TensorId}
  {queue os : List OpId} {v : Visit}

/-- The operations that are not calm. -/
noncomputable def unrest (ctx : Context) : Nat :=
  debt (fun i => ¬ ctx.Calm ⟨i⟩) ctx.cloned.ops.size

/-! ## First visits -/

/-- Every operation that is planned is calm, and has made at most one backward pass. -/
structure Once (ctx : Context) : Prop where
  calm : ctx.AllCalm
  passes : ∃ os : List OpId, os.Nodup ∧ (∀ o ∈ os, ctx.plans.get? o ≠ none) ∧
    ctx.counters.backwardPasses = os.length

/-- Only the first visit of an operation may make a backward pass. -/
theorem Once.visited (h : ctx.Once) (hv : Visited ctx o op v ctx') (hun : ctx'.Unshared) :
    ctx'.Once := by
  obtain ⟨os, hnodup, hos, hpasses⟩ := h.passes
  have hpasses' := hv.passes
  by_cases hnew : ctx.plans.get? o = none
  · refine ⟨hv.calmed hnew hun h.calm, ?_⟩
    cases hr : v.raised with
    | false => exact ⟨os, hnodup, fun o' ho' => hv.planned.2 (.inr (hos o' ho')), by
        rw [hpasses', hr, hpasses, Bool.toNat_false, Nat.add_zero]⟩
    | true =>
      refine ⟨o :: os, nodup_cons.2 ⟨fun ho => hos o ho hnew, hnodup⟩, fun o' ho' => ?_, by
        rw [hpasses', hr, hpasses, Bool.toNat_true, length_cons]⟩
      exact hv.planned.2 ((mem_cons.1 ho').imp_right (hos o'))
  · have hquiet := hv.quiet (h.calm o hnew)
    subst hquiet
    refine ⟨fun o' ho' => ?_, os, hnodup, fun o' ho' => hv.planned.2 (.inr (hos o' ho')),
      hpasses'.trans hpasses⟩
    by_cases hself : o' = o
    · exact hself ▸ hv.own.resolve_right (by simp)
    · refine (hv.others o' hself (h.calm o' ?_)).resolve_right (by simp)
      exact (hv.planned.1 ho').resolve_left hself

theorem length_le_of_known (hnodup : os.Nodup)
    (h : ∀ o ∈ os, ∃ op, ctx.cloned.ops.get? o = some op) : os.length ≤ ctx.cloned.ops.size := by
  rw [← length_handles]
  refine (hnodup.subperm fun o ho => ?_).length_le
  obtain ⟨op, hop⟩ := h o ho
  exact mem_handles.2 (lt_of_get? hop)

theorem Once.passes_le (h : ctx.Once) (hs : ctx.Sound) :
    ctx.counters.backwardPasses ≤ ctx.cloned.ops.size := by
  obtain ⟨os, hnodup, hos, hpasses⟩ := h.passes
  rw [hpasses]
  exact length_le_of_known hnodup fun o ho => hs.consistent.op_known (hos o ho)

/-- An operation that is still to be visited leaves a pass to spare. -/
theorem Once.passes_lt (h : ctx.Once) (hs : ctx.Sound) (hop : ctx.cloned.ops.get? o = some op)
    (ho : ¬ ctx.Calm o) : ctx.counters.backwardPasses < ctx.cloned.ops.size := by
  obtain ⟨os, hnodup, hos, hpasses⟩ := h.passes
  rw [hpasses]
  refine length_le_of_known (nodup_cons.2 ⟨fun hmem => ho (h.calm o (hos o hmem)), hnodup⟩) ?_
  exact forall_mem_cons.2 ⟨⟨op, hop⟩, fun o' ho' => hs.consistent.op_known (hos o' ho')⟩

theorem Unshared.of_extends (hun : ctx'.Unshared) (h : ctx.Extends ctx') : ctx.Unshared := by
  intro o o' op op' plan plan' x hop hop' hplan hplan'
  have hp : ∀ {o p}, ctx.plans.get? o = some p → ctx'.plans.get? o = some p := fun hp => by
    rw [h.plan (by simp [hp]), hp]
  exact hun (h.cloned.symm ▸ hop) (h.cloned.symm ▸ hop') (hp hplan) (hp hplan')

/-! ## The state during inference -/

/-- What is true during gap inference. `planned` is the state with everything placed and planned,
before any gap is known; the queue holds what is still to be visited. -/
structure Inferring (planned ctx : Context) (queue : List OpId) : Prop where
  sound : ctx.Sound
  frame : Frame planned ctx
  gapped : ∀ u, ctx.placements.get? u ≠ none → ctx.gaps.get? u ≠ none
  sources : ∀ t ∈ ctx.cloned.sources, ctx.placements.get? t ≠ none
  queued : ∀ o op, ctx.cloned.ops.get? o = some op →
    (∀ x ∈ op.inputs, ctx.placements.get? x ≠ none) → ctx.Calm o ∨ o ∈ queue
  known : ∀ o ∈ queue, ∃ op, ctx.cloned.ops.get? o = some op
  below : ∀ σ, planned.Solves σ → planned.Below ctx.gapOf σ
  passes : ctx.counters.backwardPasses ≤ planned.totalGap ctx.gapOf
  within : ctx.counters.backwardPasses ≤ ctx.maxBackwardPasses
  once : planned.Unshared → ctx.Once
  warned : ctx.Warned

/-- Inference failed: no solution is within the passes. -/
def Diverged (planned : Context) (e : FusionError) : Prop :=
  e = .diverged planned.maxBackwardPasses ∧
    ∀ σ, planned.Solves σ → planned.maxBackwardPasses < planned.totalGap σ

/-- Inference failed with fewer passes allowed than there may have to be. -/
structure GaveUp (planned : Context) (e : FusionError) : Prop where
  diverged : planned.Diverged e
  unshared : planned.Unshared → planned.maxBackwardPasses < planned.cloned.ops.size

theorem Frame.symm (h : Frame ctx ctx') : Frame ctx' ctx := ⟨by rw [h.eq], h.unsupported.symm⟩

/-- What is planned so far is part of what is planned of all of a working copy. -/
theorem Sound.extends_planned (hs : ctx.Sound) (hp : planned.Consistent) (hall : planned.AllPlaced)
    (hframe : Frame planned ctx) : ctx.Extends planned :=
  hs.consistent.extends hs.base hp hall hframe.symm.limit hframe.symm.cloned hframe.symm.axes
    hframe.symm.grid

theorem Frame.below (h : Frame ctx ctx') {σ τ : TensorId → Pair Nat} :
    ctx'.Below σ τ ↔ ctx.Below σ τ := by
  unfold Below
  rw [h.cloned]

theorem Frame.totalGap (h : Frame ctx ctx') (σ : TensorId → Pair Nat) :
    ctx'.totalGap σ = ctx.totalGap σ := by
  unfold Context.totalGap
  rw [h.cloned]

section Inference

variable (hp : planned.Consistent) (hall : planned.AllPlaced)
include hp hall

/-- The queue invariant is kept by a visit, with the readers of what changed at the end of the
queue. -/
theorem Inferring.visited (h : Inferring planned ctx (o :: queue))
    (hop : ctx.cloned.ops.get? o = some op) (hv : Visited ctx o op v ctx') :
    Inferring planned ctx' (queue ++ v.changed.flatMap ctx'.cloned.consumers) := by
  have hwf := h.sound.base.wellFormed
  have hcloned := hv.frame.cloned
  have hframe := h.frame.trans hv.frame
  have hext := hv.sound.extends_planned hp hall hframe
  -- The readers of a reported tensor are in the new queue.
  have hreader : ∀ {o' op' x}, ctx.cloned.ops.get? o' = some op' → x ∈ op'.inputs →
      x ∈ v.changed → o' ∈ queue ++ v.changed.flatMap ctx'.cloned.consumers := by
    grind [Graph.WellFormed.input_known, Graph.WellFormed.mem_consumers_iff]
  refine
    { sound := hv.sound
      frame := hframe
      gapped := hv.gapped
      sources := fun t ht => ?_
      queued := fun o' op' hop' hready => ?_
      known := fun o' ho' => ?_
      below := fun σ hσ => ?_
      passes := ?_
      within := ?_
      once := fun hun => (h.once hun).visited hv (hun.of_extends hext)
      warned := hv.warned h.warned }
  · rw [hcloned] at ht
    rw [hv.extends_.placement (h.sources t ht)]
    exact h.sources t ht
  · rw [hcloned] at hop'
    by_cases hself : o' = o
    · subst hself
      cases hop.symm.trans hop'
      refine hv.own.imp id ?_
      rintro ⟨-, x, hx, hchanged⟩
      exact hreader hop hx hchanged
    · grind [queued, Visited.others, Visited.new]
  · rw [hcloned] at ho' ⊢
    rcases mem_append.1 ho' with ho' | ho'
    · exact h.known o' (mem_cons_of_mem o ho')
    · obtain ⟨x, -, hreads⟩ := mem_flatMap.1 ho'
      cases hx : ctx.cloned.tensors.get? x with
      | none => simp [Graph.consumers, hx] at hreads
      | some y => grind [Graph.WellFormed.mem_consumers_iff]
  · exact h.frame.below.1 (hv.below σ (hσ.of_extends hext) (h.frame.below.2 (h.below σ hσ)))
  · have hle : planned.totalGap ctx.gapOf ≤ planned.totalGap ctx'.gapOf :=
      totalGap_le fun u _ d _ => hv.mono u d
    rw [hv.passes]
    cases hr : v.raised with
    | false => exact Nat.le_trans h.passes hle
    | true =>
      have hlt := (hv.growth hr).2
      grind [passes, Frame.totalGap, frame]
  · rw [hv.frame.maxBackwardPasses]
    cases hr : v.raised with
    | false =>
      rw [hv.passes, hr]
      exact h.within
    | true => exact (hv.growth hr).1

/-- A failed visit excludes every solution within the passes. -/
theorem Inferring.failed (h : Inferring planned ctx queue) (hop : ctx.cloned.ops.get? o = some op)
    {e : FusionError} (hf : ctx.Failed o e) : planned.GaveUp e := by
  obtain ⟨he, hover, hcalm, ctx', hs', hframe', hlt⟩ := hf
  rw [h.frame.maxBackwardPasses] at he hover
  refine ⟨⟨he, fun σ hσ => ?_⟩, fun hun => ?_⟩
  swap
  · grind [Once.passes_lt, once, sound, Frame.cloned, frame]
  have hσ' := hσ.of_extends (hs'.extends_planned hp hall (h.frame.trans hframe'))
  have htotal := hlt σ hσ' (h.frame.below.2 (h.below σ hσ))
  rw [h.frame.totalGap, h.frame.totalGap] at htotal
  have := h.passes
  omega

end Inference

/-! ## Progress -/

theorem length_consumers_le (hb : ctx.Base) (t : TensorId) :
    (ctx.cloned.consumers t).length ≤ ctx.cloned.ops.size := by
  cases ht : ctx.cloned.tensors.get? t with
  | none => simp [Graph.consumers, ht]
  | some x =>
    rw [Graph.mem_consumers ht, ← length_handles]
    have hnodup : x.consumers.Nodup :=
      (hb.wellFormed.consumers_sorted ht).imp fun hlt heq =>
        absurd (congrArg Handle.index heq) (Nat.ne_of_lt hlt)
    refine (hnodup.subperm fun o ho => ?_).length_le
    exact mem_handles.2 (hb.wellFormed.lt_of_mem_consumers ht ho)

/-- A visit of a calm operation leaves all calm operations calm. -/
theorem unrest_le (hv : Visited ctx o op v ctx') (hstill : v = ⟨[], false⟩) :
    ctx'.unrest ≤ ctx.unrest := by
  subst hstill
  unfold unrest
  rw [hv.frame.cloned]
  refine debt_mono fun i _ hi hcalm => hi ?_
  by_cases hself : (⟨i⟩ : OpId) = o
  · rw [hself]
    exact hv.own.resolve_right fun h => by cases h.1
  · grind [Visited.others]

/-- A visit without a backward pass calms its operation and unsettles later ones only. -/
theorem unrest_lt (hs : ctx.Sound) (hop : ctx.cloned.ops.get? o = some op)
    (hv : Visited ctx o op v ctx') (hraised : v.raised = false) (hcalm : ¬ ctx.Calm o) :
    ctx'.unrest < ctx.unrest := by
  unfold unrest
  rw [hv.frame.cloned]
  refine debt_lt_debt (k := o.index) (lt_of_get? hop) hcalm (fun h => h ?_)
    fun i hi hnot hcalm' => hnot ?_
  · exact hv.own.resolve_right fun h => by rw [hraised] at h; cases h.1
  · have hself : (⟨i⟩ : OpId) ≠ o := by
      rintro rfl
      exact Nat.lt_irrefl _ hi
    refine (hv.others ⟨i⟩ hself hcalm').resolve_right ?_
    rintro ⟨op', hop', x, hx, hchanged⟩
    have hxout : x = op.output := by grind [Visited.forward]
    -- A reader of the output comes after the operation.
    have hprod := hs.base.wellFormed.producer_output hop
    rw [← hxout] at hprod
    have hlt : o.index < i := hs.base.sequential.producer_lt hop' hx hprod
    omega

/-- How far a queue is from the end, without backward passes. -/
noncomputable def remaining (ctx : Context) (queue : List OpId) : Nat :=
  queue.length + ctx.unrest * (ctx.cloned.ops.size + 1)

theorem remaining_lt (queue : List OpId) (hs : ctx.Sound) (hop : ctx.cloned.ops.get? o = some op)
    (hv : Visited ctx o op v ctx') (hraised : v.raised = false) :
    ctx'.remaining (queue ++ v.changed.flatMap ctx'.cloned.consumers) <
      ctx.remaining (o :: queue) := by
  unfold remaining
  rw [hv.frame.cloned, length_cons, length_append]
  by_cases hcalm : ctx.Calm o
  · have hstill := hv.quiet hcalm
    have hle := Nat.mul_le_mul_right (ctx.cloned.ops.size + 1) (unrest_le hv hstill)
    simp only [hstill, flatMap_nil, length_nil]
    omega
  · have hlt := unrest_lt hs hop hv hraised hcalm
    have hmul := Nat.mul_le_mul_right (ctx.cloned.ops.size + 1) (Nat.succ_le_of_lt hlt)
    rw [Nat.succ_mul] at hmul
    have hlen : (v.changed.flatMap ctx.cloned.consumers).length ≤ ctx.cloned.ops.size := by
      rcases hv.forward hraised with h | h
      · simp [h]
      · rw [h, flatMap_singleton]
        exact length_consumers_le hs.base _
    omega

theorem remaining_le_sweepBound (hb : ctx.Base) (queue : List OpId) :
    ctx.remaining queue ≤ ctx.sweepBound queue := by
  unfold remaining sweepBound
  have hunrest : ctx.unrest ≤ 2 ^ (ctx.cloned.tensors.size + 1) := by
    refine Nat.le_of_lt (Nat.lt_of_lt_of_le (debt_lt _ _) ?_)
    exact Nat.pow_le_pow_right (by omega) (Nat.le_succ_of_le hb.sequential.ops_le)
  exact Nat.add_le_add_left (Nat.mul_le_mul_right _ hunrest) _

/-! ## Sweeps -/

/-- How a sweep ends: with nothing left to visit, or after a backward pass. -/
def SweptTo (planned ctx : Context) : Sweep → Context → Prop
  | .settled, ctx' => Inferring planned ctx' []
  | .raised queue, ctx' => Inferring planned ctx' queue ∧
      ctx'.counters.backwardPasses = ctx.counters.backwardPasses + 1
  | .unfinished, _ => False

/-- An operation that is not ready is not missed in the queue. -/
theorem Inferring.skip (h : Inferring planned ctx (o :: queue))
    (hop : ctx.cloned.ops.get? o = some op)
    (hready : ¬ ∀ x ∈ op.inputs, ctx.placements.get? x ≠ none) : Inferring planned ctx queue :=
  { h with
    queued := by grind [queued]
    known := fun o' ho' => h.known o' (mem_cons_of_mem o ho') }

theorem isReady_ok (hop : ctx.cloned.ops.get? o = some op) :
    ctx.isReady o = .ok (op.inputs.all ctx.placements.contains) := by
  unfold isReady
  rw [get_eq_ok.2 hop]
  rfl

theorem all_contains : op.inputs.all ctx.placements.contains = true ↔
    ∀ x ∈ op.inputs, ctx.placements.get? x ≠ none := by
  simp [Ledger.contains, Option.isSome_iff_ne_none]

section Inference

variable (hp : planned.Consistent) (hall : planned.AllPlaced)
include hp hall

/-- **A sweep** comes to rest within its bound, or makes a backward pass. -/
theorem after_sweep (steps : Nat) : ∀ (queue : List OpId) (ctx : Context),
    Inferring planned ctx queue → ctx.remaining queue ≤ steps →
    After (sweep steps queue) ctx (fun r ctx' => SweptTo planned ctx r ctx')
      (fun e _ => planned.GaveUp e) := by
  induction steps with
  | zero =>
    intro queue ctx h hle
    cases queue with
    | nil => exact .pure h
    | cons o queue =>
      unfold remaining at hle
      simp at hle
  | succ steps ih =>
    intro queue ctx h hle
    cases queue with
    | nil => exact .pure h
    | cons o queue =>
      obtain ⟨op, hop⟩ := h.known o mem_cons_self
      unfold sweep
      refine .bind (.ask_fault (isReady_ok hop) ?_)
      refine .ite (fun hready => ?_) fun hready => ?_
      · refine .bind ((visitOp_spec h.sound hop h.gapped (all_contains.1 hready)).imp
          (fun v ctx' hv => ?_) fun e _ hf => h.failed hp hall hop hf)
        have h' := h.visited hp hall hop hv
        refine .bind (.get ?_)
        refine .ite (fun hraised => .pure ⟨h', ?_⟩) fun hraised => ?_
        · rw [hv.passes, hraised]
          rfl
        · rw [Bool.not_eq_true] at hraised
          have hlt := remaining_lt queue h.sound hop hv hraised
          refine (ih _ ctx' h' (by omega)).mono fun r ctx'' hr => ?_
          have hpasses : ctx'.counters.backwardPasses = ctx.counters.backwardPasses := by
            rw [hv.passes, hraised]
            rfl
          cases r with
          | settled | unfinished => exact hr
          | raised q => exact ⟨hr.1, by rw [hr.2, hpasses]⟩
      · refine ih queue ctx (h.skip hop (mt all_contains.2 hready)) ?_
        grind [remaining]

/-- **Inference from a queue** ends with nothing left to visit, or without a solution within the
passes. -/
theorem after_settle (passes : Nat) : ∀ (queue : List OpId) (ctx : Context),
    Inferring planned ctx queue →
    ctx.maxBackwardPasses - ctx.counters.backwardPasses < passes →
    After (settle passes queue) ctx (fun _ ctx' => Inferring planned ctx' [])
      (fun e _ => planned.GaveUp e) := by
  induction passes with
  | zero => exact fun _ _ _ h => absurd h (Nat.not_lt_zero _)
  | succ passes ih =>
    intro queue ctx h hlt
    unfold settle
    refine .bind (.get ?_)
    refine .then_ (after_sweep hp hall _ queue ctx h
      (remaining_le_sweepBound h.sound.base queue)) fun r ctx' hr => ?_
    cases r with
    | settled => exact .pure hr
    | raised queue' =>
      obtain ⟨h', hcount⟩ := hr
      refine ih queue' ctx' h' ?_
      have := h'.within
      have hmax : ctx'.maxBackwardPasses = ctx.maxBackwardPasses := by
        rw [h'.frame.maxBackwardPasses, h.frame.maxBackwardPasses]
      omega
    | unfinished => exact hr.elim

end Inference

/-! ## From start to end -/

theorem Started.inferring (hf : ctx.Fresh) (hstart : Started ctx ctx')
    (hframe : Frame ctx planned) (h0 : ctx.counters.backwardPasses = 0) :
    Inferring planned ctx' (ctx.cloned.sources.flatMap ctx.cloned.consumers) := by
  have hcloned := hstart.frame.cloned
  have hwf := hf.base.wellFormed
  have hzero : ∀ u, ctx'.gapOf u = .both 0 := by
    intro u
    unfold gapOf
    rw [hstart.gaps]
    split_ifs <;> rfl
  have hplans : ∀ o, ctx'.plans.get? o = none := fun o => by
    rw [hstart.plans, hf.plans, Ledger.get?_empty]
  refine
    { sound := hstart.sound
      frame := hframe.symm.trans hstart.frame
      gapped := fun u hu => ?_
      sources := fun t ht => (hstart.placed_iff t).2 (hcloned ▸ ht)
      queued := fun o op hop hin => .inr ?_
      known := fun o ho => ?_
      below := fun σ _ u _ d _ => ?_
      passes := by rw [hstart.counters, h0]; exact Nat.zero_le _
      within := by rw [hstart.counters, h0]; exact Nat.zero_le _
      once := fun _ => ⟨fun o ho => absurd (hplans o) ho, [], nodup_nil, by simp, by
        rw [hstart.counters, h0]; rfl⟩
      warned := hstart.warned hf }
  · rw [hstart.gaps, if_pos ((hstart.placed_iff u).1 hu)]
    simp
  · rw [hcloned] at hop
    obtain ⟨x, hx⟩ := exists_mem_of_ne_nil _ (hwf.inputs_ne_nil hop)
    grind [Graph.WellFormed.input_known, placed_iff,
      Graph.WellFormed.mem_consumers_iff]
  · grind [Graph.WellFormed.mem_sources, Graph.WellFormed.mem_consumers_iff]
  · rw [hzero]
    cases d <;> exact Nat.zero_le _

/-- **Gap inference** ends with nothing left to visit, or without a solution within the passes. -/
theorem inferGaps_spec (hf : ctx.Fresh) (h0 : ctx.counters.backwardPasses = 0)
    (hp : planned.Consistent) (hall : planned.AllPlaced) (hframe : Frame ctx planned) :
    After inferGaps ctx (fun _ ctx' => Inferring planned ctx' [])
      (fun e _ => planned.GaveUp e) := by
  refine .bind (.get ?_)
  refine .then_ (after_placeSources hf) fun _ ctx₁ hstart => ?_
  refine .bind (.get ?_)
  exact after_settle hp hall _ _ ctx₁ (hstart.inferring hf hframe h0) (Nat.lt_succ_self _)

section Ended

variable (h : Inferring planned ctx [])
include h

theorem Inferring.calm (hop : ctx.cloned.ops.get? o = some op)
    (hin : ∀ x ∈ op.inputs, ctx.placements.get? x ≠ none) : ctx.Calm o :=
  (h.queued o op hop hin).resolve_right not_mem_nil

/-- Nothing is left unplaced: a tensor is a source, or is written by an operation whose inputs come
before it. -/
theorem Inferring.allPlaced : ctx.AllPlaced := by
  have hb := h.sound.base
  intro t x ht
  induction t using Handle.induction generalizing x with
  | _ t ih =>
    rcases hb.sequential.source_or_written hb.wellFormed ht with hsrc | ⟨o, op, hop, rfl⟩
    · exact h.sources t hsrc
    · have hin : ∀ x ∈ op.inputs, ctx.placements.get? x ≠ none := by
        intro x hx
        obtain ⟨y, hy⟩ := hb.wellFormed.input_known hop hx
        exact ih x (hb.sequential.input_lt hop hx) y hy
      have hplanned := (h.sound.consistent.op hop).resolve_left fun hnone =>
        (h.calm hop hin).planned hnone.1
      grind [PlannedAt.decision]

theorem Inferring.recorded {x : Tensor} (ht : ctx.cloned.tensors.get? t = some x) :
    ∃ g, ctx.gaps.get? t = some g :=
  Option.ne_none_iff_exists'.1 (h.gapped t (h.allPlaced t x ht))

theorem Inferring.solves : ctx.Solves ctx.gapOf := by
  refine solves_of_balanced h.sound (fun t x d _ hd => h.sound.gapped.gapOf_untiled t hd)
    fun o op plan hop hplan => ?_
  refine (h.calm hop fun x hx => ?_).balanced hop hplan
  obtain ⟨y, hy⟩ := h.sound.base.wellFormed.input_known hop hx
  exact h.allPlaced x y hy

/-- Inference plans what planning in order of creation plans. -/
theorem Inferring.extends_planned (hp : planned.Consistent) (hb : planned.Base) :
    planned.Extends ctx :=
  hp.extends hb h.sound.consistent h.allPlaced h.frame.limit h.frame.cloned h.frame.axes
    h.frame.grid

theorem Inferring.isLeastSolution (hp : planned.Consistent) (hb : planned.Base) :
    planned.IsLeastSolution ctx.gapOf :=
  ⟨h.solves.of_extends (h.extends_planned hp hb), h.below⟩

end Ended

end Context

end CanvasFusion
