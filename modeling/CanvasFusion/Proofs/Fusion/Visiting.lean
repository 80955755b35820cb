import CanvasFusion.Proofs.Fusion.Raising

/-!
# Visits

A visit plans its operation if that is still to be done, raises the inputs on the canvas to the gap
the operation needs, and hands the gap that follows on to the output.

**Theorem (visitOp_spec).** A visit leaves its operation *calm*, that is planned and balanced, or
changes one of its inputs by a backward pass. Operations that were calm stay so or read a tensor the
visit reports. No gap exceeds that of a solution. A visit fails only for one backward pass too many.

Where no two operations share an input on the canvas, raising a gap asks for no more than keeps
every operation balanced. If all that is planned is calm, then it is so again after the first visit
of an operation (`Visited.calmed`), and no later visit makes a backward pass.
-/

namespace CanvasFusion

open GapRule Pass Pair Table Bool

namespace Context

variable {ctx ctx' ctx'' : Context} {op : Operation} {o : OpId} {t x : TensorId}
  {plan : FusedPlan} {σ : TensorId → Pair Nat} {need gap : Pair Nat}

/-- The operation is planned, and balanced if it is on the canvas. -/
structure Calm (ctx : Context) (o : OpId) : Prop where
  planned : ctx.plans.get? o ≠ none
  balanced : ∀ {op plan}, ctx.cloned.ops.get? o = some op →
    ctx.plans.get? o = some (.fused plan) → ctx.Balanced op plan ctx.gapOf

/-- Every operation that is planned is calm. -/
def AllCalm (ctx : Context) : Prop := ∀ o, ctx.plans.get? o ≠ none → ctx.Calm o

/-- No tensor is an input on the canvas of two operations. -/
def Unshared (ctx : Context) : Prop := ∀ {o o' op op' plan plan' x},
  ctx.cloned.ops.get? o = some op → ctx.cloned.ops.get? o' = some op' →
  ctx.plans.get? o = some (.fused plan) → ctx.plans.get? o' = some (.fused plan') →
  x ∈ gappedInputs op plan → x ∈ gappedInputs op' plan' → o = o'

/-- All that is planned but the operation itself is calm and does not read its output, which has no
gap so far. -/
structure CalmBut (ctx : Context) (o : OpId) (op : Operation) : Prop where
  calm : ∀ {o'}, o' ≠ o → ctx.plans.get? o' ≠ none → ctx.Calm o'
  unread : ∀ {o' op'}, o' ≠ o → ctx.plans.get? o' ≠ none → ctx.cloned.ops.get? o' = some op' →
    op.output ∉ op'.inputs
  ungapped : ctx.gaps.get? op.output = none

/-! ## Sums of gaps -/

theorem totalGap_le (h : ctx.Below σ τ) : ctx.totalGap σ ≤ ctx.totalGap τ := by
  refine List.sum_le_sum fun t ht => ?_
  obtain ⟨x, hx⟩ := exists_get? (mem_handles.1 ht)
  exact Nat.add_le_add (h t x .first hx) (h t x .second hx)

theorem totalGap_lt (h : ctx.Below σ τ) {y : Tensor} (ht : ctx.cloned.tensors.get? t = some y)
    {d : Dim} (hlt : (σ t).get d < (τ t).get d) : ctx.totalGap σ < ctx.totalGap τ := by
  refine List.sum_lt_sum _ _ (fun u hu => ?_) ⟨t, mem_handles.2 (lt_of_get? ht), ?_⟩
  · obtain ⟨x, hx⟩ := exists_get? (mem_handles.1 hu)
    exact Nat.add_le_add (h u x .first hx) (h u x .second hx)
  · have h₁ : (σ t).first ≤ (τ t).first := h t y .first ht
    have h₂ : (σ t).second ≤ (τ t).second := h t y .second ht
    cases d with
    | first =>
      have : (σ t).first < (τ t).first := hlt
      omega
    | second =>
      have : (σ t).second < (τ t).second := hlt
      omega

/-! ## What an operation needs -/

/-- The gap of the output when the inputs have the needed one. -/
def outputGap (ctx : Context) (plan : FusedPlan) (need : Pair Nat) : Pair Nat :=
  .ofFn fun d => if ctx.grid.isTiled d then (plan.rules.get d).after (need.get d) else 0

namespace NeededBy

variable {d : Dim}

section

variable (h : ctx.NeededBy op plan need)

include h

theorem tiled (hd : ctx.grid.isTiled d = true) :
    Needed (plan.rules.get d) ((gappedInputs op plan).map fun x => (ctx.gapOf x).get d)
      ((ctx.gaps.get? op.output).map (·.get d)) (need.get d) := by
  have h' := h d
  rwa [if_pos hd] at h'

theorem untiled (hd : ctx.grid.isTiled d = false) : need.get d = 0 := by
  have h' := h d
  rwa [hd] at h'

theorem le (hs : ctx.Sound) (hx : x ∈ gappedInputs op plan) (d : Dim) :
    (ctx.gapOf x).get d ≤ need.get d := by
  cases hd : ctx.grid.isTiled d with
  | false => simp [hs.gapped.gapOf_untiled x hd]
  | true => exact (h.tiled hd).le _ (List.mem_map_of_mem hx)

/-- The output keeps at least the gap it has. -/
theorem le_output (hs : ctx.Sound) (d : Dim) :
    (ctx.gapOf op.output).get d ≤ (ctx.outputGap plan need).get d := by
  cases hd : ctx.grid.isTiled d with
  | false => simp [hs.gapped.gapOf_untiled op.output hd]
  | true =>
    rw [outputGap, ofFn_get, if_pos hd]
    cases hg : ctx.gaps.get? op.output with
    | none =>
      have hzero : (ctx.gapOf op.output).get d = 0 := by
        rw [gapOf, hg]
        cases d <;> rfl
      grind
    | some g =>
      rw [gapOf_eq hg]
      exact (h.tiled hd).reaches _ (by rw [hg]; rfl)

/-- A balanced assignment above the gaps so far gives the inputs at least what is needed. -/
theorem le_balanced (hd : ctx.grid.isTiled d = true) (hbal : ctx.Balanced op plan σ)
    (hle : ∀ x ∈ gappedInputs op plan, (ctx.gapOf x).get d ≤ (σ x).get d)
    (hout : (ctx.gapOf op.output).get d ≤ (σ op.output).get d) :
    ∃ g, (∀ x ∈ gappedInputs op plan, (σ x).get d = g) ∧
      (σ op.output).get d = (plan.rules.get d).after g ∧ need.get d ≤ g := by
  obtain ⟨g, hg, hadm, hafter⟩ := hbal d hd
  refine ⟨g, hg, hafter, (h.tiled hd).least g ?_ hadm ?_⟩
  · grind
  · grind [Option.map_eq_some_iff, gapOf_eq]

/-- A solution above the gaps so far has at least the needed gap at the inputs, and what follows
from it at the output. -/
theorem le_solution (hs : ctx.Sound) (hop : ctx.cloned.ops.get? o = some op)
    (hplan : ctx.plans.get? o = some (.fused plan)) (hσ : ctx.Solves σ)
    (hbelow : ctx.Below ctx.gapOf σ) (d : Dim) :
    (∀ x ∈ gappedInputs op plan, need.get d ≤ (σ x).get d) ∧
      (ctx.outputGap plan need).get d ≤ (σ op.output).get d := by
  rw [outputGap, ofFn_get]
  cases hd : ctx.grid.isTiled d with
  | false => simp [h.untiled hd]
  | true =>
    have hwf := hs.base.wellFormed
    obtain ⟨g, hg, hafter, hle⟩ := h.le_balanced hd (hσ.balanced hs hop hplan)
      (fun x hx => by
        obtain ⟨y, hy⟩ := hwf.input_known hop (mem_inputs_of_gapped hx)
        exact hbelow x y d hy)
      (by
        obtain ⟨y, hy⟩ := hwf.output_known hop
        exact hbelow _ y d hy)
    refine ⟨fun x hx => (hg x hx).symm ▸ hle, ?_⟩
    rw [if_pos rfl, hafter]
    exact after_mono _ hle

/-- A balanced operation needs what it has. -/
theorem eq_of_balanced (hs : ctx.Sound) (hbal : ctx.Balanced op plan ctx.gapOf) :
    (∀ x ∈ gappedInputs op plan, ctx.gapOf x = need) ∧
      ctx.gapOf op.output = ctx.outputGap plan need := by
  constructor
  · intro x hx
    refine ext_get fun d => Nat.le_antisymm (h.le hs hx d) ?_
    cases hd : ctx.grid.isTiled d with
    | false => simp [h.untiled hd]
    | true =>
      obtain ⟨g, hg, -, hle⟩ := h.le_balanced hd hbal (fun _ _ => Nat.le_refl _)
        (Nat.le_refl _)
      exact (hg x hx).symm ▸ hle
  · refine ext_get fun d => Nat.le_antisymm (h.le_output hs d) ?_
    rw [outputGap, ofFn_get]
    cases hd : ctx.grid.isTiled d with
    | false => simp
    | true =>
      obtain ⟨g, -, hafter, hle⟩ := h.le_balanced hd hbal (fun _ _ => Nat.le_refl _)
        (Nat.le_refl _)
      rw [if_pos rfl, hafter]
      exact after_mono _ hle

end

end NeededBy

/-! ## The inputs of the operation -/

/-- One backward pass too many: some input has less than the operation needs. -/
structure Exceeds (ctx : Context) (op : Operation) (plan : FusedPlan) (e : FusionError) : Prop where
  error : e = .diverged ctx.maxBackwardPasses
  passes : ctx.maxBackwardPasses < ctx.counters.backwardPasses + 1
  small : ∃ need, ctx.NeededBy op plan need ∧
    ∃ x ∈ gappedInputs op plan, ∃ d, (ctx.gapOf x).get d < need.get d

theorem forwardGap_ok (hs : ctx.Sound) (hop : ctx.cloned.ops.get? o = some op)
    (hplan : ctx.plans.get? o = some (.fused plan)) (need : Pair Nat) :
    ctx.forwardGap plan need = .ok (ctx.outputGap plan need) := by
  refine ofFnM_eq_ok.2 fun d => ?_
  rw [outputGap, ofFn_get]
  cases hd : ctx.grid.isTiled d with
  | false => rfl
  | true =>
    simp only [Bool.not_true, Bool.false_eq_true, if_false, if_true, hs.base.limit]
    exact forward_ok ((hs.soundPlan hop hplan).valid d) _

theorem after_reconcile (hs : ctx.Sound) (hop : ctx.cloned.ops.get? o = some op)
    (hplan : ctx.plans.get? o = some (.fused plan))
    (hin : ∀ x ∈ op.inputs, ctx.placements.get? x ≠ none) (hg : ctx.GappedBelow op.output.index) :
    After (reconcile op plan) ctx
      (fun r ctx' => ∃ need, ctx.NeededBy op plan need ∧
        RaisedInputs ctx op.output.index need (gappedInputs op plan) r.1 ctx' ∧
        r.2 = ctx.outputGap plan need)
      (fun e _ => ctx.Exceeds op plan e) := by
  have hlt : ∀ x ∈ gappedInputs op plan, x.index < op.output.index ∧
      ctx.placements.get? x ≠ none := fun x hx =>
    ⟨hs.base.sequential.input_lt hop (mem_inputs_of_gapped hx), hin x (mem_inputs_of_gapped hx)⟩
  have hgaps : ∀ x ∈ gappedInputs op plan, ctx.gaps.get? x ≠ none := fun x hx =>
    hg x (hlt x hx).1 (hlt x hx).2
  obtain ⟨need, hneed, hspec⟩ := neededGap_spec hs hop hplan hgaps
  have hdepth : op.output.index ≤ ctx.cloned.tensors.size + 1 := by
    obtain ⟨y, hy⟩ := hs.base.wellFormed.output_known hop
    have := lt_of_get? hy
    omega
  unfold reconcile
  refine .bind (.check_fault (hs.soundPlan hop hplan).mapM_entry ?_)
  refine .bind (.get ?_)
  refine .bind (.check_ok hneed ?_)
  refine .bind ((after_raiseInputs hdepth (gappedInputs op plan) hs hg hlt
    (fun d hd => NeededBy.untiled hspec hd)).imp (fun v ctx' hraised => ?_)
    fun e _ ⟨he, hover, hsmall⟩ => ⟨he, hover, need, hspec, hsmall⟩)
  -- The gap of the output depends on the grid and the limit only, which no pass changes.
  have hforward : ctx'.forwardGap plan need = .ok (ctx.outputGap plan need) := by
    have h := forwardGap_ok hs hop hplan need
    cases hraised with
    | none => exact h
    | counted _ _ _ hall =>
      unfold Context.forwardGap at h ⊢
      rw [hall.raised.frame]
      exact h
  refine .bind (.ask_fault hforward ?_)
  exact .pure ⟨need, hspec, hraised, rfl⟩

/-! ## The output of the operation -/

/-- What raising the gap of a placed tensor does, on its own. -/
structure Merged (ctx : Context) (t : TensorId) (gap : Pair Nat) (grew : Bool) (ctx' : Context) :
    Prop where
  frame : ctx' = { ctx with gaps := ctx'.gaps, canvasShapes := ctx'.canvasShapes }
  sound : ctx'.Sound
  recorded : ∀ u, ctx'.gaps.get? u ≠ none ↔ u = t ∨ ctx.gaps.get? u ≠ none
  gapOf : ∀ u, ctx'.gapOf u = if t = u then (ctx.gapOf t).zipWith max gap else ctx.gapOf u
  changed : ctx'.gapOf t ≠ ctx.gapOf t → grew = true
  new : grew = true → ctx.gaps.get? t ≠ some ((ctx.gapOf t).zipWith max gap)
  balanced : ∀ {op plan}, t ≠ op.output → ctx.Balanced op plan ctx.gapOf →
    ctx.Balanced op plan ctx'.gapOf ∨
      ∃ x ∈ gappedInputs op plan, ctx.gapOf x ≠ ctx'.gapOf x

theorem after_merge (hs : ctx.Sound) (ht : ctx.placements.get? t ≠ none)
    (h0 : ∀ d, ctx.grid.isTiled d = false → gap.get d = 0) {E : FusionError → Context → Prop} :
    After (Pass.mergeGap t gap) ctx (fun grew ctx' => Merged ctx t gap grew ctx') E := by
  obtain ⟨y, hy⟩ := hs.consistent.known ht
  refine after_mergeGap hs.base hs.placed hy (fun hsame => ?_) fun s hnew hshape => ?_
  · have heq : (ctx.gapOf t).zipWith max gap = ctx.gapOf t := by rw [← mergedGap_eq, gapOf_eq hsame]
    refine ⟨rfl, hs, fun u => ?_, fun u => ?_, fun h => absurd rfl h,
      fun h => (by cases h), fun _ h => .inl h⟩
    · grind
    · grind
  · rw [mergedGap_eq] at hshape hnew ⊢
    refine ⟨rfl, hs.gapping ht hshape (hs.gapped.merged_untiled h0), fun u => ?_,
      fun u => gapOf_gapping .., fun _ => rfl, fun _ => hnew,
      fun hout hbal => hbal.after_gapping hout⟩
    rw [gapping_gaps]
    grind

theorem Merged.mono {grew : Bool} (h : Merged ctx t gap grew ctx') (u : TensorId) (d : Dim) :
    (ctx.gapOf u).get d ≤ (ctx'.gapOf u).get d := by
  rw [h.gapOf]
  split_ifs with hu
  · exact hu ▸ le_max _ gap d
  · exact Nat.le_refl _

/-- A calm operation stays so when the gap of another one's output grows, unless it reads that. -/
theorem Merged.calm {grew : Bool} (h : Merged ctx t gap grew ctx')
    (hop : ctx.cloned.ops.get? o = some op) (hout : t ≠ op.output)
    (hin : t ∈ op.inputs → grew = false) (ho : ctx.Calm o) : ctx'.Calm o := by
  have hplans : ctx'.plans = ctx.plans := by rw [h.frame]
  refine ⟨hplans ▸ ho.planned, fun {op' plan} hop' hplan => ?_⟩
  have hcloned : ctx'.cloned = ctx.cloned := by rw [h.frame]
  rw [hcloned] at hop'
  cases hop.symm.trans hop'
  rcases h.balanced hout (ho.balanced hop (hplans ▸ hplan)) with hbal | ⟨x, hx, hne⟩
  · unfold Balanced at hbal ⊢
    rwa [h.frame]
  · have hxt : t = x := by
      by_contra hxt
      rw [h.gapOf, if_neg hxt] at hne
      exact hne rfl
    subst hxt
    rw [h.changed (Ne.symm hne)] at hin
    cases hin (mem_inputs_of_gapped hx)

/-! ## A whole visit -/

/-- A visit found its operation planned, or planned it. -/
structure Entered (ctx : Context) (o : OpId) (op : Operation) (isFirst : Bool) (plan : Plan)
    (ctx' : Context) : Prop where
  sound : ctx'.Sound
  extends_ : ctx.Extends ctx'
  frame : Frame ctx ctx'
  passes : ctx'.counters.backwardPasses = ctx.counters.backwardPasses
  gaps : ctx'.gaps = ctx.gaps
  plan_eq : ctx'.plans.get? o = some plan
  /-- Only the output may be placed now, and it is what the visit reports. -/
  placed : ∀ u, ctx'.placements.get? u ≠ none →
    ctx.placements.get? u ≠ none ∨ u = op.output ∧ isFirst = true
  output : ctx'.placements.get? op.output ≠ none
  first : isFirst = true → ctx.plans.get? o = none
  unplanned : ∀ {o'}, o' ≠ o → ctx'.plans.get? o' = ctx.plans.get? o'
  warned : ctx.Warned → ctx'.Warned

/-- What a visit leads to. -/
structure Visited (ctx : Context) (o : OpId) (op : Operation) (v : Visit) (ctx' : Context) :
    Prop where
  sound : ctx'.Sound
  frame : Frame ctx ctx'
  extends_ : ctx.Extends ctx'
  gapped : ∀ u, ctx'.placements.get? u ≠ none → ctx'.gaps.get? u ≠ none
  new : ∀ u, ctx'.placements.get? u ≠ none → ctx.placements.get? u ≠ none ∨ u ∈ v.changed
  mono : ∀ u d, (ctx.gapOf u).get d ≤ (ctx'.gapOf u).get d
  own : ctx'.Calm o ∨ v.raised = true ∧ ∃ x ∈ op.inputs, x ∈ v.changed
  others : ∀ o', o' ≠ o → ctx.Calm o' → ctx'.Calm o' ∨
    ∃ op', ctx.cloned.ops.get? o' = some op' ∧ ∃ x ∈ op'.inputs, x ∈ v.changed
  quiet : ctx.Calm o → v = ⟨[], false⟩
  planned : ∀ {o'}, ctx'.plans.get? o' ≠ none ↔ o' = o ∨ ctx.plans.get? o' ≠ none
  calmed : ctx.plans.get? o = none → ctx'.Unshared → ctx.AllCalm → ctx'.AllCalm
  forward : v.raised = false → v.changed = [] ∨ v.changed = [op.output]
  below : ∀ σ, ctx'.Solves σ → ctx.Below ctx.gapOf σ → ctx.Below ctx'.gapOf σ
  passes : ctx'.counters.backwardPasses = ctx.counters.backwardPasses + v.raised.toNat
  growth : v.raised = true → ctx'.counters.backwardPasses ≤ ctx.maxBackwardPasses ∧
    ctx.totalGap ctx.gapOf < ctx.totalGap ctx'.gapOf
  warned : ctx.Warned → ctx'.Warned

/-- A visit failed: no solution of what is planned is within the passes that were left. -/
def Failed (ctx : Context) (o : OpId) (e : FusionError) : Prop :=
  e = .diverged ctx.maxBackwardPasses ∧ ctx.maxBackwardPasses < ctx.counters.backwardPasses + 1 ∧
    ¬ ctx.Calm o ∧ ∃ ctx', ctx'.Sound ∧ Frame ctx ctx' ∧ ∀ σ, ctx'.Solves σ →
      ctx.Below ctx.gapOf σ →
      ctx.totalGap ctx.gapOf < ctx.totalGap σ

/-- What a visit does once its operation has been planned. -/
def serve (o : OpId) (op : Operation) (isFirst : Bool) : Pass Visit := do
  let (visit, gap) ← match ← ask (·.plan o) with
    | .batched => pure (⟨[], false⟩, .both 0)
    | .fused plan => reconcile op plan
  let changed ← Pass.mergeGap op.output gap
  if isFirst || changed then pure { visit with changed := visit.changed ++ [op.output] }
  else pure visit

section Visiting

variable {isFirst : Bool} {p : Plan} {v : Visit} {ctx₁ ctx₂ : Context} {grew : Bool}
  {changed : List TensorId} {o' : OpId}

theorem Entered.gapOf (h : Entered ctx o op isFirst p ctx₁) : ctx₁.gapOf = ctx.gapOf := by
  grind [gapOf, gaps]

/-- Operations that are calm stay so when another one is planned. -/
theorem Entered.calm (h : Entered ctx o op isFirst p ctx₁) (ho : ctx.Calm o') : ctx₁.Calm o' := by
  have hplan := h.extends_.plan ho.planned
  refine ⟨hplan ▸ ho.planned, fun hop hp => ?_⟩
  have hbal := ho.balanced (h.frame.cloned ▸ hop) (hplan ▸ hp)
  unfold Balanced at hbal ⊢
  rw [h.frame.grid, h.gapOf]
  exact hbal

/-- The tensors a visit reports in the end. -/
def reported (v : Visit) (isFirst grew : Bool) (t : TensorId) : List TensorId :=
  if isFirst || grew then v.changed ++ [t] else v.changed

theorem mem_reported {u : TensorId} : u ∈ reported v isFirst grew t ↔
    u ∈ v.changed ∨ u = t ∧ (isFirst = true ∨ grew = true) := by
  unfold reported
  grind

/-- An operation other than the visited one that was calm is so after the gaps have moved, or reads
a tensor that is reported. -/
theorem calm_of_merged (hs : ctx.Sound) (hop : ctx.cloned.ops.get? o = some op)
    (hr : Raised none ctx ctx₁ changed) (hm : Merged ctx₁ op.output gap grew ctx₂) (hne : o' ≠ o)
    (ho : ctx.Calm o') :
    ctx₂.Calm o' ∨ ∃ op', ctx.cloned.ops.get? o' = some op' ∧
      ∃ x ∈ op'.inputs, x ∈ changed ∨ x = op.output ∧ grew = true := by
  obtain ⟨op', hop'⟩ := hs.consistent.op_known ho.planned
  by_cases hread : ∃ x ∈ op'.inputs, x ∈ changed ∨ x = op.output ∧ grew = true
  · exact .inr ⟨op', hop', hread⟩
  · push Not at hread
    have hop₁ : ctx₁.cloned.ops.get? o' = some op' := hr.cloned.symm ▸ hop'
    refine .inl (hm.calm hop₁ ?_ (fun hx => eq_false_iff.2 ((hread _ hx).2 rfl)) ?_)
    · exact fun h => hne (hs.base.wellFormed.op_eq_of_output hop' hop h.symm)
    · refine ⟨hr.plans.symm ▸ ho.planned, fun {op'' plan} hop'' hplan => ?_⟩
      cases hop₁.symm.trans hop''
      rw [hr.plans] at hplan
      rcases hr.balanced hs hop' hplan (by simp) (ho.balanced hop' hplan) with h | ⟨x, hx, h⟩
      · unfold Balanced at h ⊢
        rwa [hr.grid]
      · exact absurd (hr.changed x h) (hread x (mem_inputs_of_gapped hx)).1

/-- The gaps on the inputs of a planned operation moved; the one of its output is still to be
recorded. -/
structure Moved (ctx : Context) (o : OpId) (op : Operation) (v : Visit) (gap : Pair Nat)
    (ctx' : Context) : Prop where
  raised : ∃ counters, Raised none { ctx with counters := counters } ctx' v.changed ∧
    counters = { ctx.counters with
      backwardPasses := ctx.counters.backwardPasses + v.raised.toNat }
  output : ctx'.gapOf op.output = ctx.gapOf op.output
  untiled : ∀ d, ctx.grid.isTiled d = false → gap.get d = 0
  below : ∀ σ, ctx.Solves σ → ctx.Below ctx.gapOf σ → ctx.Below ctx'.gapOf σ ∧
    ∀ d, gap.get d ≤ (σ op.output).get d
  still : v.raised = false → v.changed = []
  balanced : v.raised = false → ∀ {grew ctx''}, Merged ctx' op.output gap grew ctx'' → ctx''.Calm o
  counted : v.raised = true → ctx'.counters.backwardPasses ≤ ctx.maxBackwardPasses ∧
    ∃ x ∈ op.inputs, x ∈ v.changed ∧ ∃ d, (ctx.gapOf x).get d < (ctx'.gapOf x).get d
  quiet : ctx.Calm o → v = ⟨[], false⟩ ∧ ∀ d, gap.get d ≤ (ctx.gapOf op.output).get d
  calmed : ctx.Unshared → ctx.CalmBut o op → ∀ {grew ctx''}, Merged ctx' op.output gap grew ctx'' →
    ctx''.AllCalm

/-- All is calm once the operation itself is. -/
theorem Merged.allCalm (hm : Merged ctx₁ op.output gap grew ctx₂) (hs : ctx.Sound)
    (hop : ctx.cloned.ops.get? o = some op) (hr : Raised none ctx ctx₁ changed)
    (hbut : ctx.CalmBut o op) (hcalm : ∀ {o'}, o' ≠ o → ctx.plans.get? o' ≠ none → ctx₁.Calm o')
    (ho : ctx₂.Calm o) : ctx₂.AllCalm := by
  intro o' hplanned
  by_cases hne : o' = o
  · exact hne ▸ ho
  · have hplans : ctx₂.plans = ctx.plans := by rw [hm.frame, hr.frame]
    rw [hplans] at hplanned
    obtain ⟨op', hop'⟩ := hs.consistent.op_known hplanned
    grind [calm, Raised.cloned, Graph.WellFormed.op_eq_of_output, Base.wellFormed, Sound.base,
      CalmBut.unread]

/-- Nothing moves around a batched operation. -/
theorem moved_batched (hs : ctx.Sound) (hop : ctx.cloned.ops.get? o = some op)
    (hplan : ctx.plans.get? o = some .batched) : Moved ctx o op ⟨[], false⟩ (.both 0) ctx := by
  have hbatched : ∀ {grew ctx''}, Merged ctx op.output (.both 0) grew ctx'' → ctx''.Calm o := by
    intro grew ctx'' hm
    have hplan'' : ctx''.plans.get? o = some .batched := by
      rw [hm.frame]
      exact hplan
    exact ⟨by simp [hplan''], fun _ h => by rw [hplan''] at h; cases h⟩
  exact
    { raised := ⟨ctx.counters, .refl hs, rfl⟩
      output := rfl
      untiled := fun d _ => by cases d <;> rfl
      below := fun _ _ hbelow => ⟨hbelow, fun d => by cases d <;> exact Nat.zero_le _⟩
      still := fun _ => rfl
      balanced := fun _ _ _ hm => hbatched hm
      counted := fun h => by cases h
      quiet := fun _ => ⟨rfl, fun d => by cases d <;> exact Nat.zero_le _⟩
      calmed := fun _ hbut _ _ hm => hm.allCalm hs hop (.refl hs) hbut hbut.calm (hbatched hm) }

section Fused

variable (hs : ctx.Sound) (hop : ctx.cloned.ops.get? o = some op)
  (hplan : ctx.plans.get? o = some (.fused plan))

include hs hop hplan

/-- The gaps around an operation on the canvas, when its inputs have what it needs. -/
theorem calm_of_needed (hneed : ctx.NeededBy op plan need) (hr : Raised none ctx ctx₁ changed)
    (hin : ∀ x ∈ gappedInputs op plan, ∀ d, ctx.grid.isTiled d = true →
      (ctx₁.gapOf x).get d = need.get d)
    (hout : ctx₁.gapOf op.output = ctx.gapOf op.output)
    (hm : Merged ctx₁ op.output (ctx.outputGap plan need) grew ctx₂) : ctx₂.Calm o := by
  have hgrid : ctx₂.grid = ctx.grid := by rw [hm.frame, hr.frame]
  have hcloned : ctx₂.cloned = ctx.cloned := by rw [hm.frame, hr.frame]
  have hplans : ctx₂.plans = ctx.plans := by rw [hm.frame, hr.frame]
  refine ⟨by simp [hplans, hplan], fun {op' plan'} hop' hplan' => ?_⟩
  rw [hcloned] at hop'
  rw [hplans] at hplan'
  cases hop.symm.trans hop'
  cases hplan.symm.trans hplan'
  intro d hd
  rw [hgrid] at hd
  refine ⟨need.get d, fun x hx => ?_, (hneed.tiled hd).admitted, ?_⟩
  · have hne : op.output ≠ x := by
      rintro rfl
      exact absurd (hs.base.sequential.input_lt hop (mem_inputs_of_gapped hx)) (Nat.lt_irrefl _)
    rw [hm.gapOf, if_neg hne]
    exact hin x hx d hd
  · rw [hm.gapOf, if_pos rfl, zipWith_get, hout, Nat.max_eq_right (hneed.le_output hs d),
      outputGap, ofFn_get, if_pos hd]

section Unshared

variable {bound : Nat} {done : List TensorId} (hun : ctx.Unshared)

include hun

/-- An operation other than the one that raises its inputs stays balanced: its inputs grow to just
what its output asks for. -/
theorem Unshared.balanced (hall : RaisedAll ctx bound gap done changed ctx₁)
    (hdone : ∀ x ∈ gappedInputs op plan, x ∉ done) (hbal : ctx.Balanced op plan ctx.gapOf) :
    ctx.Balanced op plan ctx₁.gapOf := by
  intro d hd
  obtain ⟨g, hg, hadm, hafter⟩ := hbal d hd
  have hvalid := (hs.soundPlan hop hplan).valid d
  have hmono := hall.raised.mono op.output d
  have hback : (plan.rules.get d).before ((ctx.gapOf op.output).get d) = g := by
    rw [hafter, before_after hvalid hadm]
  have hreach : (plan.rules.get d).after ((plan.rules.get d).admitted 0) ≤
      (ctx₁.gapOf op.output).get d := by
    refine Nat.le_trans ?_ hmono
    rw [hafter, ← hadm]
    exact after_mono _ (admitted_mono hvalid (Nat.zero_le g))
  refine ⟨(plan.rules.get d).before ((ctx₁.gapOf op.output).get d),
    fun x hx => Nat.le_antisymm ?_ ?_,
    admitted_before hvalid hreach, (after_before hvalid hreach).symm⟩
  · rcases hall.asked x d with hle | ⟨hx', -⟩ | ⟨o', op', plan', hop', hplan', hx', hle⟩
    · refine hle.trans ?_
      rw [hg x hx, ← hback]
      exact before_mono _ hmono
    · exact absurd hx' (hdone x hx)
    · rw [hall.raised.cloned] at hop'
      rw [hall.raised.plans] at hplan'
      cases hun hop' hop hplan' hplan hx' hx
      grind
  · by_cases heq : ctx.gapOf op.output = ctx₁.gapOf op.output
    · rw [← heq, hback, ← hg x hx]
      exact hall.raised.mono x d
    · exact hall.raised.pulled (by simp) hop hplan heq x hx d

/-- The inputs of the operation that raises them grow to just what it needs, when its output has no
gap so far. -/
theorem Unshared.eq_need (hneed : ctx.NeededBy op plan need)
    (hall : RaisedAll ctx op.output.index need (gappedInputs op plan) changed ctx₁)
    (hnone : ctx.gaps.get? op.output = none) (hx : x ∈ gappedInputs op plan) {d : Dim}
    (hd : ctx.grid.isTiled d = true) : (ctx₁.gapOf x).get d = need.get d := by
  refine Nat.le_antisymm ?_ (hall.le x hx d)
  rcases hall.asked x d with hle | ⟨-, hle⟩ | ⟨o', op', plan', hop', hplan', hx', hle⟩
  · exact hle.trans (hneed.le hs hx d)
  · exact hle
  · rw [hall.raised.cloned] at hop'
    rw [hall.raised.plans] at hplan'
    cases hun hop' hop hplan' hplan hx' hx
    cases hop.symm.trans hop'
    cases hplan.symm.trans hplan'
    have hout : (ctx₁.gapOf op.output).get d = 0 := by
      rw [hall.above _ (Nat.le_refl _), gapOf, hnone]
      cases d <;> rfl
    have hvalid := (hs.soundPlan hop hplan).valid d
    calc (ctx₁.gapOf x).get d ≤ (plan.rules.get d).before 0 := hout ▸ hle
      _ ≤ (plan.rules.get d).before ((plan.rules.get d).after (need.get d)) :=
        before_mono _ (Nat.zero_le _)
      _ = need.get d := before_after hvalid (hneed.tiled hd).admitted

/-- The first visit of an operation on the canvas leaves everything calm. -/
theorem Unshared.allCalm (hneed : ctx.NeededBy op plan need)
    (hall : RaisedAll ctx op.output.index need (gappedInputs op plan) changed ctx₁)
    (hbut : ctx.CalmBut o op)
    (hm : Merged ctx₁ op.output (ctx.outputGap plan need) grew ctx₂) : ctx₂.AllCalm := by
  refine hm.allCalm hs hop hall.raised hbut (fun {o'} hne hplanned => ?_)
    (calm_of_needed hs hop hplan hneed hall.raised
      (fun x hx d hd => hun.eq_need hs hop hplan hneed hall hbut.ungapped hx hd)
      (hall.above _ (Nat.le_refl _)) hm)
  have ho := hbut.calm hne hplanned
  refine ⟨hall.raised.plans.symm ▸ hplanned, fun {op' plan'} hop' hplan' => ?_⟩
  rw [hall.raised.cloned] at hop'
  rw [hall.raised.plans] at hplan'
  have hbal := hun.balanced hs hop' hplan' hall
    (fun x hx hx' => hne (hun hop' hop hplan' hplan hx hx')) (ho.balanced hop' hplan')
  unfold Balanced at hbal ⊢
  rwa [hall.raised.grid]

end Unshared

theorem moved_fused (hneed : ctx.NeededBy op plan need)
    (hr : RaisedInputs ctx op.output.index need (gappedInputs op plan) v ctx') :
    Moved ctx o op v (ctx.outputGap plan need) ctx' := by
  have huntiled : ∀ d, ctx.grid.isTiled d = false → (ctx.outputGap plan need).get d = 0 := by
    intro d hd
    rw [outputGap, ofFn_get, if_neg (by simp [hd])]
  have hquiet : ctx.Calm o → (∀ x ∈ gappedInputs op plan, ctx.gapOf x = need) ∧
      ctx.gapOf op.output = ctx.outputGap plan need := fun ho =>
    hneed.eq_of_balanced hs (ho.balanced hop hplan)
  cases hr with
  | none hle =>
    exact
      { raised := ⟨ctx.counters, .refl hs, rfl⟩
        output := rfl
        untiled := huntiled
        below := fun σ hσ hbelow =>
          ⟨hbelow, fun d => (hneed.le_solution hs hop hplan hσ hbelow d).2⟩
        still := fun _ => rfl
        balanced := fun _ _ _ hm => calm_of_needed hs hop hplan hneed (.refl hs)
          (fun x hx d _ => Nat.le_antisymm (hneed.le hs hx d) (hle x hx d)) rfl hm
        counted := fun h => by cases h
        quiet := fun ho => ⟨rfl, fun d => Nat.le_of_eq (by rw [(hquiet ho).2])⟩
        calmed := fun hun hbut _ _ hm => hun.allCalm hs hop hplan hneed (.of_le hs hle) hbut hm }
  | @counted changed counters _ hsmall hcount hmax hall =>
    obtain ⟨x, hx, d, hlt⟩ := hsmall
    have hgrew : (ctx.gapOf x).get d < (ctx'.gapOf x).get d :=
      Nat.lt_of_lt_of_le hlt (hall.le x hx d)
    exact
      { raised := ⟨counters, hall.raised, hcount⟩
        output := hall.above op.output (Nat.le_refl _)
        untiled := huntiled
        below := fun σ hσ hbelow => by
          have hsol := hneed.le_solution hs hop hplan hσ hbelow
          refine ⟨hall.below σ ?_ hbelow fun y hy d => (hsol d).1 y hy, fun d => (hsol d).2⟩
          exact { hσ with }
        still := fun h => by cases h
        balanced := fun h => by cases h
        counted := fun _ => by
          refine ⟨?_, x, mem_inputs_of_gapped hx, hall.raised.changed x fun heq => ?_, d, hgrew⟩
          · rw [hall.raised.frame]
            exact hmax
          · have heq' : ctx.gapOf x = ctx'.gapOf x := heq
            grind
        quiet := fun ho => by
          grind
        calmed := fun hun hbut _ _ hm => by
          have hun' : ({ ctx with counters := counters } : Context).Unshared := hun
          exact hun'.allCalm (hs.recount ctx.warnings counters) hop hplan hneed hall
            ⟨fun hne ho => ⟨ho, (hbut.calm hne ho).balanced⟩, hbut.unread, hbut.ungapped⟩ hm }

end Fused

section Steps

variable (hs : ctx.Sound) (hop : ctx.cloned.ops.get? o = some op)
  (hg : ∀ u, ctx.placements.get? u ≠ none → ctx.gaps.get? u ≠ none)

include hs hop hg

/-- Assembling a visit from its steps. -/
theorem visited_of_steps (he : Entered ctx o op isFirst p ctx₁)
    (hmv : Moved ctx₁ o op v gap ctx₂) (hm : Merged ctx₂ op.output gap grew ctx') :
    Visited ctx o op ⟨reported v isFirst grew op.output, v.raised⟩ ctx' := by
  obtain ⟨counters, hr, hcount⟩ := hmv.raised
  have hop₁ : ctx₁.cloned.ops.get? o = some op := he.frame.cloned.symm ▸ hop
  have hframe₁ : Frame ctx₁ ctx' := ⟨by rw [hm.frame, hr.frame, hcount], by rw [hm.frame, hr.frame]⟩
  have hframe : Frame ctx ctx' := he.frame.trans hframe₁
  have hplacements : ctx'.placements = ctx₁.placements := by rw [hm.frame, hr.frame]
  have hplans : ctx'.plans = ctx₁.plans := by rw [hm.frame, hr.frame]
  have hext : ctx₁.Extends ctx' := ⟨hframe₁.limit, hframe₁.cloned, hframe₁.axes, hframe₁.grid,
    fun _ => by rw [hplacements], fun _ => by rw [hm.frame, hr.frame], fun _ => by rw [hplans]⟩
  have hbp : ctx'.counters = counters := by rw [hm.frame, hr.frame]
  have hmono : ∀ u d, (ctx.gapOf u).get d ≤ (ctx'.gapOf u).get d := by
    intro u d
    rw [← he.gapOf]
    exact Nat.le_trans (hr.mono u d) (hm.mono u d)
  refine
    { sound := hm.sound
      frame := hframe
      extends_ := he.extends_.trans hext
      gapped := fun u hu => ?_
      new := fun u hu => ?_
      mono := hmono
      own := ?_
      others := fun o' hne ho => ?_
      quiet := fun ho => ?_
      planned := fun {o'} => ?_
      calmed := fun hnew hun hcalm => ?_
      forward := fun h => ?_
      below := fun σ hσ hbelow => ?_
      passes := by rw [hbp, hcount, he.passes]
      growth := fun h => ?_
      warned := fun h => (he.warned h).keep he.sound.consistent hext (by rw [hm.frame, hr.frame])
        hplans }
  · rw [hplacements] at hu
    refine (hm.recorded u).2 ?_
    rcases he.placed u hu with hu | ⟨rfl, -⟩
    · exact .inr (mt (hr.recorded u).1 (by rw [he.gaps]; exact hg u hu))
    · exact .inl rfl
  · grind [mem_reported, Entered.placed]
  · cases hraised : v.raised with
    | false => exact .inl (hmv.balanced hraised hm)
    | true =>
      obtain ⟨-, x, hx, hchanged, -⟩ := hmv.counted hraised
      exact .inr ⟨rfl, x, hx, mem_reported.2 (.inl hchanged)⟩
  · have hs₁ := he.sound.recount ctx₁.warnings counters
    have ho₁ : ({ ctx₁ with counters := counters } : Context).Calm o' :=
      ⟨(he.calm ho).planned, (he.calm ho).balanced⟩
    refine (calm_of_merged hs₁ hop₁ hr hm hne ho₁).imp_right ?_
    grind [mem_reported, Frame.cloned, Entered.frame]
  · -- The output of a calm operation has the gap its inputs lead to, so nothing is recorded.
    obtain ⟨rfl, hle⟩ := hmv.quiet (he.calm ho)
    have hfirst : isFirst = false := by
      rw [← not_eq_true]
      exact fun h => ho.planned (he.first h)
    have hgrew : grew = false := by
      rw [← not_eq_true]
      intro h
      refine hm.new h ?_
      have hplaced : ctx.placements.get? op.output ≠ none := by
        grind [Entered.placed, Entered.output]
      have hrec : ctx₂.gaps.get? op.output ≠ none :=
        mt (hr.recorded _).1 (by rw [he.gaps]; exact hg _ hplaced)
      obtain ⟨g, hgap⟩ := Option.ne_none_iff_exists'.1 hrec
      rw [hgap, gapOf_eq hgap]
      congr 1
      refine ext_get fun d => ?_
      rw [zipWith_get, ← gapOf_eq hgap, hmv.output]
      exact (Nat.max_eq_left (hle d)).symm
    simp [reported, hfirst, hgrew]
  · rw [hplans]
    by_cases hne : o' = o
    · simp [hne, he.plan_eq]
    · simp [hne, he.unplanned hne]
  · -- The output was not placed before, so nothing that was planned reads it.
    have hunplaced : ctx.placements.get? op.output = none := by
      grind [Consistent.op, Sound.consistent, PlannedAt.decision]
    refine hmv.calmed (fun hop hop' hplan hplan' => hun ?_ ?_ ?_ ?_) ⟨fun hne ho => ?_, ?_, ?_⟩ hm
    · rwa [hframe₁.cloned]
    · rwa [hframe₁.cloned]
    · rwa [hplans]
    · rwa [hplans]
    · rw [he.unplanned hne] at ho
      exact he.calm (hcalm _ ho)
    · intro o' op' hne ho hop' hread
      rw [he.unplanned hne] at ho
      rw [he.frame.cloned] at hop'
      exact ((hs.consistent.op hop').resolve_left fun h => ho h.1).inputs _ hread hunplaced
    · rw [he.gaps]
      exact not_not.1 fun h => hs.gapped.placed h hunplaced
  · grind [reported, Moved.still]
  · have hσ₁ := hσ.of_extends hext
    have hbelow₁ : ctx₁.Below ctx₁.gapOf σ := fun u y d hu => by
      rw [he.gapOf]
      exact hbelow u y d (he.frame.cloned ▸ hu)
    obtain ⟨hbelow₂, hout⟩ := hmv.below σ hσ₁ hbelow₁
    intro u y d hu
    have hu₁ : ctx₁.cloned.tensors.get? u = some y := he.frame.cloned.symm ▸ hu
    rw [hm.gapOf]
    split_ifs with heq
    · rw [zipWith_get]
      subst heq
      exact Nat.max_le.2 ⟨hbelow₂ _ y d hu₁, hout d⟩
    · exact hbelow₂ u y d hu₁
  · obtain ⟨hmax, x, hx, -, d, hlt⟩ := hmv.counted h
    have hcounters : ctx'.counters = ctx₂.counters := by rw [hm.frame]
    refine ⟨by rw [hcounters, ← he.frame.maxBackwardPasses]; exact hmax, ?_⟩
    obtain ⟨y, hy⟩ := he.sound.base.wellFormed.input_known hop₁ hx
    refine totalGap_lt (fun u _ d _ => hmono u d) (he.frame.cloned ▸ hy) (d := d) ?_
    rw [← he.gapOf]
    exact Nat.lt_of_lt_of_le hlt (hm.mono x d)

omit hs hg in
/-- A visit that needs one backward pass too many has no solution within the passes. -/
theorem failed_of_exceeds (he : Entered ctx o op isFirst (.fused plan) ctx₁) {e : FusionError}
    (h : ctx₁.Exceeds op plan e) : ctx.Failed o e := by
  obtain ⟨need, hneed, x, hx, d, hlt⟩ := h.small
  have hop₁ : ctx₁.cloned.ops.get? o = some op := he.frame.cloned.symm ▸ hop
  refine ⟨by rw [← he.frame.maxBackwardPasses]; exact h.error, ?_, fun ho => ?_, ctx₁, he.sound,
    he.frame, fun σ hσ hbelow => ?_⟩
  · rw [← he.frame.maxBackwardPasses, ← he.passes]
    exact h.passes
  · have hbal := (he.calm ho).balanced hop₁ he.plan_eq
    rw [(hneed.eq_of_balanced he.sound hbal).1 x hx] at hlt
    exact Nat.lt_irrefl _ hlt
  · obtain ⟨y, hy⟩ := he.sound.base.wellFormed.input_known hop₁ (mem_inputs_of_gapped hx)
    have hbelow₁ : ctx₁.Below ctx₁.gapOf σ := fun u z d hu => by
      rw [he.gapOf]
      exact hbelow u z d (he.frame.cloned ▸ hu)
    have hle := (hneed.le_solution he.sound hop₁ he.plan_eq hσ hbelow₁ d).1 x hx
    refine totalGap_lt hbelow (he.frame.cloned ▸ hy) (d := d) ?_
    rw [← he.gapOf]
    exact Nat.lt_of_lt_of_le hlt hle

variable (hin : ∀ x ∈ op.inputs, ctx.placements.get? x ≠ none)

include hin

theorem after_entered (he : Entered ctx o op isFirst p ctx₁) : After (serve o op isFirst) ctx₁
    (fun v ctx' => Visited ctx o op v ctx') (fun e _ => ctx.Failed o e) := by
  have hop₁ : ctx₁.cloned.ops.get? o = some op := he.frame.cloned.symm ▸ hop
  have hin₁ : ∀ x ∈ op.inputs, ctx₁.placements.get? x ≠ none := fun x hx => by
    rw [he.extends_.placement (hin x hx)]
    exact hin x hx
  have hbelow : ctx₁.GappedBelow op.output.index := by
    intro u hu hplaced
    rw [he.gaps]
    rcases he.placed u hplaced with h | ⟨rfl, -⟩
    · exact hg u h
    · exact absurd hu (Nat.lt_irrefl _)
  have hask : ctx₁.plan o = .ok p := by
    unfold Context.plan
    rw [he.plan_eq]
    rfl
  refine .bind (.ask_ok hask ?_)
  have hfinish : ∀ v gap ctx₂, Moved ctx₁ o op v gap ctx₂ → After (do
      let changed ← Pass.mergeGap op.output gap
      if isFirst || changed then pure { v with changed := v.changed ++ [op.output] }
      else pure v : Pass Visit) ctx₂
      (fun v ctx' => Visited ctx o op v ctx') (fun e _ => ctx.Failed o e) := by
    intro v gap ctx₂ hmv
    obtain ⟨counters, hr, -⟩ := hmv.raised
    have hplaced : ctx₂.placements.get? op.output ≠ none := by
      rw [hr.placements]
      exact he.output
    refine .then_ (after_merge hr.sound hplaced
      (by rw [hr.grid]; exact hmv.untiled)) fun grew ctx' hm => ?_
    have hv := visited_of_steps hs hop hg he hmv hm
    unfold reported at hv
    refine .ite (fun h => .pure ?_) fun h => .pure ?_
    · rwa [if_pos h] at hv
    · rwa [if_neg h] at hv
  cases p with
  | batched => exact .bind (.pure (hfinish _ _ _ (moved_batched he.sound hop₁ he.plan_eq)))
  | fused plan =>
    refine .bind ((after_reconcile he.sound hop₁ he.plan_eq hin₁ hbelow).imp ?_ ?_)
    · rintro ⟨v, gap⟩ ctx₂ ⟨need, hneed, hr, hgap⟩
      refine hfinish v gap ctx₂ ?_
      grind [moved_fused, Entered.sound, Entered.plan_eq]
    · exact fun e _ h => failed_of_exceeds hop he h

/-- **Visiting an operation** whose inputs are placed. -/
theorem visitOp_spec : After (visitOp o) ctx (fun v ctx' => Visited ctx o op v ctx')
    (fun e _ => ctx.Failed o e) := by
  unfold visitOp
  refine .bind (.modify ?_)
  refine .bind (.ask_ok (lift_graph_eq_ok.2 (Graph.op_eq_ok.2 hop)) ?_)
  refine .bind (.get ?_)
  have hs₁ := hs.recount ctx.warnings
    { ctx.counters with forwardVisits := ctx.counters.forwardVisits + 1 }
  cases hnew : ctx.plans.get? o with
  | none =>
    have hfirst : (!ctx.plans.contains o) = true := by simp [Ledger.contains, hnew]
    simp only [hfirst, if_true]
    refine .bind (after_place hs₁ hop hin hnew fun plan ctx₁ hp => ?_)
    refine after_entered (p := plan) hs hop hg hin ?_
    exact
      { sound := hp.sound
        extends_ := (extends_recount ctx _ _).trans hp.extends_
        frame := (⟨rfl, rfl⟩ : Frame ctx { ctx with counters := { ctx.counters with
          forwardVisits := ctx.counters.forwardVisits + 1 } }).trans hp.frame
        passes := by rw [hp.counters]
        gaps := hp.gaps
        plan_eq := by rw [hp.plans, if_pos rfl]
        placed := fun u hu => by
          rw [hp.placements] at hu
          grind
        output := by simp [hp.placements]
        first := fun _ => hnew
        unplanned := fun hne => by rw [hp.plans, if_neg (Ne.symm hne)]
        warned := fun h => hp.warned (h.keep hs.consistent (extends_recount ctx _ _) rfl rfl) }
  | some plan =>
    have hfirst : (!ctx.plans.contains o) = false := by simp [Ledger.contains, hnew]
    simp only [hfirst, Bool.false_eq_true, if_false]
    refine after_entered (p := plan) hs hop hg hin ?_
    have hplanned := (hs.consistent.op hop).resolve_left fun h => by
      grind
    obtain ⟨dec, -, -, hplace⟩ := hplanned.decision
    exact
      { sound := hs₁
        extends_ := extends_recount ctx _ _
        frame := ⟨rfl, rfl⟩
        passes := rfl
        gaps := rfl
        plan_eq := hnew
        placed := fun _ hu => .inl hu
        output := by simp [hplace]
        first := fun h => by cases h
        unplanned := fun _ => rfl
        warned := fun h => h.keep hs.consistent (extends_recount ctx _ _) rfl rfl }

end Steps

end Visiting

end Context

end CanvasFusion
