import CanvasFusion.Proofs.Fusion.Consistency

/-!
# Gap assignments

An assignment of a gap to every tensor *solves* a planned working copy when there are no gaps along
dimensions with one tile and every operation on the canvas is *balanced*: its inputs on the canvas
have one gap, its rule admits that gap, and its output has the gap the rule gives.

`neededGap` is the least gap that an operation can be balanced with, given what its inputs and its
output have already (`neededGap_spec`). It is what makes gap inference find the least solution.
-/

namespace CanvasFusion

open GapRule List Bool

namespace Context

variable {ctx ctx' : Context} {op : Operation} {o : OpId} {t x : TensorId} {plan : FusedPlan}
  {σ : TensorId → Pair Nat} {rule : GapRule} {gaps : List Nat}

/-- The inputs of an operation that its plan puts on the canvas. -/
def gappedInputs (op : Operation) (plan : FusedPlan) : List TensorId :=
  plan.gapped.filterMap (op.inputs[·]?)

/-- The gap recorded for a tensor; none is zero. -/
def gapOf (ctx : Context) (t : TensorId) : Pair Nat := (ctx.gaps.get? t).getD (.both 0)

/-- A gap for every tensor that satisfies the equations of all operations on the canvas. -/
structure Solves (ctx : Context) (σ : TensorId → Pair Nat) : Prop where
  untiled : ∀ {t x} d, ctx.cloned.tensors.get? t = some x → ctx.grid.isTiled d = false →
    (σ t).get d = 0
  /-- The inputs on the canvas have one gap. -/
  equal : ∀ {o op plan} d, ctx.cloned.ops.get? o = some op →
    ctx.plans.get? o = some (.fused plan) → ctx.grid.isTiled d = true →
    ∀ x ∈ gappedInputs op plan, ∀ y ∈ gappedInputs op plan, (σ x).get d = (σ y).get d
  /-- The rule needs no larger gap. -/
  admissible : ∀ {o op plan} d, ctx.cloned.ops.get? o = some op →
    ctx.plans.get? o = some (.fused plan) → ctx.grid.isTiled d = true →
    ∀ x ∈ gappedInputs op plan,
      (plan.rules.get d).admissible .unbounded ((σ x).get d) = .ok ((σ x).get d)
  /-- The rule gives the gap of the output. -/
  forward : ∀ {o op plan} d, ctx.cloned.ops.get? o = some op →
    ctx.plans.get? o = some (.fused plan) → ctx.grid.isTiled d = true →
    ∀ x ∈ gappedInputs op plan,
      (plan.rules.get d).forward .unbounded ((σ x).get d) = .ok ((σ op.output).get d)

/-- An assignment is at or below another one on the tensors of the working copy. -/
def Below (ctx : Context) (σ τ : TensorId → Pair Nat) : Prop :=
  ∀ t x d, ctx.cloned.tensors.get? t = some x → (σ t).get d ≤ (τ t).get d

/-- A solution at or below every other. -/
def IsLeastSolution (ctx : Context) (σ : TensorId → Pair Nat) : Prop :=
  ctx.Solves σ ∧ ∀ τ, ctx.Solves τ → ctx.Below σ τ

/-- The sum of all gaps, over both dimensions. -/
def totalGap (ctx : Context) (σ : TensorId → Pair Nat) : Nat :=
  (ctx.cloned.tensors.handles.map fun t => (σ t).first + (σ t).second).sum

/-- The equations of one operation on the canvas, in terms of the one gap of its inputs. -/
def Balanced (ctx : Context) (op : Operation) (plan : FusedPlan) (σ : TensorId → Pair Nat) : Prop :=
  ∀ d, ctx.grid.isTiled d = true → ∃ g, (∀ x ∈ gappedInputs op plan, (σ x).get d = g) ∧
    (plan.rules.get d).admitted g = g ∧ (σ op.output).get d = (plan.rules.get d).after g

/-! ## Plans that are recorded -/

theorem mem_gappedInputs : x ∈ gappedInputs op plan ↔ ∃ i ∈ plan.gapped, op.inputs[i]? = some x :=
  mem_filterMap

theorem mem_inputs_of_gapped (h : x ∈ gappedInputs op plan) : x ∈ op.inputs := by
  grind [mem_gappedInputs]

theorem SoundPlan.gappedInputs_ne (h : ctx.SoundPlan op plan) : gappedInputs op plan ≠ [] := by
  obtain ⟨i, hi⟩ := exists_mem_of_ne_nil _ h.gapped_ne
  exact ne_nil_of_mem
    (mem_gappedInputs.2 ⟨i, hi, getElem?_eq_getElem (h.gapped_lt i hi)⟩)

theorem SoundPlan.mapM_entry (h : ctx.SoundPlan op plan) :
    plan.gapped.mapM (Size.entry op.inputs) = .ok (gappedInputs op plan) := by
  unfold gappedInputs
  have hlt := h.gapped_lt
  clear h
  generalize plan.gapped = is at hlt
  induction is with
  | nil => rfl
  | cons i rest ih =>
    have hi : i < op.inputs.length := hlt i mem_cons_self
    have hget := getElem?_eq_getElem hi
    rw [mapM_cons, entry_eq_ok.2 hget, bind_ok,
      ih fun j hj => hlt j (mem_cons_of_mem i hj), filterMap_cons, hget]
    rfl

section Recorded

variable (hs : ctx.Sound) (hop : ctx.cloned.ops.get? o = some op)
  (hplan : ctx.plans.get? o = some (.fused plan))

include hs hop hplan

/-- A recorded plan has its meaning in the state that records it. -/
theorem Sound.planFor : ctx.PlanFor op plan := by
  have hplanned := (hs.consistent.op hop).resolve_left fun h => by
    grind
  obtain ⟨dec, hdec, hplan', -⟩ := hplanned.decision
  obtain ⟨dec', hdec', hmeans⟩ := decision_decides hs.base hs.placed hop
  cases hdec.symm.trans hdec'
  refine hmeans plan ?_
  have heq := Option.some.inj (hplan'.symm.trans hplan)
  cases dec with
  | batched | unbalanced r => cases heq
  | fused p =>
    cases heq
    rfl

theorem Sound.soundPlan : ctx.SoundPlan op plan :=
  (hs.planFor hop hplan).sound hs.base hop

theorem Solves.balanced (hσ : ctx.Solves σ) : ctx.Balanced op plan σ := by
  intro d hd
  have hsp := hs.soundPlan hop hplan
  obtain ⟨x, hx⟩ := exists_mem_of_ne_nil _ hsp.gappedInputs_ne
  refine ⟨(σ x).get d, fun y hy => hσ.equal d hop hplan hd y hy x hx, ?_, ?_⟩
  · grind [admissible_ok, admissible, SoundPlan.valid]
  · have h := hσ.forward d hop hplan hd x hx
    rw [forward_ok (hsp.valid d)] at h
    exact (Except.ok.inj h).symm

end Recorded

theorem solves_of_balanced (hs : ctx.Sound)
    (h0 : ∀ t x d, ctx.cloned.tensors.get? t = some x → ctx.grid.isTiled d = false →
      (σ t).get d = 0)
    (hbal : ∀ o op plan, ctx.cloned.ops.get? o = some op →
      ctx.plans.get? o = some (.fused plan) → ctx.Balanced op plan σ) : ctx.Solves σ where
  untiled {t x} d hx hd := h0 t x d hx hd
  equal {o op plan} d hop hplan hd x hx y hy := by
    obtain ⟨g, hg, -⟩ := hbal o op plan hop hplan d hd
    rw [hg x hx, hg y hy]
  admissible {o op plan} d hop hplan hd x hx := by
    obtain ⟨g, hg, hadm, -⟩ := hbal o op plan hop hplan d hd
    rw [hg x hx, admissible_ok ((hs.soundPlan hop hplan).valid d), hadm]
  forward {o op plan} d hop hplan hd x hx := by
    obtain ⟨g, hg, -, hafter⟩ := hbal o op plan hop hplan d hd
    rw [hg x hx, forward_ok ((hs.soundPlan hop hplan).valid d), hafter]

/-- What solves a working copy with all its plans solves it with some of them. -/
theorem Solves.of_extends (h : ctx.Extends ctx') (hσ : ctx'.Solves σ) : ctx.Solves σ := by
  have hplan : ∀ {o plan}, ctx.plans.get? o = some (.fused plan) →
      ctx'.plans.get? o = some (.fused plan) := fun ho => by
    rw [h.plan (by simp [ho]), ho]
  refine ⟨fun d hx hd => ?_, fun d hop ho hd => ?_, fun d hop ho hd => ?_, fun d hop ho hd => ?_⟩
  · exact hσ.untiled d (h.cloned ▸ hx) (h.grid ▸ hd)
  · exact hσ.equal d (h.cloned ▸ hop) (hplan ho) (h.grid ▸ hd)
  · exact hσ.admissible d (h.cloned ▸ hop) (hplan ho) (h.grid ▸ hd)
  · exact hσ.forward d (h.cloned ▸ hop) (hplan ho) (h.grid ▸ hd)

/-! ## The needed gap -/

/-- `need` is, along one dimension, the least admitted gap at or above the gaps of the inputs whose
output gap is at or above the current one. -/
structure Needed (rule : GapRule) (gaps : List Nat) (current : Option Nat) (need : Nat) : Prop where
  le : ∀ g ∈ gaps, g ≤ need
  admitted : rule.admitted need = need
  reaches : ∀ c, current = some c → c ≤ rule.after need
  least : ∀ h, (∀ g ∈ gaps, g ≤ h) → rule.admitted h = h →
    (∀ c, current = some c → c ≤ rule.after h) → need ≤ h

theorem foldl_max_spec (hr : rule.Valid) (hne : gaps ≠ []) :
    Needed rule gaps none (gaps.foldl (fun need g => max need (rule.admitted g)) 0) := by
  have hfold : ∀ (gs : List Nat) (start : Nat), ∃ need,
      gs.foldl (fun need g => max need (rule.admitted g)) start = need ∧ start ≤ need ∧
      (∀ g ∈ gs, rule.admitted g ≤ need) ∧ (need = start ∨ ∃ g ∈ gs, need = rule.admitted g) := by
    intro gs
    induction gs with
    | nil => grind
    | cons g rest ih =>
      intro start
      obtain ⟨need, hneed, hstart, hall, hattained⟩ := ih (max start (rule.admitted g))
      refine ⟨need, hneed, Nat.le_trans (Nat.le_max_left _ _) hstart, fun g' hg' => ?_, ?_⟩
      · grind
      · grind
  obtain ⟨need, hneed, -, hall, hattained⟩ := hfold gaps 0
  rw [hneed]
  -- The fold is attained at one of the gaps, even where it is zero.
  obtain ⟨g, hg, hfg⟩ : ∃ g ∈ gaps, need = rule.admitted g := by
    rcases hattained with h | h
    · obtain ⟨g, hg⟩ := exists_mem_of_ne_nil _ hne
      grind
    · exact h
  refine ⟨fun g' hg' => Nat.le_trans (le_admitted hr g') (hall g' hg'), ?_,
    fun c hc => (by cases hc), fun h hle hadm _ => ?_⟩
  · rw [hfg]
    exact admitted_idem hr g
  · rw [hfg, ← hadm]
    exact admitted_mono hr (hle g hg)

/-- Taking the output's gap into account, as `neededGap` does. -/
theorem Needed.with_current (hr : rule.Valid) {need : Nat}
    (h : Needed rule gaps none need) (c : Nat) :
    Needed rule gaps (some c) (if rule.after need < c then rule.before c else need) := by
  split_ifs with hlt
  · have hreach : rule.after (rule.admitted 0) ≤ c := by
      have h0 : rule.admitted 0 ≤ need := by
        rw [← h.admitted]
        exact admitted_mono hr (Nat.zero_le _)
      exact Nat.le_trans (after_mono rule h0) (Nat.le_of_lt hlt)
    have hneed : need ≤ rule.before c := by
      rw [← before_after hr h.admitted]
      exact before_mono rule (Nat.le_of_lt hlt)
    refine ⟨fun g hg => Nat.le_trans (h.le g hg) hneed, admitted_before hr hreach, ?_, ?_⟩
    · rintro _ ⟨⟩
      exact Nat.le_of_eq (after_before hr hreach).symm
    · intro h' hle hadm hc
      rw [← before_after hr hadm]
      exact before_mono rule (hc c rfl)
  · refine ⟨h.le, h.admitted, ?_, fun h' hle hadm _ => h.least h' hle hadm fun c hc => by cases hc⟩
    grind

/-- `need` is the least gap the operation can be balanced with, given the gaps so far. -/
def NeededBy (ctx : Context) (op : Operation) (plan : FusedPlan) (need : Pair Nat) : Prop :=
  ∀ d, if ctx.grid.isTiled d then
    Needed (plan.rules.get d) ((gappedInputs op plan).map fun x => (ctx.gapOf x).get d)
      ((ctx.gaps.get? op.output).map (·.get d)) (need.get d)
  else need.get d = 0

/-- **What an operation needs is the least gap it can be balanced with.** -/
theorem neededGap_spec (hs : ctx.Sound) (hop : ctx.cloned.ops.get? o = some op)
    (hplan : ctx.plans.get? o = some (.fused plan))
    (hgaps : ∀ x ∈ gappedInputs op plan, ctx.gaps.get? x ≠ none) :
    ∃ need, ctx.neededGap plan (gappedInputs op plan) (ctx.gaps.get? op.output) = .ok need ∧
      ctx.NeededBy op plan need := by
  have hsp := hs.soundPlan hop hplan
  have hgap : ∀ x ∈ gappedInputs op plan, ctx.gap x = .ok (ctx.gapOf x) := by
    intro x hx
    obtain ⟨g, hg⟩ := Option.ne_none_iff_exists'.1 (hgaps x hx)
    simp only [gap, entry, gapOf, hg, Option.getD_some]
  unfold neededGap NeededBy
  generalize ctx.gaps.get? op.output = current
  refine exists_ofFnM (P := fun d n => if ctx.grid.isTiled d then
    Needed (plan.rules.get d) ((gappedInputs op plan).map fun x => (ctx.gapOf x).get d)
      (current.map (·.get d)) n else n = 0) fun d => ?_
  by_cases hd : ctx.grid.isTiled d = true
  · have hfold : ((gappedInputs op plan).foldlM (fun need x => do
        let gap ← ctx.gap x
        let least ← (plan.rules.get d).admissible ctx.limit (gap.get d)
        pure (max need least)) 0 : Except FusionError Nat) =
        .ok (((gappedInputs op plan).map fun x => (ctx.gapOf x).get d).foldl
          (fun need g => max need ((plan.rules.get d).admitted g)) 0) := by
      rw [foldl_map]
      refine foldlM_ok (fun need x hx => ?_) 0
      rw [hgap x hx, bind_ok, hs.base.limit, admissible_ok (hsp.valid d)]
      rfl
    have hne : (gappedInputs op plan).map (fun x => (ctx.gapOf x).get d) ≠ [] := by
      simpa using hsp.gappedInputs_ne
    have hneed := foldl_max_spec (hsp.valid d) hne
    simp only [hd, Bool.not_true, false_eq_true, if_false, if_true, hfold, bind_ok]
    cases current with
    | none => exact ⟨_, rfl, hneed⟩
    | some c =>
      simp only [hs.base.limit, forward_ok (hsp.valid d), lift_fault_ok, bind_ok,
        backward_ok]
      have h := hneed.with_current (hsp.valid d) (c.get d)
      split_ifs at h ⊢
      · exact ⟨_, rfl, h⟩
      · exact ⟨_, rfl, h⟩
  · rw [not_eq_true] at hd
    simp only [hd, Bool.not_false, if_true, false_eq_true, if_false]
    exact ⟨0, rfl, rfl⟩

end Context

end CanvasFusion
