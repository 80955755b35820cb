import CanvasFusion.Fusion.GapInference
import CanvasFusion.Proofs.Fusion.Placement
import CanvasFusion.Proofs.Graph.Isomorphism

/-!
# Plans do not depend on gaps

A state is *consistent* when whatever is placed or planned in it is so as planning decides in this
very state. Placing a source and planning an operation keep a state consistent, and two consistent
states of working copies that match agree on what both have placed (`Consistent.agree`). So the
plans of a working copy depend neither on gaps nor on the order in which gap inference comes to plan
the operations, and not on the numbers of tensors and operations either. `Pass.planAll` is the plain
way to get them: every operation once, in the order of creation.
-/

namespace CanvasFusion

open Ledger List Pass Table

/-- The plan a decision leads to. -/
def Decision.plan : Decision → Plan
  | .batched => .batched
  | .unbalanced _ => .batched
  | .fused plan => .fused plan

/-- The warning a decision about an operation comes with. -/
def Decision.warnings (o : OpId) (op : Operation) : Decision → List Warning
  | .unbalanced reason => [.unbalancedBranches o op.kind.name reason.message]
  | _ => []

def Warning.isUnsupported : Warning → Bool
  | .unsupportedOperator .. => true
  | .unbalancedBranches .. => false

theorem Decision.filter_warnings (dec : Decision) (o : OpId) (op : Operation) :
    (dec.warnings o op).filter Warning.isUnsupported = [] := by
  cases dec <;> rfl

namespace Context

variable {ctx ctx' ctx'' : Context} {op : Operation} {o : OpId} {t x : TensorId} {map : AxisMap}
  {m : Option AxisMap} {p : Placement} {gap : Pair Nat} {Q : Unit → Context → Prop}
  {E : FusionError → Context → Prop} {y : Tensor} {s : Shape}

/-! ## Consistent states -/

theorem Base.congr (hb : ctx.Base) (hlimit : ctx'.limit = ctx.limit)
    (hcloned : ctx'.cloned = ctx.cloned)
    (haxes : ctx'.axes = ctx.axes) (hgrid : ctx'.grid = ctx.grid) : ctx'.Base :=
  ⟨hlimit.trans hb.limit, hcloned ▸ hb.wellFormed, hcloned ▸ hb.sequential, haxes ▸ hb.axes,
    hgrid ▸ hb.tiles_pos, hgrid ▸ hb.count_eq⟩

/-- The operation is planned, as planning decides in this very state. -/
structure PlannedAt (ctx : Context) (o : OpId) (op : Operation) : Prop where
  inputs : ∀ t ∈ op.inputs, ctx.placements.get? t ≠ none
  axisMap : ctx.outputAxisMap op = .ok (ctx.axisMaps.get? op.output)
  decision : ∃ dec, ctx.decision op = .ok dec ∧ ctx.plans.get? o = some dec.plan ∧
    ctx.placements.get? op.output = some dec.plan.placement

/-- Whatever is placed or planned is so as planning decides in this very state. -/
structure Consistent (ctx : Context) : Prop where
  known : ∀ {t}, ctx.placements.get? t ≠ none → ∃ x, ctx.cloned.tensors.get? t = some x
  op_known : ∀ {o}, ctx.plans.get? o ≠ none → ∃ op, ctx.cloned.ops.get? o = some op
  unplaced : ∀ {t}, ctx.placements.get? t = none → ctx.axisMaps.get? t = none
  source : ∀ {t}, t ∈ ctx.cloned.sources → ctx.placements.get? t ≠ none →
    ctx.placements.get? t = some .batched ∧
      ctx.axisMaps.get? t = if (ctx.cloned.shapeOf t).length = 4 then some ctx.axes else none
  op : ∀ {o op}, ctx.cloned.ops.get? o = some op →
    (ctx.plans.get? o = none ∧ ctx.placements.get? op.output = none) ∨ ctx.PlannedAt o op

/-- `ctx'` has all placements, axis maps and plans of `ctx`, and maybe more. -/
structure Extends (ctx ctx' : Context) : Prop where
  limit : ctx'.limit = ctx.limit
  cloned : ctx'.cloned = ctx.cloned
  axes : ctx'.axes = ctx.axes
  grid : ctx'.grid = ctx.grid
  placement : ∀ {t}, ctx.placements.get? t ≠ none →
    ctx'.placements.get? t = ctx.placements.get? t
  axisMap : ∀ {t}, ctx.placements.get? t ≠ none → ctx'.axisMaps.get? t = ctx.axisMaps.get? t
  plan : ∀ {o}, ctx.plans.get? o ≠ none → ctx'.plans.get? o = ctx.plans.get? o

namespace Extends

theorem refl (ctx : Context) : Extends ctx ctx :=
  ⟨rfl, rfl, rfl, rfl, fun _ => rfl, fun _ => rfl, fun _ => rfl⟩

theorem trans (h : Extends ctx ctx') (h' : Extends ctx' ctx'') : Extends ctx ctx'' where
  limit := h'.limit.trans h.limit
  cloned := h'.cloned.trans h.cloned
  axes := h'.axes.trans h.axes
  grid := h'.grid.trans h.grid
  placement ht := by
    rw [← h.placement ht]
    grind [placement]
  axisMap ht := by
    rw [← h.axisMap ht]
    grind [axisMap, placement]
  plan ho := by
    rw [← h.plan ho]
    grind [plan]

theorem agreeOn (h : Extends ctx ctx') (hin : ∀ t ∈ op.inputs, ctx.placements.get? t ≠ none) :
    AgreeOn ctx' ctx op op :=
  ⟨h.limit, h.axes, h.grid, rfl, forall₂_same.2 fun t ht =>
    ⟨by rw [h.cloned], h.placement (hin t ht), h.axisMap (hin t ht)⟩, by rw [h.cloned]⟩

/-- Planning decides about an operation as it did when the operation was planned. -/
theorem decision (h : Extends ctx ctx') (ho : ctx.PlannedAt o op) :
    ctx'.decision op = ctx.decision op := by
  grind [decision_congr, PlannedAt.decision, agreeOn, PlannedAt.inputs, axisMap]

theorem plannedAt (h : Extends ctx ctx') (ho : ctx.PlannedAt o op) : ctx'.PlannedAt o op := by
  obtain ⟨dec, hdec, hplan, hplace⟩ := ho.decision
  have hout : ctx.placements.get? op.output ≠ none := by simp [hplace]
  have hag := h.agreeOn ho.inputs
  refine ⟨fun t ht => ?_, ?_, dec, ?_, ?_, ?_⟩
  · grind [placement, PlannedAt.inputs]
  · rw [outputAxisMap_congr hag, h.axisMap hout]
    exact ho.axisMap
  · rw [h.decision ho, hdec]
  · rw [h.plan (by simp [hplan]), hplan]
  · rw [h.placement hout, hplace]

theorem base (h : Extends ctx ctx') (hb : ctx.Base) : ctx'.Base :=
  hb.congr h.limit h.cloned h.axes h.grid

end Extends

/-- Planning finds that the inputs of the operation cannot share a canvas. -/
def Unbalanced (ctx : Context) (o : OpId) (name reason : String) : Prop :=
  ∃ op r, ctx.cloned.ops.get? o = some op ∧ ctx.decision op = .ok (.unbalanced r) ∧
    op.kind.name = name ∧ r.message = reason

theorem unbalanced_iff {dec : Decision} {name reason : String}
    (hop : ctx.cloned.ops.get? o = some op)
    (hdec : ctx.decision op = .ok dec) : ctx.Unbalanced o name reason ↔
      .unbalancedBranches o name reason ∈ dec.warnings o op := by
  constructor
  · rintro ⟨op', r, hop', hr, rfl, rfl⟩
    cases hop.symm.trans hop'
    cases hdec.symm.trans hr
    exact mem_singleton.2 rfl
  · intro hmem
    cases dec with
    | batched | fused plan => cases hmem
    | unbalanced r =>
      cases mem_singleton.1 hmem
      exact ⟨op, r, hop, hdec, rfl, rfl⟩

/-- The warnings about unbalanced branches are those of the operations that are planned. -/
def Warned (ctx : Context) : Prop :=
  ∀ o name reason, .unbalancedBranches o name reason ∈ ctx.warnings ↔
    ctx.plans.get? o ≠ none ∧ ctx.Unbalanced o name reason

/-- Warnings stay complete if those of newly planned operations join them. -/
theorem Warned.extends (h : ctx.Warned) (hc : ctx.Consistent) (hext : ctx.Extends ctx')
    (hnew : ∀ o name reason, .unbalancedBranches o name reason ∈ ctx'.warnings ↔
      .unbalancedBranches o name reason ∈ ctx.warnings ∨
        ctx.plans.get? o = none ∧ ctx'.plans.get? o ≠ none ∧ ctx'.Unbalanced o name reason) :
    ctx'.Warned := by
  intro o name reason
  rw [hnew, h]
  by_cases ho : ctx.plans.get? o = none
  · simp [ho]
  · obtain ⟨op, hop⟩ := hc.op_known ho
    have hplanned := (hc.op hop).resolve_left fun hnone => ho hnone.1
    have hop' : ctx'.cloned.ops.get? o = some op := hext.cloned ▸ hop
    obtain ⟨dec, hdec, -⟩ := hplanned.decision
    rw [unbalanced_iff hop hdec, unbalanced_iff hop' ((hext.decision hplanned).trans hdec),
      hext.plan ho]
    simp [ho]

/-- Nothing is planned, and there is nothing new to warn about. -/
theorem Warned.keep (h : ctx.Warned) (hc : ctx.Consistent) (hext : ctx.Extends ctx')
    (hwarnings : ctx'.warnings = ctx.warnings) (hplans : ctx'.plans = ctx.plans) : ctx'.Warned := by
  grind [Context.Warned.extends]

/-- Axis maps with that of one more tensor, if it has one. -/
def recordMap (maps : Ledger TensorId AxisMap) (t : TensorId) :
    Option AxisMap → Ledger TensorId AxisMap
  | none => maps
  | some map => maps.record t map

/-- The state after a tensor has been given a placement and maybe an axis map. -/
def placing (ctx : Context) (t : TensorId) (m : Option AxisMap) (p : Placement) : Context :=
  { ctx with
    axisMaps := recordMap ctx.axisMaps t m
    placements := ctx.placements.record t p }

@[simp] theorem placing_placements (ctx : Context) (t t' : TensorId) (m : Option AxisMap)
    (p : Placement) : (ctx.placing t m p).placements.get? t' =
      if t = t' then some p else ctx.placements.get? t' :=
  get?_record ..

theorem placing_axisMaps (h : ctx.axisMaps.get? t = none) (t' : TensorId) :
    (ctx.placing t m p).axisMaps.get? t' =
      if t = t' then m else ctx.axisMaps.get? t' := by
  cases m with
  | none => grind [placing, recordMap]
  | some map => exact get?_record ..

theorem extends_placing (hc : ctx.Consistent) (ht : ctx.placements.get? t = none) :
    Extends ctx (ctx.placing t m p) := by
  have hne : ∀ {t'}, ctx.placements.get? t' ≠ none → t ≠ t' := by grind
  refine ⟨rfl, rfl, rfl, rfl, fun h => ?_, fun h => ?_, fun _ => rfl⟩
  · rw [placing_placements, if_neg (hne h)]
  · rw [placing_axisMaps (hc.unplaced ht), if_neg (hne h)]

theorem Placed.placing (hp : ctx.Placed) (hnone : ctx.axisMaps.get? t = none)
    (hvalid : ∀ map, m = some map → map.Valid ∧ (ctx.cloned.shapeOf t).length = 4)
    (hcanvas : p = .canvas → ∃ map, m = some map ∧ (ctx.cloned.shapeOf t).extent map.batch =
      ctx.grid.count) :
    (ctx.placing t m p).Placed := by
  have hmaps := placing_axisMaps (m := m) (p := p) hnone
  refine ⟨?_, ?_, ?_⟩
  · grind [valid]
  · intro t' map h
    rw [hmaps] at h
    split_ifs at h with heq
    · exact heq ▸ (hvalid map h).2
    · exact hp.rank h
  · intro t' h
    unfold isCanvas at h
    rw [placing_placements] at h
    rw [hmaps]
    by_cases heq : t = t'
    · subst heq
      rw [if_pos rfl, decide_eq_true_eq] at h
      rw [if_pos rfl]
      exact hcanvas (Option.some.inj h)
    · rw [if_neg heq] at h
      rw [if_neg heq]
      exact hp.canvas h

/-- A state with one more tensor placed is consistent if that tensor is as planning decides. -/
theorem Consistent.place (hc : ctx.Consistent) (hext : ctx.Extends ctx')
    (hplaces : ∀ t', ctx'.placements.get? t' = if t = t' then some p else ctx.placements.get? t')
    (hmaps : ∀ t', ctx'.axisMaps.get? t' = if t = t' then m else ctx.axisMaps.get? t')
    (hplans : ∀ {o}, ctx'.plans.get? o ≠ none → ctx.plans.get? o ≠ none ∨
      ∃ op, ctx.cloned.ops.get? o = some op)
    (hknown : ∃ x, ctx.cloned.tensors.get? t = some x)
    (hsource : t ∈ ctx.cloned.sources → p = .batched ∧
      m = if (ctx.cloned.shapeOf t).length = 4 then some ctx.axes else none)
    (hop : ∀ {o op}, ctx.cloned.ops.get? o = some op → ctx.plans.get? o = none →
      ctx'.plans.get? o = none ∧ t ≠ op.output ∨ ctx'.PlannedAt o op) :
    ctx'.Consistent := by
  refine ⟨fun {t'} h => ?_, fun {o} h => ?_, fun {t'} h => ?_, fun {t'} hs h => ?_,
    fun {o op} h => ?_⟩
  · rw [hext.cloned]
    rw [hplaces] at h
    by_cases heq : t = t'
    · exact heq ▸ hknown
    · exact hc.known (by rwa [if_neg heq] at h)
  · rw [hext.cloned]
    exact (hplans h).elim hc.op_known id
  · rw [hplaces] at h
    split_ifs at h with heq
    rw [hmaps, if_neg heq]
    exact hc.unplaced h
  · rw [hext.cloned] at hs
    rw [hplaces] at h ⊢
    rw [hmaps, hext.cloned, hext.axes]
    by_cases heq : t = t'
    · grind
    · rw [if_neg heq] at h
      rw [if_neg heq, if_neg heq]
      exact hc.source hs h
  · grind [op, Extends.cloned, Extends.plannedAt]

/-- Placing a source as sources are placed keeps a state sound. -/
theorem consistent_placing_source (hb : ctx.Base) (hp : ctx.Placed) (hc : ctx.Consistent)
    (hsource : t ∈ ctx.cloned.sources) (ht : ctx.placements.get? t = none)
    (hm : m = if (ctx.cloned.shapeOf t).length = 4 then some ctx.axes else none) :
    (ctx.placing t m .batched).Placed ∧ (ctx.placing t m .batched).Consistent := by
  have hext := extends_placing hc (m := m) (p := .batched) ht
  have hmaps := placing_axisMaps (m := m) (p := .batched) (hc.unplaced ht)
  refine ⟨hp.placing (hc.unplaced ht) (fun map h => ?_) (fun h => (by cases h)),
    hc.place hext (placing_placements ctx t · m .batched) hmaps .inl ?_ (fun _ => ⟨rfl, hm⟩) ?_⟩
  · grind [Base.axes]
  · grind [Graph.WellFormed.mem_sources, Base.wellFormed]
  · intro o op hop hplan
    refine .inl ⟨hplan, ?_⟩
    rintro rfl
    exact hb.wellFormed.not_source_of_output hop hsource

section PlacingOutput

variable (hb : ctx.Base) (hp : ctx.Placed) (hc : ctx.Consistent)
  (hop : ctx.cloned.ops.get? o = some op) (hin : ∀ t ∈ op.inputs, ctx.placements.get? t ≠ none)
  (hnew : ctx.plans.get? o = none) (hm : ctx.outputAxisMap op = .ok m)
  {dec : Decision}

/-- The state after an operation has been planned and its output placed. -/
def planning (ctx : Context) (o : OpId) (op : Operation) (m : Option AxisMap) (plan : Plan) :
    Context :=
  { ctx.placing op.output m plan.placement with plans := ctx.plans.record o plan }

theorem planning_placements (plan : Plan) (t : TensorId) :
    (ctx.planning o op m plan).placements.get? t =
      if op.output = t then some plan.placement else ctx.placements.get? t :=
  placing_placements (m := m) ..

theorem planning_plans (plan : Plan) (o' : OpId) : (ctx.planning o op m plan).plans.get? o' =
    if o = o' then some plan else ctx.plans.get? o' :=
  get?_record ..

omit hb hp hin hm in
include hc hop hnew in
theorem unplaced_of_unplanned : ctx.placements.get? op.output = none := by
  grind [Consistent.op, PlannedAt.decision]

omit hb hp hin hm in
include hc hop hnew in
theorem extends_planning (plan : Plan) : ctx.Extends (ctx.planning o op m plan) := by
  have h := extends_placing hc (m := m) (p := plan.placement) (unplaced_of_unplanned hc hop hnew)
  refine ⟨rfl, rfl, rfl, rfl, h.placement, h.axisMap, fun {o'} ho' => ?_⟩
  have hoo : o ≠ o' := by grind
  exact (get?_record ..).trans (if_neg hoo)

include hb hp hc hop hin hnew hm

/-- An operation is planned in a state that has the axis map of its output. -/
theorem placed_before_decision : (ctx.placing op.output m .batched).Base ∧
    (ctx.placing op.output m .batched).Placed ∧
    (ctx.placing op.output m .batched).outputAxisMap op =
      .ok ((ctx.placing op.output m .batched).axisMaps.get? op.output) := by
  have hfree := unplaced_of_unplanned hc hop hnew
  have hext := extends_placing hc (m := m) (p := .batched) hfree
  obtain ⟨m', hm', hvalid⟩ := outputAxisMap_spec hb hp hop
  cases hm.symm.trans hm'
  refine ⟨hext.base hb, hp.placing (hc.unplaced hfree) hvalid (fun h => (by cases h)), ?_⟩
  rw [outputAxisMap_congr (hext.agreeOn hin), hm, placing_axisMaps (hc.unplaced hfree), if_pos rfl]

variable (hdec : (ctx.placing op.output m .batched).decision op = .ok dec)

include hdec

theorem placed_planning : (ctx.planning o op m dec.plan).Placed := by
  have hfree := unplaced_of_unplanned hc hop hnew
  obtain ⟨hb₁, hp₁, hm₁⟩ := placed_before_decision hb hp hc hop hin hnew hm
  obtain ⟨m', hm', hvalid⟩ := outputAxisMap_spec hb hp hop
  cases hm.symm.trans hm'
  have h : (ctx.placing op.output m dec.plan.placement).Placed := by
    refine hp.placing (hc.unplaced hfree) hvalid fun hcanvas => ?_
    obtain ⟨plan, hfused⟩ : ∃ plan, dec = .fused plan := by
      cases dec with
      | batched | unbalanced r => cases hcanvas
      | fused plan => exact ⟨plan, rfl⟩
    obtain ⟨dec', hdec', hplan'⟩ := decision_decides hb₁ hp₁ hop
    cases hdec.symm.trans hdec'
    obtain ⟨map, hmap, hbatch, -⟩ := (hplan' plan hfused).output hb₁ hp₁ hop hm₁
    rw [placing_axisMaps (hc.unplaced hfree), if_pos rfl] at hmap
    exact ⟨map, hmap, hbatch⟩
  exact { h with }

omit hb hp hm in
/-- What was decided is what planning decides in the new state. -/
theorem decision_planning : (ctx.planning o op m dec.plan).decision op = .ok dec := by
  have hne : ∀ t ∈ op.inputs, op.output ≠ t := by grind [unplaced_of_unplanned]
  rw [← hdec]
  refine decision_congr ⟨rfl, rfl, rfl, rfl, forall₂_same.2 fun t ht => ⟨rfl, ?_, rfl⟩, rfl⟩ rfl
  rw [planning_placements, placing_placements, if_neg (hne t ht), if_neg (hne t ht)]

omit hb hp hm in
theorem warned_planning (hw : ctx.Warned) {ws : List Warning}
    (hws : ws = ctx.warnings ++ dec.warnings o op) :
    ({ ctx.planning o op m dec.plan with warnings := ws } : Context).Warned := by
  have hext := extends_planning hc hop hnew (m := m) dec.plan
  refine hw.extends hc (hext.trans ⟨rfl, rfl, rfl, rfl, fun _ => rfl, fun _ => rfl, fun _ => rfl⟩)
    fun o' name reason => ?_
  have hunbalanced : ({ ctx.planning o op m dec.plan with warnings := ws } : Context).Unbalanced o
      name
      reason ↔ .unbalancedBranches o name reason ∈ dec.warnings o op :=
    unbalanced_iff hop (decision_planning hc hop hin hnew hdec)
  change _ ∈ ws ↔ _ ∨ _ ∧ (ctx.planning o op m dec.plan).plans.get? o' ≠ none ∧ _
  rw [planning_plans]
  by_cases ho : o = o'
  · grind
  · rw [hws, mem_append, if_neg ho]
    refine or_congr_right ?_
    refine iff_of_false (fun hmem => ?_) fun hnone => hnone.2.1 hnone.1
    cases dec <;> simp [Decision.warnings, Ne.symm ho] at hmem

omit hp in
/-- Planning an operation whose inputs are placed, and placing its output, keeps a state
consistent. -/
theorem consistent_planning : (ctx.planning o op m dec.plan).Consistent := by
  have hfree := unplaced_of_unplanned hc hop hnew
  have hext := extends_planning hc hop hnew (m := m) dec.plan
  have hplaces := @planning_placements ctx op o m dec.plan
  have hmaps : ∀ t, (ctx.planning o op m dec.plan).axisMaps.get? t =
      if op.output = t then m else ctx.axisMaps.get? t :=
    placing_axisMaps (p := dec.plan.placement) (hc.unplaced hfree)
  have hplans := @planning_plans ctx op o m dec.plan
  have hag := hext.agreeOn hin
  have hplanned : (ctx.planning o op m dec.plan).PlannedAt o op := by
    refine ⟨fun t ht => ?_, ?_, dec, decision_planning hc hop hin hnew hdec, ?_, ?_⟩
    · grind
    · rw [outputAxisMap_congr hag, hm, hmaps, if_pos rfl]
    · rw [hplans, if_pos rfl]
    · rw [hplaces, if_pos rfl]
  refine hc.place hext hplaces hmaps (fun {o'} h => ?_) (hb.wellFormed.output_known hop)
    (fun hs => absurd hs (hb.wellFormed.not_source_of_output hop)) fun {o' op'} hop' hplan => ?_
  · grind
  · by_cases ho : o = o'
    · grind
    · refine .inl ⟨by grind, fun heq => ?_⟩
      exact ho (hb.wellFormed.op_eq_of_output hop hop' heq)

end PlacingOutput

/-! ## Uniqueness -/

/-- Every tensor is placed. -/
def AllPlaced (ctx : Context) : Prop :=
  ∀ t x, ctx.cloned.tensors.get? t = some x → ctx.placements.get? t ≠ none

section Agreement

variable {R : TensorId → TensorId → Prop} {S : OpId → OpId → Prop} {t' : TensorId} {o' : OpId}
  {op' : Operation}

/-- Operations that cannot be told apart are planned alike. -/
theorem PlannedAt.congr (hag : AgreeOn ctx ctx' op op') (ho : ctx.PlannedAt o op)
    (ho' : ctx'.PlannedAt o' op') : Alike ctx ctx' op.output op'.output ∧
      ctx.decision op = ctx'.decision op' ∧ ctx.plans.get? o = ctx'.plans.get? o' := by
  have hmap : ctx.axisMaps.get? op.output = ctx'.axisMaps.get? op'.output := by
    have h := ho.axisMap
    rw [outputAxisMap_congr hag, ho'.axisMap] at h
    exact (Except.ok.inj h).symm
  have hsame := decision_congr hag hmap
  obtain ⟨dec, hdec, hplan, hplace⟩ := ho.decision
  obtain ⟨dec', hdec', hplan', hplace'⟩ := ho'.decision
  rw [hsame, hdec'] at hdec
  cases hdec
  exact ⟨⟨hag.output, hplace.trans hplace'.symm, hmap⟩, hsame, hplan.trans hplan'.symm⟩

variable (hm : ctx.cloned.Matches R S ctx'.cloned) (hb : ctx.Base) (hb' : ctx'.Base)
  (hc : ctx.Consistent) (hc' : ctx'.Consistent) (haxes : ctx.axes = ctx'.axes)
  (hgrid : ctx.grid = ctx'.grid)

include hm hb hb' hc hc' haxes hgrid

/-- **Two consistent states of matching working copies** agree on what both have placed. -/
theorem Consistent.agree (ht : R t t') (hplaced : ctx.placements.get? t ≠ none)
    (hplaced' : ctx'.placements.get? t' ≠ none) : Alike ctx ctx' t t' := by
  induction t using Handle.induction generalizing t' with
  | _ t ih =>
    obtain ⟨x, x', hx, hx', -⟩ := hm.tensor ht
    rcases hb.sequential.source_or_written hb.wellFormed hx with hs | ⟨o, op, hop, rfl⟩
    · obtain ⟨h₁, h₂⟩ := hc.source hs hplaced
      obtain ⟨h₁', h₂'⟩ := hc'.source
        ((hm.mem_sources hb.wellFormed hb'.wellFormed ht).1 hs) hplaced'
      rw [← hm.shapeOf_eq ht, ← haxes] at h₂'
      exact ⟨hm.shape_eq ht, h₁.trans h₁'.symm, h₂.trans h₂'.symm⟩
    · obtain ⟨o', op', -, hop', rfl, hkind, hinputs⟩ := hm.written hop ht
      have hplanned := (hc.op hop).resolve_left fun h => hplaced h.2
      have hplanned' := (hc'.op hop').resolve_left fun h => hplaced' h.2
      have hag : AgreeOn ctx ctx' op op' := by
        refine ⟨hb.limit.trans hb'.limit.symm, haxes, hgrid, hkind, ?_, hm.shape_eq ht⟩
        exact (forall₂_mem hinputs).imp fun y y' ⟨hy, hy', hR⟩ =>
          ih y (hb.sequential.input_lt hop hy) hR (hplanned.inputs y hy) (hplanned'.inputs y' hy')
      exact (hplanned.congr hag hplanned').1

/-- Corresponding operations that are planned have been decided about alike. -/
theorem Consistent.decision_eq (hkind : op.kind = op'.kind)
    (hinputs : List.Forall₂ R op.inputs op'.inputs) (hout : R op.output op'.output)
    (ho : ctx.PlannedAt o op) (ho' : ctx'.PlannedAt o' op') :
    ctx.decision op = ctx'.decision op' ∧ ctx.plans.get? o = ctx'.plans.get? o' := by
  have hag : AgreeOn ctx ctx' op op' := by
    refine ⟨hb.limit.trans hb'.limit.symm, haxes, hgrid, hkind, ?_, hm.shape_eq hout⟩
    exact (forall₂_mem hinputs).imp fun y y' ⟨hy, hy', hR⟩ =>
      hc.agree hm hb hb' hc' haxes hgrid hR (ho.inputs y hy) (ho'.inputs y' hy')
  exact (ho.congr hag ho').2

end Agreement

/-- A consistent state extends to every consistent state that has placed all tensors. -/
theorem Consistent.extends (hb : ctx.Base) (hc : ctx.Consistent) (hc' : ctx'.Consistent)
    (hall : ctx'.AllPlaced) (hlimit : ctx'.limit = ctx.limit) (hcloned : ctx'.cloned = ctx.cloned)
    (haxes : ctx'.axes = ctx.axes) (hgrid : ctx'.grid = ctx.grid) : ctx.Extends ctx' := by
  have hm : ctx.cloned.Matches (fun t t' => t = t' ∧ ∃ x, ctx.cloned.tensors.get? t = some x)
      (fun o o' => o = o' ∧ ∃ op, ctx.cloned.ops.get? o = some op) ctx'.cloned := by
    rw [hcloned]
    exact .refl hb.wellFormed
  have hb' : ctx'.Base := hb.congr hlimit hcloned haxes hgrid
  have hagree : ∀ {t}, ctx.placements.get? t ≠ none → Alike ctx ctx' t t := fun {t} ht => by
    obtain ⟨x, hx⟩ := hc.known ht
    exact hc.agree hm hb hb' hc' haxes.symm hgrid.symm ⟨rfl, x, hx⟩ ht (hall t x (hcloned ▸ hx))
  refine ⟨hlimit, hcloned, haxes, hgrid, fun h => (hagree h).placement.symm,
    fun h => (hagree h).axisMap.symm, fun {o} ho => ?_⟩
  obtain ⟨op, hop⟩ := hc.op_known ho
  have hplanned := (hc.op hop).resolve_left fun h => ho h.1
  obtain ⟨y, hy⟩ := hb.wellFormed.output_known hop
  have hplanned' := (hc'.op (hcloned ▸ hop)).resolve_left fun h =>
    hall op.output y (hcloned ▸ hy) h.2
  refine (hc.decision_eq hm hb hb' hc' haxes.symm hgrid.symm rfl ?_ ⟨rfl, y, hy⟩ hplanned
    hplanned').2.symm
  exact forall₂_same.2 fun x hx => ⟨rfl, hb.wellFormed.input_known hop hx⟩

/-! ## Steps -/

/-- The canvas shape of a tensor always has an answer. -/
theorem canvasShape_ok (hb : ctx.Base) (hp : ctx.Placed) (ht : ctx.cloned.tensors.get? t = some y)
    (gap : Pair Nat) : ∃ s, ctx.canvasShape t gap = .ok s := by
  unfold canvasShape
  rw [Graph.shape_ok ht, bind_ok]
  split
  · exact ⟨_, rfl⟩
  · rename_i map hmap
    have hrank := hp.rank hmap
    have hv := hp.valid hmap
    rw [hp.entry_ok hmap hv.batch_lt, bind_ok]
    split_ifs
    · exact ⟨_, rfl⟩
    · rw [Shape.withDim_ok (by rw [hrank]; exact hv.batch_lt), bind_ok]
      have hextent : ∀ d, ∃ e, ctx.grid.canvasExtent ctx.limit d
          ((ctx.cloned.shapeOf t).extent (map.fuse.get d)) (gap.get d) = .ok e := by
        intro d
        have h1 : 1 ≤ ctx.grid.tiles.get d := hb.tiles_pos d
        simp only [Grid.canvasExtent, hb.limit, Limit.mul_unbounded, bind_ok, Size.sub, h1, if_true,
          Limit.add_unbounded]
        exact ⟨_, rfl⟩
      have hstep : ∀ (s : Shape) d, s.length = 4 → ∃ s', (do
          let extent ← Size.entry (ctx.cloned.shapeOf t) (map.fuse.get d)
          let extent ← ctx.grid.canvasExtent ctx.limit d extent (gap.get d)
          Shape.withDim s (map.fuse.get d) extent) = .ok s' ∧ s'.length = 4 := by
        intro s d hs
        obtain ⟨e, he⟩ := hextent d
        grind [bind_ok, Shape.withDim_ok, Placed.entry_ok, AxisMap.Valid.fuse_lt]
      obtain ⟨s₁, h₁, hl₁⟩ := hstep ((ctx.cloned.shapeOf t).set map.batch 1) .first
        (by rw [length_set, hrank])
      obtain ⟨s₂, h₂, -⟩ := hstep s₁ .second hl₁
      refine ⟨s₂, ?_⟩
      rw [Dim.all, foldlM_cons, h₁, bind_ok, foldlM_cons, h₂]
      rfl

/-- The state after the gap of a tensor has been recorded, with the canvas shape for it. -/
def gapping (ctx : Context) (t : TensorId) (gap : Pair Nat) (s : Shape) : Context :=
  { ctx with gaps := ctx.gaps.record t gap, canvasShapes := ctx.canvasShapes.record t s }

/-- The gap a tensor has after it has been raised to at least the given one. -/
def mergedGap (ctx : Context) (t : TensorId) (gap : Pair Nat) : Pair Nat :=
  match ctx.gaps.get? t with
  | some old => old.zipWith max gap
  | none => gap

theorem after_mergeGap (hb : ctx.Base) (hp : ctx.Placed)
    (ht : ctx.cloned.tensors.get? t = some y) {Q : Bool → Context → Prop}
    (hsame : ctx.gaps.get? t = some (ctx.mergedGap t gap) → Q false ctx)
    (hnew : ∀ s, ctx.gaps.get? t ≠ some (ctx.mergedGap t gap) →
      ctx.canvasShape t (ctx.mergedGap t gap) = .ok s → Q true
      (ctx.gapping t (ctx.mergedGap t gap) s)) :
    After (Pass.mergeGap t gap) ctx Q E := by
  have hmerge : ∃ r, ctx.mergeGap t gap = .ok r ∧ Q r.2 r.1 := by
    unfold mergeGap
    by_cases h : ctx.gaps.get? t = some (ctx.mergedGap t gap)
    · exact ⟨_, if_pos h, hsame h⟩
    · obtain ⟨s, hs⟩ := canvasShape_ok hb hp ht (ctx.mergedGap t gap)
      refine ⟨(ctx.gapping t (ctx.mergedGap t gap) s, true), (if_neg h).trans ?_, hnew s h hs⟩
      have hcongr : ({ ctx with gaps := ctx.gaps.record t (ctx.mergedGap t gap) } :
          Context).canvasShape t (ctx.mergedGap t gap) = .ok s := hs
      exact (congrArg (· >>= _) hcongr).trans rfl
  obtain ⟨r, hr, hQ⟩ := hmerge
  refine .bind (.ask_ok (a := r) (lift_fault_eq_ok.2 hr) ?_)
  exact .bind (.set (.pure hQ))

theorem after_recordAxisMap (hnone : ctx.axisMaps.get? t = none)
    (h : Q () { ctx with axisMaps := recordMap ctx.axisMaps t m }) :
    After (recordAxisMap t m) ctx Q E := by
  cases m with
  | none => exact .pure h
  | some map =>
    unfold recordAxisMap
    exact .recordNew hnone h

/-! ## Placing the sources -/

/-- The parts of a state that inference leaves alone. It counts its own steps, and warns about
branches that cannot share a canvas; all else that ends up in the report is as it was. -/
structure Frame (ctx ctx' : Context) : Prop where
  eq : ctx' = { ctx with
    warnings := ctx'.warnings, gaps := ctx'.gaps, canvasShapes := ctx'.canvasShapes
    placements := ctx'.placements, axisMaps := ctx'.axisMaps, plans := ctx'.plans
    counters := { ctx.counters with
      forwardVisits := ctx'.counters.forwardVisits
      backwardPasses := ctx'.counters.backwardPasses } }
  unsupported : ctx'.warnings.filter Warning.isUnsupported =
    ctx.warnings.filter Warning.isUnsupported

namespace Frame

theorem refl (ctx : Context) : Frame ctx ctx := ⟨rfl, rfl⟩

variable (h : Frame ctx ctx')

include h

theorem trans {ctx'' : Context} (h' : Frame ctx' ctx'') : Frame ctx ctx'' where
  eq := by
    have heq := h'.eq
    rw [h.eq] at heq
    exact heq
  unsupported := h'.unsupported.trans h.unsupported

theorem limit : ctx'.limit = ctx.limit := by rw [h.eq]

theorem cloned : ctx'.cloned = ctx.cloned := by rw [h.eq]

theorem axes : ctx'.axes = ctx.axes := by rw [h.eq]

theorem grid : ctx'.grid = ctx.grid := by rw [h.eq]

theorem maxBackwardPasses :
    ctx'.maxBackwardPasses = ctx.maxBackwardPasses := by rw [h.eq]

end Frame

/-- Recorded gaps belong to placed tensors, come with the canvas shape for them, and are zero along
a dimension with one tile. -/
structure Gapped (ctx : Context) : Prop where
  placed : ∀ {t}, ctx.gaps.get? t ≠ none → ctx.placements.get? t ≠ none
  shape : ∀ {t g}, ctx.gaps.get? t = some g →
    ∃ s, ctx.canvasShapes.get? t = some s ∧ ctx.canvasShape t g = .ok s
  untiled : ∀ {t g} d, ctx.gaps.get? t = some g → ctx.grid.isTiled d = false → g.get d = 0

/-- The canvas shape of a tensor depends on its shape, the grid and its axis map. -/
theorem canvasShape_congr {t' : TensorId} (hlimit : ctx'.limit = ctx.limit)
    (hgrid : ctx'.grid = ctx.grid) (hshape : ctx'.cloned.shape t' = ctx.cloned.shape t)
    (hmap : ctx'.axisMaps.get? t' = ctx.axisMaps.get? t) (gap : Pair Nat) :
    ctx'.canvasShape t' gap = ctx.canvasShape t gap := by
  unfold canvasShape
  rw [hlimit, hshape, hgrid, hmap]

theorem Gapped.extends (hg : ctx.Gapped) (h : Extends ctx ctx') (hgaps : ctx'.gaps = ctx.gaps)
    (hshapes : ctx'.canvasShapes = ctx.canvasShapes) : ctx'.Gapped where
  placed ht := by
    rw [hgaps] at ht
    rw [h.placement (hg.placed ht)]
    exact hg.placed ht
  shape {t g} ht := by
    grind [canvasShape_congr, shape, Extends.limit, Extends.grid, Extends.cloned, Extends.axisMap,
      placed]
  untiled d ht hd := by grind [untiled, Extends.grid]

theorem gapping_gaps (t t' : TensorId) (gap : Pair Nat) (s : Shape) :
    (ctx.gapping t gap s).gaps.get? t' = if t = t' then some gap else ctx.gaps.get? t' :=
  get?_record ..

theorem extends_gapping (t : TensorId) (gap : Pair Nat) (s : Shape) :
    Extends ctx (ctx.gapping t gap s) :=
  ⟨rfl, rfl, rfl, rfl, fun _ => rfl, fun _ => rfl, fun _ => rfl⟩

theorem Gapped.gapping (hg : ctx.Gapped) (ht : ctx.placements.get? t ≠ none)
    (hs : ctx.canvasShape t gap = .ok s) (h0 : ∀ d, ctx.grid.isTiled d = false → gap.get d = 0) :
    (ctx.gapping t gap s).Gapped where
  placed {t'} h := by
    rw [gapping_gaps] at h
    split_ifs at h with heq
    · exact heq ▸ ht
    · exact hg.placed h
  shape {t' g} h := by
    have hshapes : (ctx.gapping t gap s).canvasShapes.get? t' =
        if t = t' then some s else ctx.canvasShapes.get? t' := get?_record ..
    rw [gapping_gaps] at h
    rw [hshapes]
    by_cases heq : t = t'
    · subst heq
      rw [if_pos rfl] at h
      cases h
      exact ⟨s, if_pos rfl, hs⟩
    · rw [if_neg heq] at h
      rw [if_neg heq]
      exact hg.shape h
  untiled {t' g} d h hd := by
    rw [gapping_gaps] at h
    split_ifs at h with heq
    · cases h
      exact h0 d hd
    · exact hg.untiled d h hd

/-- A state in which inference may be, apart from which gaps are recorded. -/
structure Sound (ctx : Context) : Prop where
  base : ctx.Base
  placed : ctx.Placed
  consistent : ctx.Consistent
  gapped : ctx.Gapped

theorem Sound.gapping (hs : ctx.Sound) (ht : ctx.placements.get? t ≠ none)
    (hshape : ctx.canvasShape t gap = .ok s)
    (h0 : ∀ d, ctx.grid.isTiled d = false → gap.get d = 0) :
    (ctx.gapping t gap s).Sound where
  base := (extends_gapping t gap s).base hs.base
  placed := { hs.placed with }
  consistent := { hs.consistent with
    op := fun hop => (hs.consistent.op hop).imp id (extends_gapping t gap s).plannedAt }
  gapped := hs.gapped.gapping ht hshape h0

theorem extends_recount (ctx : Context) (w : List Warning) (c : Counters) :
    Extends ctx { ctx with warnings := w, counters := c } :=
  ⟨rfl, rfl, rfl, rfl, fun _ => rfl, fun _ => rfl, fun _ => rfl⟩

theorem Sound.recount (hs : ctx.Sound) (w : List Warning) (c : Counters) :
    ({ ctx with warnings := w, counters := c } : Context).Sound := by
  have hext := extends_recount ctx w c
  exact ⟨hext.base hs.base, { hs.placed with }, { hs.consistent with
    op := fun hop => (hs.consistent.op hop).imp id hext.plannedAt }, hs.gapped.extends hext rfl rfl⟩

/-- What planning an operation and placing its output changes. -/
structure PlacedBy (ctx : Context) (o : OpId) (op : Operation) (plan : Plan) (ctx' : Context) :
    Prop where
  sound : ctx'.Sound
  extends_ : ctx.Extends ctx'
  frame : Frame ctx ctx'
  counters : ctx'.counters = ctx.counters
  gaps : ctx'.gaps = ctx.gaps
  plans : ∀ o', ctx'.plans.get? o' = if o = o' then some plan else ctx.plans.get? o'
  placements : ∀ t, ctx'.placements.get? t =
    if op.output = t then some plan.placement else ctx.placements.get? t
  warned : ctx.Warned → ctx'.Warned

theorem after_place (hs : ctx.Sound) (hop : ctx.cloned.ops.get? o = some op)
    (hin : ∀ t ∈ op.inputs, ctx.placements.get? t ≠ none) (hnew : ctx.plans.get? o = none)
    (h : ∀ plan ctx', PlacedBy ctx o op plan ctx' → Q () ctx') : After (place o op) ctx Q E := by
  have hfree := unplaced_of_unplanned hs.consistent hop hnew
  obtain ⟨m, hm, -⟩ := outputAxisMap_spec hs.base hs.placed hop
  obtain ⟨hb₁, hp₁, -⟩ :=
    placed_before_decision hs.base hs.placed hs.consistent hop hin hnew hm
  obtain ⟨dec, hdec, -⟩ := decision_decides hb₁ hp₁ hop
  have hext := extends_planning hs.consistent hop hnew (m := m) dec.plan
  have hsound : (ctx.planning o op m dec.plan).Sound :=
    ⟨hext.base hs.base, placed_planning hs.base hs.placed hs.consistent hop hin hnew hm hdec,
      consistent_planning hs.base hs.consistent hop hin hnew hm hdec,
      hs.gapped.extends hext rfl rfl⟩
  -- Planning does not look at the placement of the output.
  have hdec' : ({ ctx with axisMaps := recordMap ctx.axisMaps op.output m } :
      Context).decision op = .ok dec := by
    rw [← hdec]
    refine decision_congr ⟨rfl, rfl, rfl, rfl, forall₂_same.2 fun t ht => ⟨rfl, ?_, rfl⟩, rfl⟩ rfl
    have hne : op.output ≠ t := by grind
    rw [placing_placements, if_neg hne]
  have hrecord : ∀ w, w = ctx.warnings ++ dec.warnings o op → After (do
      recordPlacement op.output dec.plan.placement
      recordPlan o dec.plan)
      { ctx with axisMaps := recordMap ctx.axisMaps op.output m, warnings := w } Q E := by
    intro w hw
    refine .bind (.recordNew hfree (.recordNew hnew ?_))
    refine h dec.plan { ctx.planning o op m dec.plan with warnings := w }
      ⟨hsound.recount w ctx.counters, hext.trans (extends_recount _ w ctx.counters),
        ⟨rfl, ?_⟩, rfl, rfl, fun o' => get?_record .., fun t => get?_record ..,
        fun h => warned_planning hs.consistent hop hin hnew hdec h hw⟩
    rw [hw, filter_append, dec.filter_warnings, append_nil]
  refine .bind (.ask_fault hm ?_)
  refine .bind (after_recordAxisMap (hs.consistent.unplaced hfree) ?_)
  refine .bind ?_
  unfold Pass.plan
  refine .bind (.ask_fault hdec' ?_)
  cases dec with
  | batched | fused plan => exact hrecord _ (append_nil _).symm
  | unbalanced r => exact .bind (.modify (hrecord _ rfl))

theorem after_placeSource (hs : ctx.Sound) (ht : t ∈ ctx.cloned.sources)
    (hnew : ctx.placements.get? t = none)
    (h : ∀ m s, m = (if (ctx.cloned.shapeOf t).length = 4 then some ctx.axes else none) →
      ((ctx.placing t m .batched).gapping t (.both 0) s).Sound →
      Q () ((ctx.placing t m .batched).gapping t (.both 0) s)) :
    After (placeSource t) ctx Q E := by
  obtain ⟨y, hy, -⟩ := hs.base.wellFormed.mem_sources.1 ht
  obtain ⟨m, hm⟩ : ∃ m, m = if (ctx.cloned.shapeOf t).length = 4 then some ctx.axes else none :=
    ⟨_, rfl⟩
  have hext := extends_placing hs.consistent (m := m) (p := .batched) hnew
  obtain ⟨hplaced, hcons⟩ :=
    consistent_placing_source hs.base hs.placed hs.consistent ht hnew hm
  have hsound : (ctx.placing t m .batched).Sound :=
    ⟨hext.base hs.base, hplaced, hcons, hs.gapped.extends hext rfl rfl⟩
  have hgap : ctx.gaps.get? t = none := by
    by_contra hne
    exact hs.gapped.placed hne hnew
  have hmerged : (ctx.placing t m .batched).mergedGap t (.both 0) = .both 0 := by
    unfold mergedGap
    change (match ctx.gaps.get? t with
      | some old => old.zipWith max (.both 0)
      | none => Pair.both 0) = _
    rw [hgap]
  refine .bind (.get ?_)
  refine .bind (.check_fault (Graph.shape_ok hy) ?_)
  rw [Shape.rank, ← hm]
  refine .bind (after_recordAxisMap (hs.consistent.unplaced hnew) ?_)
  refine .bind (.recordNew hnew ?_)
  refine .bind (after_mergeGap hsound.base hsound.placed (t := t) hy (fun hsame => ?_) ?_)
  · exact absurd (hsame.symm.trans hgap) (by simp)
  · intro s _ hshape
    rw [hmerged] at hshape ⊢
    refine h m s hm (hsound.gapping ?_ hshape fun d _ => ?_)
    · rw [placing_placements, if_pos rfl]
      simp
    · cases d <;> rfl

/-- The sources are placed, with no gap yet, and nothing else is. -/
structure Started (ctx ctx' : Context) : Prop where
  sound : ctx'.Sound
  frame : Frame ctx ctx'
  counters : ctx'.counters = ctx.counters
  warnings : ctx'.warnings = ctx.warnings
  plans : ctx'.plans = ctx.plans
  placed_iff : ∀ t, ctx'.placements.get? t ≠ none ↔ t ∈ ctx.cloned.sources
  gaps : ∀ t, ctx'.gaps.get? t = if t ∈ ctx.cloned.sources then some (.both 0) else none

/-- A state as cloning leaves it: nothing is placed, planned or gapped, and no warning is about a
plan. -/
structure Fresh (ctx : Context) : Prop where
  base : ctx.Base
  placements : ctx.placements = .empty
  axisMaps : ctx.axisMaps = .empty
  plans : ctx.plans = .empty
  gaps : ctx.gaps = .empty
  unwarned : ∀ o name reason, .unbalancedBranches o name reason ∉ ctx.warnings

theorem Fresh.sound (hf : ctx.Fresh) : ctx.Sound where
  base := hf.base
  placed := by constructor <;> simp [isCanvas, hf.axisMaps, hf.placements]
  consistent := by constructor <;> simp [hf.axisMaps, hf.placements, hf.plans]
  gapped := by constructor <;> simp [hf.gaps]

/-- Nothing is planned yet that could be warned about. -/
theorem Started.warned (hf : ctx.Fresh) (h : Started ctx ctx') : ctx'.Warned := by
  intro o name reason
  rw [h.warnings, h.plans, hf.plans]
  simp [hf.unwarned o name reason]

theorem after_placeSources (hf : ctx.Fresh) :
    After (ctx.cloned.sources.forM placeSource) ctx (fun _ ctx' => Started ctx ctx') E := by
  have hnodup := hf.base.wellFormed.sources_nodup
  refine (After.forM (fun done ctx' => ctx'.Sound ∧ Frame ctx ctx' ∧ ctx'.counters = ctx.counters ∧
    ctx'.warnings = ctx.warnings ∧ ctx'.plans = ctx.plans ∧
    (∀ t, ctx'.placements.get? t ≠ none ↔ t ∈ done) ∧
    ∀ t, ctx'.gaps.get? t = if t ∈ done then some (.both 0) else none) ?_ ?_).mono ?_
  · refine ⟨hf.sound, .refl ctx, rfl, rfl, rfl, fun t => ?_, fun t => ?_⟩
    · simp [hf.placements]
    · simp [hf.gaps]
  · rintro done t rest ctx₁ hsplit ⟨hs, hframe, hcounters, hwarnings, hplans, hplaced, hgaps⟩
    have ht : t ∈ ctx.cloned.sources := by
      rw [hsplit]
      simp
    have hnew : ctx₁.placements.get? t = none := by grind
    refine after_placeSource hs (by rw [hframe.cloned]; exact ht) hnew fun m s _ hsound => ?_
    refine ⟨hsound, hframe.trans ⟨rfl, rfl⟩, hcounters, hwarnings, hplans, fun t' => ?_,
      fun t' => ?_⟩
    · grind [gapping, placing_placements]
    · have hget : ((ctx₁.placing t m .batched).gapping t (.both 0) s).gaps.get? t' =
          if t = t' then some (.both 0) else ctx₁.gaps.get? t' :=
        gapping_gaps ..
      grind
  · rintro _ ctx' ⟨hs, hframe, hcounters, hwarnings, hplans, hplaced, hgaps⟩
    exact ⟨hs, hframe, hcounters, hwarnings, hplans, hplaced, hgaps⟩

/-! ## Planning without gaps -/

end Context

/-- Place every tensor of the working copy, and plan every operation once, in the order of their
creation. No gap is moved. -/
def Pass.planAll : Pass Unit := do
  let g := (← get).cloned
  g.sources.forM placeSource
  g.ops.entries.forM fun (o, op) => place o op

namespace Context

variable {ctx ctx' : Context} {op : Operation} {o : OpId} {t x : TensorId}

theorem allPlaced_of_planned (hb : ctx.Base) (hc : ctx.Consistent)
    (hs : ∀ t ∈ ctx.cloned.sources, ctx.placements.get? t ≠ none)
    (hops : ∀ o op, ctx.cloned.ops.get? o = some op → ctx.plans.get? o ≠ none) : ctx.AllPlaced := by
  intro t x hx
  grind [Graph.Sequential.source_or_written, Base.sequential, Base.wellFormed, Consistent.op,
    PlannedAt.decision]

/-- **Planning every operation once succeeds**, and leaves behind a consistent state with every
tensor placed. -/
theorem planAll_spec (hf : ctx.Fresh) {E : FusionError → Context → Prop} :
    After planAll ctx
      (fun _ ctx' => ctx'.Sound ∧ Frame ctx ctx' ∧ ctx'.AllPlaced) E := by
  refine .bind (.get ?_)
  refine .then_ (after_placeSources hf) fun _ ctx₁ hstart => ?_
  -- The operations that are done are those that are planned.
  refine (After.forM (fun done ctx' => ctx'.Sound ∧ Frame ctx₁ ctx' ∧ ctx₁.Extends ctx' ∧
    ∀ o, ctx'.plans.get? o ≠ none ↔ ∃ op, (o, op) ∈ done) ?_ ?_).mono ?_
  · refine ⟨hstart.sound, .refl _, .refl _, fun o => ?_⟩
    rw [hstart.plans, hf.plans]
    simp
  · rintro done ⟨o, op⟩ rest ctx₂ hsplit ⟨hs, hframe, hext, hplans⟩
    have hmem : (o, op) ∈ ctx.cloned.ops.entries := by
      rw [hsplit]
      simp
    have hop := mem_entries.1 hmem
    have hop₂ : ctx₂.cloned.ops.get? o = some op := by
      rw [hframe.cloned, hstart.frame.cloned]
      exact hop
    -- The handles of the operations are listed in order.
    have hsorted : ctx.cloned.ops.entries.Pairwise fun a b => a.1.index < b.1.index := by
      have h : (ctx.cloned.ops.entries.map Prod.fst).Pairwise fun a b => a.index < b.index := by
        rw [map_fst_entries, handles, pairwise_map]
        exact pairwise_lt_range
      rwa [pairwise_map] at h
    have hnew : ctx₂.plans.get? o = none := by grind
    have hin : ∀ t ∈ op.inputs, ctx₂.placements.get? t ≠ none := by
      intro t ht
      obtain ⟨y, hy⟩ := hf.base.wellFormed.input_known hop ht
      rcases hf.base.sequential.source_or_written hf.base.wellFormed hy with
        hsrc | ⟨p, op', hop', rfl⟩
      · have h := (hstart.placed_iff t).2 hsrc
        rw [hext.placement h]
        exact h
      · have hlt : p.index < o.index :=
          hf.base.sequential.producer_lt hop ht (hf.base.wellFormed.producer_output hop')
        have hp : (p, op') ∈ done := by
          have h := mem_entries.2 hop'
          rw [hsplit, mem_append, mem_cons] at h
          rcases h with h | h | h
          · exact h
          · grind
          · grind [pairwise_cons]
        have hop'₂ : ctx₂.cloned.ops.get? p = some op' := by
          rw [hframe.cloned, hstart.frame.cloned]
          exact hop'
        have hplanned := (hs.consistent.op hop'₂).resolve_left fun h =>
          (hplans p).2 ⟨op', hp⟩ h.1
        grind [PlannedAt.decision]
    refine after_place hs hop₂ hin hnew fun plan ctx₃ hplaced => ?_
    refine ⟨hplaced.sound, hframe.trans hplaced.frame, hext.trans hplaced.extends_, fun o' => ?_⟩
    rw [hplaced.plans]
    grind
  · rintro _ ctx₂ ⟨hs, hframe, hext, hplans⟩
    have hcloned : ctx₂.cloned = ctx.cloned := hframe.cloned.trans hstart.frame.cloned
    refine ⟨hs, hstart.frame.trans hframe, allPlaced_of_planned hs.base hs.consistent ?_ ?_⟩
    · intro t ht
      have h := (hstart.placed_iff t).2 (hcloned ▸ ht)
      rw [hext.placement h]
      exact h
    · intro o op hop
      rw [hcloned] at hop
      exact (hplans o).2 ⟨op, mem_entries.2 hop⟩

end Context

end CanvasFusion
