import CanvasFusion.Proofs.Fusion.CanvasPlan

/-!
# What gap inference leaves in the tables

Axis maps, placements and plans depend on each other: a plan is made from the placements and the
axis maps of the inputs, a placement follows from a plan, and an axis map from the operator.
Emission reads the tables one by one and relies on them to agree.

**Theorem (inferGaps_wellPlaced).** After every successful gap inference the tables agree
(`WellPlaced`): roles of axes are known for the tensors of rank 4 and for no others, a tensor is on
a canvas only through a plan for the canvas, and the inputs of such a plan that share the canvas
share the roles of the axes as well.
-/

namespace CanvasFusion

open List

theorem AxisMap.Valid.perm_range {m : AxisMap} (hm : m.Valid) :
    m.canonicalPerm.Perm (List.range 4) := by
  have hsub : m.canonicalPerm ⊆ List.range 4 := fun a ha => mem_range.2 (hm.lt a ha)
  exact (hm.nodup.subperm hsub).perm_of_length_le (by simp [canonicalPerm])

namespace Context

variable {ctx : Context} {t x : TensorId} {o : OpId} {op : Operation} {plan : FusedPlan}

/-- The form in which an operation on the canvas finds its input at place `i`. An input that shares
the canvas is on it already, or can be tiled onto it. Its batch holds the samples of the grid, and
the roles of its axes go over into those of the output, `out`. Every other input is batched. -/
def FindsInput (ctx : Context) (op : Operation) (plan : FusedPlan) (out : AxisMap) (i : Nat)
    (x : TensorId) : Prop :=
  if i ∈ plan.gapped then
    (ctx.placements.get? x = some .canvas ∨
      ctx.placements.get? x = some .batched ∧ ctx.isTileable x = .ok true) ∧
    ∃ map, ctx.axisMaps.get? x = some map ∧
      (ctx.cloned.shapeOf x).extent map.batch = ctx.grid.count ∧ mapAfter op.kind map out
  else ctx.placements.get? x = some .batched

/-- Axis maps, placements and plans go together. -/
structure WellPlaced (ctx : Context) : Prop where
  axisMap : ∀ t, ctx.axisMaps.get? t ≠ none ↔
    ∃ x, ctx.cloned.tensors.get? t = some x ∧ x.spec.shape.rank = 4
  permutation : ∀ t map, ctx.axisMaps.get? t = some map → map.canonicalPerm.Perm (List.range 4)
  canvas : ∀ t, ctx.placements.get? t = some .canvas → 1 < ctx.grid.count ∧
    (∃ o plan, ctx.cloned.producer t = some o ∧ ctx.plans.get? o = some (.fused plan)) ∧
    ∃ map, ctx.axisMaps.get? t = some map ∧
      (ctx.cloned.shapeOf t).extent map.batch = ctx.grid.count
  plan : ∀ o plan, ctx.plans.get? o = some (.fused plan) → ∃ op out,
    ctx.cloned.ops.get? o = some op ∧ ctx.axisMaps.get? op.output = some out ∧
      plan.gapped ≠ [] ∧ (∀ i ∈ plan.gapped, i < op.inputs.length) ∧
      ∀ i x, op.inputs[i]? = some x → ctx.FindsInput op plan out i x

section Settled

variable (h : ctx.core.Settled)

include h

/-- The roles of the axes of a tensor are known if and only if it is of rank 4. -/
theorem Settled.axisMap_iff : ctx.axisMaps.get? t ≠ none ↔ (ctx.cloned.shapeOf t).length = 4 := by
  refine ⟨fun hmap => ?_, fun hrank => ?_⟩
  · obtain ⟨map, hmap⟩ := Option.ne_none_iff_exists'.1 hmap
    exact h.sound.placed.rank hmap
  obtain ⟨y, hy⟩ := known_of_rank hrank
  have hplaced := h.allPlaced t y hy
  rcases h.sequential.source_or_written h.wellFormed hy with hsrc | ⟨o, op, hop, rfl⟩
  · have hmap : ctx.axisMaps.get? t = _ := (h.sound.consistent.source hsrc hplaced).2
    rw [hmap, if_pos (show (ctx.core.cloned.shapeOf t).length = 4 from hrank)]
    simp
  · have hplanned := (h.sound.consistent.op hop).resolve_left fun hnone => hplaced hnone.2
    have hout := hplanned.axisMap
    have hshape : ctx.core.cloned.shape op.output = .ok (ctx.cloned.shapeOf op.output) :=
      output_shape_ok h.sound.base hop
    obtain ⟨m, hm, -⟩ := inheritedAxisMap_spec h.sound.base h.sound.placed hop
    unfold outputAxisMap at hout
    simp only [hshape, bind_ok, Shape.rank, hrank, ne_eq, not_true_eq_false, if_false, hm] at hout
    have hmap : some (m.getD ctx.core.axes) = ctx.axisMaps.get? op.output := Except.ok.inj hout
    simp [← hmap]

/-- Nothing goes onto a canvas where there is one sample only. -/
theorem Settled.enabled (ht : ctx.isCanvas t = true) : 1 < ctx.grid.count := by
  obtain ⟨p, op, plan, -, hop, -, hplan, -⟩ :=
    h.sound.canvas_producer (of_decide_eq_true (p := ctx.core.placements.get? t = some .canvas) ht)
  have hplanned := (h.sound.consistent.op hop).resolve_left fun hnone => by
    grind
  obtain ⟨dec, hdec, hplan', -⟩ := hplanned.decision
  have hfused : dec.plan = .fused plan := Option.some.inj (hplan'.symm.trans hplan)
  by_contra hcount
  have hoff : ctx.core.isEnabled = false := decide_eq_false hcount
  rw [decision, hoff] at hdec
  cases hdec
  cases hfused

/-- A batched tensor that holds all samples can be tiled. -/
theorem Settled.isTileable (hcount : 1 < ctx.grid.count) (ht : ctx.HasSamples t)
    (hbatched : ctx.placements.get? t = some .batched) : ctx.isTileable t = .ok true := by
  have hmap := ht.axisMap_eq
  have hbatch : (ctx.cloned.shapeOf t).extent (ctx.mapOf t).batch = ctx.grid.count := ht.batch
  have hshape : ctx.cloned.shape t = .ok (ctx.cloned.shapeOf t) := h.sound.placed.shape_ok hmap
  have hentry : Size.entry (ctx.cloned.shapeOf t) (ctx.mapOf t).batch =
      .ok ((ctx.cloned.shapeOf t).extent (ctx.mapOf t).batch) :=
    h.sound.placed.entry_ok hmap (ht.valid h).batch_lt
  simp only [Context.isTileable, isEnabled, hcount, hbatched, hmap, hshape, hentry, bind_ok, hbatch,
    decide_true, Bool.and_self, if_true]
  rfl

/-- An input that is not on a canvas is batched. -/
theorem Settled.batched_of_input (hop : ctx.cloned.ops.get? o = some op) (hx : x ∈ op.inputs)
    (hc : ctx.isCanvas x = false) : ctx.placements.get? x = some .batched := by
  obtain ⟨y, hy⟩ := h.wellFormed.input_known hop hx
  have hplaced : ctx.placements.get? x ≠ none := h.allPlaced x y hy
  obtain ⟨p, hp⟩ := Option.ne_none_iff_exists'.1 hplaced
  cases p with
  | batched => exact hp
  | canvas => simp [isCanvas, hp] at hc

/-- Inputs that do not share the canvas are not on one. -/
theorem Fuses.ungapped (hf : ctx.Fuses o op plan) {i : Nat} (hi : i ∉ plan.gapped)
    (hx : op.inputs[i]? = some x) : ctx.isCanvas x = false := by
  have hfirst : plan.gapped = [0] → ∀ y, op.inputs = [y] → False := by grind
  have hmeans := hf.means
  cases hf.step h with
  | conv hkind hin hrest hgapped _ _ _ _ _ =>
    rw [PlanFor, hkind] at hmeans
    obtain ⟨y, w, rest, -, -, hin', hrest', -⟩ := hmeans
    rw [hin'] at hx
    cases i with
    | zero => exact absurd (by simp [hgapped]) hi
    | succ i => exact hrest' x (mem_iff_getElem?.2 ⟨i, by simpa using hx⟩)
  | pool _ hin hgapped | pad _ hin hgapped | activation _ hin hgapped | reshape _ hin hgapped
  | transpose _ hin hgapped => exact (hfirst hgapped _ hin).elim
  | binary _ _ _ _ _ hother _ => exact (hother hi hx).1
  | concat _ _ hgapped _ _ _ => grind

/-- How an operation on the canvas finds its inputs. -/
theorem Fuses.findsInput (hf : ctx.Fuses o op plan) {i : Nat} (hx : op.inputs[i]? = some x) :
    ctx.FindsInput op plan (ctx.mapOf op.output) i x := by
  have hmem : x ∈ op.inputs := mem_iff_getElem?.2 ⟨i, hx⟩
  unfold FindsInput
  split_ifs with hi
  · obtain ⟨hsamples, hafter⟩ := hf.operand hi hx
    refine ⟨?_, ctx.mapOf x, hsamples.axisMap_eq, hsamples.batch, hafter⟩
    cases hc : ctx.isCanvas x with
    | true => exact .inl (of_decide_eq_true hc)
    | false =>
      have hbatched := h.batched_of_input hf.known hmem hc
      exact .inr ⟨hbatched, h.isTileable (h.enabled hf.canvas) hsamples hbatched⟩
  · exact h.batched_of_input hf.known hmem (hf.ungapped h hi hx)

/-- **The tables of a settled state go together.** -/
theorem Settled.wellPlaced : ctx.WellPlaced where
  axisMap t := by
    rw [h.axisMap_iff]
    refine ⟨fun hrank => ?_, fun ⟨y, hy, hrank⟩ => ?_⟩
    · obtain ⟨y, hy⟩ := known_of_rank hrank
      exact ⟨y, hy, by rw [Graph.shapeOf_eq hy] at hrank; exact hrank⟩
    · rw [Graph.shapeOf_eq hy]
      exact hrank
  permutation t map hmap := (h.sound.placed.valid hmap).perm_range
  canvas t ht := by
    have hc : ctx.isCanvas t = true := decide_eq_true ht
    obtain ⟨p, op, plan, hp, -, -, hplan, -⟩ := h.sound.canvas_producer ht
    have hsamples := h.hasSamples hc
    exact ⟨h.enabled hc, ⟨p, plan, hp, hplan⟩, ctx.mapOf t, hsamples.axisMap_eq, hsamples.batch⟩
  plan o plan hplan := by
    obtain ⟨op, hop⟩ := h.sound.consistent.op_known (o := o) (by
      rw [show ctx.core.plans.get? o = some (.fused plan) from hplan]
      simp)
    have hf := h.fuses hop hplan
    exact ⟨op, ctx.mapOf op.output, hop, (hf.output_hasSamples h).axisMap_eq, hf.sound.gapped_ne,
      hf.sound.gapped_lt, fun i x hx => hf.findsInput h hx⟩

end Settled

end Context

open Context

/-! ## Main result -/

/-- **After gap inference, axis maps, placements and plans go together.** The sources are all graphs
that can be built, and the options and the limit of sizes are arbitrary. -/
theorem inferGaps_wellPlaced {lim lim' : Limit} {calls : List Graph.Call} {options : Options}
    {ctx₀ ctx ctx' : Context}
    (hinit : Context.initial lim (Graph.build lim' calls) options = .ok ctx₀)
    (hclone : Pass.cloneSource.run ctx₀ = (.ok (), ctx))
    (hinfer : Pass.inferGaps.run ctx = (.ok (), ctx')) :
    ctx'.cloned = ctx.cloned ∧ ctx'.grid = ctx₀.grid ∧ ctx'.WellPlaced := by
  have hsource := Graph.wellFormed_build lim' calls
  have hstart := starts_of_initial hinit
  have hcopying := ((after_cloneSource (P := False) hstart (hstart.source_eq ▸ hsource)
    False.elim).of_run hclone).copying
  obtain ⟨hf, h0, -⟩ := fresh_of_cloning hsource hinit hclone
  obtain ⟨hsettled, hframe⟩ := (after_inferGaps_at hf h0).of_run hinfer
  have hgrid : ctx.grid = ctx₀.grid := by rw [hcopying.frame]
  exact ⟨hframe.cloned, hframe.grid.trans hgrid, hsettled.wellPlaced⟩

/-- Two samples go through two poolings side by side, which are on a canvas. -/
theorem inferGaps_wellPlaced_pools : ∃ ctx₀ ctx ctx',
    Context.initial .word64 (Graph.build .word64 (unevenPools 5 ⟨2, 2⟩)) .standard = .ok ctx₀ ∧
    Pass.cloneSource.run ctx₀ = (.ok (), ctx) ∧ Pass.inferGaps.run ctx = (.ok (), ctx') ∧
    ctx'.placements.get? ⟨3⟩ = some .canvas ∧
    ctx'.cloned = ctx.cloned ∧ ctx'.grid = ctx₀.grid ∧ ctx'.WellPlaced := by
  obtain ⟨ctx₀, ctx, hinit, hclone, hcloned⟩ := exists_cloned .word64
    (Graph.build .word64 (unevenPools 5 ⟨2, 2⟩)) .standard (by decide +kernel)
  have hok : ((cloned? .word64 (Graph.build .word64 (unevenPools 5 ⟨2, 2⟩)) .standard).map
      fun c => ((Pass.inferGaps.run c).1.toBool,
        (Pass.inferGaps.run c).2.placements.get? ⟨3⟩)) = some (true, some .canvas) := by
    decide +kernel
  rw [hcloned] at hok
  rcases hrun : Pass.inferGaps.run ctx with ⟨_ | _, ctx'⟩
  · simp [hrun, Except.toBool] at hok
  · simp only [hrun, Option.map_some, Option.some.injEq, Prod.mk.injEq] at hok
    exact ⟨ctx₀, ctx, ctx', hinit, hclone, hrun, hok.2, inferGaps_wellPlaced hinit hclone hrun⟩

end CanvasFusion
