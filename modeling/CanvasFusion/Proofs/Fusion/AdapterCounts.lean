import CanvasFusion.Proofs.Fusion.Demand
import CanvasFusion.Proofs.Fusion.PlacementInvariant

/-!
# How many adapters there are

Emission makes an adapter when the first operation asks for it, and finds it again later. How many
there are in the end is known from what gap inference leaves behind, without an order of emission: a
batched tensor enters the canvas (`EntersCanvas`), a canvas tensor leaves it (`LeavesCanvas`), or
its gaps have to be cleared (`NeedsClearing`).

**Theorem (fuse_counts_adapters).** The report counts these tensors, each once, and every operation
of the fused graph stands for an operation of the working copy or belongs to one of the adapters.
-/

namespace CanvasFusion

open List

/-! ## The length of a tiling -/

variable {m : AxisMap}

theorem AxisMap.isIdentity_canonicalPerm : isIdentity m.canonicalPerm = true ↔ m = .nchw := by
  obtain ⟨b, c, f, f'⟩ := m
  simp [isIdentity, canonicalPerm, nchw, range, range.loop]

theorem AxisMap.isIdentity_restoring (hm : m.Valid) :
    isIdentity m.restoring = true ↔ m = .nchw := by
  refine ⟨fun h => ?_, fun h => by rw [h]; rfl⟩
  have hrange : m.restoring = range 4 := by simpa [isIdentity, restoring] using h
  -- Each role is found at the axis that its place in the canonical order gives.
  have hextent : ∀ i < 4, Shape.extent m.restoring i = i := fun i hi =>
    Shape.extent_eq (by rw [hrange, getElem?_range hi])
  have hbatch := hextent _ hm.batch_lt
  have hchannel := hextent _ hm.channel_lt
  have hfuse := fun d => hextent _ (hm.fuse_lt d)
  simp only [restoring, arrange_batch hm, arrange_channel hm,
    arrange_fuse hm] at hbatch hchannel hfuse
  obtain ⟨b, c, f, f'⟩ := m
  cases hbatch
  cases hchannel
  cases hfuse .first
  cases hfuse .second
  rfl

/-- Gaps are padded in and the last ones cut off again, and axes are moved there and back. -/
theorem Canvas.length_tiling (K : Canvas) (hm : m.Valid) (C : Nat) :
    (K.tiling m C).length =
      3 + (if K.gap = .both 0 then 0 else 2) + (if m = .nchw then 0 else 2) := by
  have hlen : ∀ {perm}, (isIdentity perm = true ↔ m = .nchw) →
      (transposing perm).length = if m = .nchw then 0 else 1 := fun h => by
    simp only [transposing, h, apply_ite List.length, length_nil, length_singleton]
  simp only [tiling, length_append, hlen AxisMap.isIdentity_canonicalPerm,
    hlen (AxisMap.isIdentity_restoring hm), length_nil, length_cons]
  split_ifs <;> rfl

/-- A ledger with a key for each member of a list that satisfies a property. -/
theorem Ledger.Counted.perm_filter {κ ν : Type} [DecidableEq κ] {l : Ledger κ ν} {n : Nat}
    (h : l.Counted n) {p : κ → Prop} [DecidablePred p] (hp : ∀ k, l.get? k ≠ none ↔ p k)
    {ks : List κ} (hks : ks.Nodup) (hmem : ∀ k, p k → k ∈ ks) : l.keys.Perm (ks.filter p) := by
  refine (perm_ext_iff_of_nodup h.nodup (hks.filter _)).2 fun k => ?_
  rw [mem_keys, hp, mem_filter, decide_eq_true_eq, and_iff_right_of_imp (hmem k)]

namespace Context

variable {ctx ctx₀ ctx₁ ctx₂ ctx₃ : Context} {t x : TensorId} {o : OpId} {op : Operation}
  {plan : FusedPlan} {P : Prop} {p : TensorId × Nat}

/-! ## Who asks for an adapter -/

/-- A batched tensor that an operation on the canvas reads at a place that has gaps. -/
def EntersCanvas (ctx : Context) (t : TensorId) : Prop :=
  ctx.placements.get? t = some .batched ∧ ∃ o op plan i, ctx.cloned.ops.get? o = some op ∧
    ctx.plans.get? o = some (.fused plan) ∧ i ∈ plan.gapped ∧ op.inputs[i]? = some t

/-- A canvas tensor that is an output of the graph or read by an operation on batched data. -/
def LeavesCanvas (ctx : Context) (t : TensorId) : Prop :=
  ctx.placements.get? t = some .canvas ∧ (t ∈ ctx.cloned.outputs ∨ ∃ o op,
    ctx.cloned.ops.get? o = some op ∧ ctx.plans.get? o = some .batched ∧ t ∈ op.inputs)

/-- A canvas tensor that an operation on the canvas cannot read as it is. -/
def NeedsClearing (ctx : Context) (t : TensorId) : Prop :=
  ctx.placements.get? t = some .canvas ∧ ∃ o op plan, ctx.cloned.ops.get? o = some op ∧
    ctx.plans.get? o = some (.fused plan) ∧ t ∈ op.inputs ∧ ctx.needsMask plan t = .ok true

theorem operandNeeds_tiled :
    (ctx.operandNeeds plan p).tiled t ↔ p.2 ∈ plan.gapped ∧ ctx.isCanvas p.1 = false ∧ t = p.1 := by
  grind [operandNeeds, Needs.mask, Needs.none, Needs.tile, batchedNeeds_other]

theorem operandNeeds_masked : (ctx.operandNeeds plan p).masked t ↔
    p.2 ∈ plan.gapped ∧ ctx.isCanvas p.1 = true ∧ ctx.needsMask plan p.1 = .ok true ∧ t = p.1 := by
  unfold operandNeeds
  split_ifs with hgapped hcanvas hmask
  · simp [Needs.mask, hgapped, hcanvas, hmask]
  · simp [Needs.none, hmask]
  · simp [Needs.tile, hcanvas]
  · simp [batchedNeeds_other, hgapped]

theorem operandNeeds_defused : (ctx.operandNeeds plan p).defused t ↔
    p.2 ∉ plan.gapped ∧ t = p.1 ∧ ctx.isCanvas p.1 = true := by
  grind [operandNeeds, Needs.mask, Needs.none, Needs.tile, batchedNeeds_defused]

theorem defuse_if_other {c : Prop} [Decidable c] : ¬ (if c then Needs.defuse x else .none).tiled t ∧
    ¬ (if c then Needs.defuse x else .none).masked t := by
  split_ifs <;> exact ⟨id, id⟩

/-! ## The forms at the end of a run -/

section Run

variable (h : Run P ctx₀ ctx₁ ctx₂ ctx₃) (hbooks : ctx₃.Accounted)

include h hbooks

/-- Every operation has been emitted, so all that is asked for is there. -/
theorem Run.exists_demand {p : Needs → Prop} : (∃ o ∈ ctx₃.visited, p (ctx₃.demand o)) ↔
    (∃ o op, ctx₃.cloned.ops.get? o = some op ∧ ctx₃.plans.get? o = some .batched ∧
      p (.any op.inputs ctx₃.batchedNeeds)) ∨
    ∃ o op plan, ctx₃.Fuses o op plan ∧ p (ctx₃.fusedNeeds op plan (ctx₃.roleOf op.output)) := by
  constructor
  · rintro ⟨o, ho, hp⟩
    obtain ⟨op, hop, -⟩ := hbooks.ready o ho
    rcases h.emitted.emitting.settled.plan_cases hop with ⟨hplan, -⟩ | ⟨plan, hfuses⟩
    · rw [demand, hop, hplan] at hp
      exact .inl ⟨o, op, hop, hplan, hp⟩
    · rw [demand, hop, hfuses.planned] at hp
      exact .inr ⟨o, op, plan, hfuses, hp⟩
  · rintro (⟨o, op, hop, hplan, hp⟩ | ⟨o, op, plan, hfuses, hp⟩)
    · refine ⟨o, h.emitted.mem_visited (h.emitted.cloned ▸ hop), ?_⟩
      rwa [demand, hop, hplan]
    · refine ⟨o, h.emitted.mem_visited (h.emitted.cloned ▸ hfuses.known), ?_⟩
      rwa [demand, hfuses.known, hfuses.planned]

theorem Run.tiled_iff : ctx₃.tiled.get? t ≠ none ↔ ctx₃.EntersCanvas t := by
  have hs := h.emitted.emitting.settled
  rw [hbooks.tiled, h.exists_demand hbooks (p := fun n => n.tiled t)]
  constructor
  · rintro (⟨o, op, -, -, x, -, hx⟩ | ⟨o, op, plan, hfuses, ⟨⟨x, i⟩, hx, hneeds⟩ | hneeds⟩)
    · exact (batchedNeeds_other.1 hx).elim
    · obtain ⟨hi, hcanvas, rfl⟩ := operandNeeds_tiled.1 hneeds
      have hx := mem_zipIdx_iff_getElem?.1 hx
      exact ⟨hs.batched_of_input hfuses.known (mem_of_getElem? hx) hcanvas, o, op, plan, i,
        hfuses.known, hfuses.planned, hi, hx⟩
    · exact (defuse_if_other.1 hneeds).elim
  · rintro ⟨hbatched, o, op, plan, i, hop, hplan, hi, hx⟩
    refine .inr ⟨o, op, plan, hs.fuses hop hplan, .inl ⟨(t, i), mem_zipIdx_iff_getElem?.2 hx,
      operandNeeds_tiled.2 ⟨hi, ?_, rfl⟩⟩⟩
    rw [isCanvas, hbatched]
    rfl

theorem Run.masked_iff : ctx₃.masked.get? t ≠ none ↔ ctx₃.NeedsClearing t := by
  have hs := h.emitted.emitting.settled
  rw [hbooks.masked, h.exists_demand hbooks (p := fun n => n.masked t)]
  constructor
  · rintro (⟨o, op, -, -, x, -, hx⟩ | ⟨o, op, plan, hfuses, ⟨⟨x, i⟩, hx, hneeds⟩ | hneeds⟩)
    · exact (batchedNeeds_other.2 hx).elim
    · obtain ⟨-, hcanvas, hmask, rfl⟩ := operandNeeds_masked.1 hneeds
      exact ⟨of_decide_eq_true hcanvas, o, op, plan, hfuses.known, hfuses.planned,
        mem_of_getElem? (mem_zipIdx_iff_getElem?.1 hx), hmask⟩
    · exact (defuse_if_other.2 hneeds).elim
  · rintro ⟨hcanvas, o, op, plan, hop, hplan, hx, hmask⟩
    have hfuses := hs.fuses hop hplan
    obtain ⟨i, hi⟩ := mem_iff_getElem?.1 hx
    -- An input on a canvas shares the gaps of the operation.
    have hgapped : i ∈ plan.gapped := by
      by_contra hungapped
      cases (decide_eq_true hcanvas).symm.trans (hfuses.ungapped hs hungapped hi)
    exact .inr ⟨o, op, plan, hfuses, .inl ⟨(t, i), mem_zipIdx_iff_getElem?.2 hi,
      operandNeeds_masked.2 ⟨hgapped, decide_eq_true hcanvas, hmask, rfl⟩⟩⟩

theorem Run.defused_iff : ctx₃.defused.get? t ≠ none ↔ ctx₃.LeavesCanvas t := by
  have hs := h.emitted.emitting.settled
  rw [hbooks.defused, h.exists_demand hbooks (p := fun n => n.defused t)]
  constructor
  · rintro (⟨o, op, hop, hplan, x, hx, hneeds⟩ | ⟨o, op, plan, hfuses,
      ⟨⟨x, i⟩, hx, hneeds⟩ | hneeds⟩)
    · obtain ⟨rfl, hcanvas⟩ := batchedNeeds_defused.1 hneeds
      exact ⟨of_decide_eq_true hcanvas, .inr ⟨o, op, hop, hplan, hx⟩⟩
    · grind [operandNeeds_defused, Fuses.ungapped]
    · split_ifs at hneeds with hrole
      · cases hneeds
        exact ⟨of_decide_eq_true hfuses.canvas, .inl (roleOf_eq_output.1 hrole)⟩
      · exact hneeds.elim
  · rintro ⟨hcanvas, hout | ⟨o, op, hop, hplan, hx⟩⟩
    · -- A canvas tensor is written by an operation on the canvas, which de-fuses it at once.
      obtain ⟨o, op, plan, -, hop, rfl, hplan, -⟩ := hs.sound.canvas_producer hcanvas
      refine .inr ⟨o, op, plan, hs.fuses hop hplan, .inr ?_⟩
      rw [if_pos (roleOf_eq_output.2 hout)]
      rfl
    · exact .inl ⟨o, op, hop, hplan, t, hx, batchedNeeds_defused.2 ⟨rfl, decide_eq_true hcanvas⟩⟩

end Run

/-- A tensor that enters the canvas is known, and tiled by as many operators as its gap and its axes
ask for. -/
theorem Settled.tilingOps_eq (hs : ctx.core.Settled) (ht : ctx.EntersCanvas t) :
    t ∈ ctx.cloned.tensors.handles ∧ ctx.tilingOps t =
      3 + (if ctx.gaps.get? t = some (.both 0) then 0 else 2) +
        (if ctx.axisMaps.get? t = some .nchw then 0 else 2) := by
  obtain ⟨-, o, op, plan, i, hop, hplan, hi, hx⟩ := ht
  have hsamples := ((hs.fuses hop hplan).operand hi hx).1
  obtain ⟨y, hy⟩ := hsamples.known hs
  have hgap : ctx.gaps.get? t = some (ctx.gapOf t) := hs.gap hy
  refine ⟨Table.mem_handles.2 (Table.lt_of_get? hy), ?_⟩
  rw [tilingOps, Canvas.length_tiling _ (hsamples.valid hs), hgap, hsamples.axisMap_eq]
  simp only [Option.some.injEq]
  rfl

end Context

/-- An input is pooled, padded and added to itself. The sum is an output, and it is read on the
canvas and off it. -/
def paddedResidual : List Graph.Call :=
  let pad : Operator := .pad ⟨[0, 0, 0, 1], [0, 0, 0, 0], .zero⟩
  [.createTensor ⟨.f32, [2, 1, 1, 3], .input, none⟩,
    .emit (.pool2d ⟨.max, ⟨1, 2⟩, ⟨1, 1⟩, .both ⟨0, 0⟩, .nchw⟩) [⟨0⟩] .transient,
    .emit pad [⟨1⟩] .transient, .emit (.binary .add) [⟨2⟩, ⟨0⟩] .output, .emit pad [⟨3⟩] .output,
    .emit (.reduce .sum [0] false) [⟨3⟩] .output]

open Context Classical in
/-- **Adapters are shared, and nothing is emitted on the side.** However many operations ask for a
form of a tensor, and in whatever order, it is made once. -/
theorem fuse_counts_adapters {lim lim' : Limit} {calls : List Graph.Call} {options : Options}
    {r : Fused} (h : fuse lim options (Graph.build lim' calls) = .ok r) :
    ∃ ctx₀ ctx, Context.initial lim (Graph.build lim' calls) options = .ok ctx₀ ∧
      Pass.fuse.run ctx₀ = (.ok r, ctx) ∧
      let tensors := ctx.cloned.tensors.handles
      let c := r.report.counters
      c.tileAdapters = (tensors.filter ctx.EntersCanvas).length ∧
      c.defuseAdapters = (tensors.filter ctx.LeavesCanvas).length ∧
      c.masks = (tensors.filter ctx.NeedsClearing).length ∧
      r.graph.ops.size = c.fusedOps + c.batchedOps + c.masks +
        c.defuseAdapters * (r.report.tileCount + 1) +
        ((tensors.filter ctx.EntersCanvas).map fun t =>
          3 + (if ctx.gaps.get? t = some (.both 0) then 0 else 2) +
            (if ctx.axisMaps.get? t = some .nchw then 0 else 2)).sum := by
  obtain ⟨ctx₀, ctx₁, ctx₂, ctx₃, ctx, hinit, hrun, h₀, hphases, hend⟩ :=
    exists_run (Graph.wellFormed_build lim' calls) h
  have hbooks := hphases.accounted h₀
  have hs := hphases.emitted.emitting.settled
  have hcanvas : ∀ {t}, ctx₃.isCanvas t = true → t ∈ ctx₃.cloned.tensors.handles := fun ht => by
    obtain ⟨y, hy⟩ := (hs.hasSamples ht).known hs
    exact Table.mem_handles.2 (Table.lt_of_get? hy)
  have htiled := hbooks.tallied.tiled.perm_filter (fun _ => hphases.tiled_iff hbooks)
    (Table.nodup_handles _) fun _ ht => (hs.tilingOps_eq ht).1
  have hdefused := hbooks.tallied.defused.perm_filter (fun _ => hphases.defused_iff hbooks)
    (Table.nodup_handles _) fun _ ht => hcanvas (decide_eq_true ht.1)
  have hmasked := hbooks.tallied.masked.perm_filter (fun _ => hphases.masked_iff hbooks)
    (Table.nodup_handles _) fun _ ht => hcanvas (decide_eq_true ht.1)
  refine ⟨ctx₀, ctx, hinit, hrun, ?_⟩
  rw [hend.report, hend.graph, hend.relabels.ops_eq, hend.state]
  refine ⟨?_, ?_, ?_, ?_⟩
  · exact hbooks.tallied.tiled.count.trans htiled.length_eq
  · exact hbooks.tallied.defused.count.trans hdefused.length_eq
  · exact hbooks.tallied.masked.count.trans hmasked.length_eq
  · rw [hbooks.tallied.ops, countedOps, (htiled.map _).sum_eq]
    refine congrArg (_ + ·) (congrArg List.sum (List.map_congr_left fun t ht => ?_))
    exact (hs.tilingOps_eq (of_decide_eq_true (List.mem_filter.1 ht).2)).2

open Context Classical in
/-- The input is tiled once for two readers, and the sum is cut out once for a reader and the
caller. -/
theorem fuse_counts_adapters_residual : ∃ r ctx₀ ctx,
    Context.initial .word64 (Graph.build .word64 paddedResidual) .standard = .ok ctx₀ ∧
    Pass.fuse.run ctx₀ = (.ok r, ctx) ∧ r.graph.ops.size = 17 ∧
    (ctx.cloned.tensors.handles.filter ctx.EntersCanvas).length = 1 ∧
    (ctx.cloned.tensors.handles.filter ctx.LeavesCanvas).length = 2 ∧
    (ctx.cloned.tensors.handles.filter ctx.NeedsClearing).length = 1 := by
  obtain ⟨r, hr⟩ := exists_fused .word64 .standard (Graph.build .word64 paddedResidual)
    (by decide +kernel)
  have hcounts :
    (fuse .word64 .standard (Graph.build .word64 paddedResidual)).toOption.map (fun r =>
      (r.graph.ops.size, r.report.counters.tileAdapters, r.report.counters.defuseAdapters,
        r.report.counters.masks)) = some (17, 1, 2, 1) := by
    decide +kernel
  simp only [hr, Except.toOption, Option.map_some, Option.some.injEq, Prod.mk.injEq] at hcounts
  obtain ⟨hsize, htiled, hdefused, hmasked⟩ := hcounts
  obtain ⟨ctx₀, ctx, hinit, hrun, htiled', hdefused', hmasked', -⟩ := fuse_counts_adapters hr
  exact ⟨r, ctx₀, ctx, hinit, hrun, hsize, htiled'.symm.trans htiled, hdefused'.symm.trans hdefused,
    hmasked'.symm.trans hmasked⟩

end CanvasFusion
