import CanvasFusion.Proofs.Fusion.Settled
import CanvasFusion.Proofs.Tiling.CanvasShapes
import CanvasFusion.Proofs.Tiling.Operators

/-!
# Operations on the canvas

What a plan for the canvas says about the canvases of an operation. Windows slide from the canvas of
the input to that of the output (`Fuses.slidesOn`), padding moves cells from gaps into tiles
(`Fuses.padsOn`), and all other operators keep the canvas (`Fuses.canvas_eq`).

**Theorem (Fuses.inferShape_ok).** Applied to the canvas forms of its inputs, the operator gives the
canvas shape that inference recorded for its output.
-/

namespace CanvasFusion

open Operator List Pair Shape AxisMap

namespace Context

variable {ctx : Context} {t x : TensorId} {o : OpId} {op : Operation} {plan : FusedPlan}

/-- The operation is on the canvas by its plan. -/
structure Fuses (ctx : Context) (o : OpId) (op : Operation) (plan : FusedPlan) : Prop where
  known : ctx.cloned.ops.get? o = some op
  planned : ctx.plans.get? o = some (.fused plan)
  canvas : ctx.isCanvas op.output = true
  means : ctx.core.PlanFor op plan
  sound : ctx.core.SoundPlan op plan
  balanced : ctx.core.Balanced op plan ctx.gapOf
  operand : ∀ {i x}, i ∈ plan.gapped → op.inputs[i]? = some x →
    ctx.HasSamples x ∧ mapAfter op.kind (ctx.mapOf x) (ctx.mapOf op.output)

/-- An operation is on the canvas, or works on batched data. -/
theorem Settled.plan_cases (h : ctx.core.Settled) (hop : ctx.cloned.ops.get? o = some op) :
    ctx.plans.get? o = some .batched ∧ ctx.isCanvas op.output = false ∨
      ∃ plan, ctx.Fuses o op plan := by
  obtain ⟨y, hy⟩ := h.wellFormed.output_known hop
  have hs := h.sound
  have hplanned := (hs.consistent.op hop).resolve_left fun hnone => h.allPlaced _ y hy hnone.2
  obtain ⟨dec, -, hplan, hplace⟩ := hplanned.decision
  have hplan' : ctx.plans.get? o = some dec.plan := hplan
  have hplace' : ctx.placements.get? op.output = some dec.plan.placement := hplace
  cases hd : dec.plan with
  | batched => grind [isCanvas, Plan.placement]
  | fused plan =>
    rw [hd] at hplan hplan' hplace'
    have hcanvas : ctx.isCanvas op.output = true := by simp [isCanvas, hplace', Plan.placement]
    have hmeans := hs.planFor hop hplan
    refine .inr ⟨plan, hop, hplan', hcanvas, hmeans, hs.soundPlan hop hplan,
      h.solves.balanced hs hop hplan, fun {i x} hi hx => ?_⟩
    obtain ⟨map, hmap, -, hin⟩ := hmeans.output hs.base hs.placed hop hplanned.axisMap
    obtain ⟨mx, hfits, hafter⟩ := hin i hi x hx
    obtain rfl : ctx.mapOf op.output = map := mapOf_eq hmap
    obtain rfl : ctx.mapOf x = mx := mapOf_eq hfits.axisMap
    exact ⟨hfits.hasSamples, hafter⟩

theorem Settled.fuses (h : ctx.core.Settled) (hop : ctx.cloned.ops.get? o = some op)
    (hplan : ctx.plans.get? o = some (.fused plan)) : ctx.Fuses o op plan := by
  rcases h.plan_cases hop with ⟨hbatched, -⟩ | ⟨plan', hfuses⟩
  · cases hplan.symm.trans hbatched
  · cases hplan.symm.trans hfuses.planned
    exact hfuses

namespace Fuses

variable (hs : ctx.core.Settled) (h : ctx.Fuses o op plan)

include hs h

theorem output_hasSamples : ctx.HasSamples op.output := hs.hasSamples h.canvas

/-- The gaps around an operation, along any dimension. -/
theorem gaps (hx : x ∈ gappedInputs op plan) (d : Dim) :
    (plan.rules.get d).admitted ((ctx.gapOf x).get d) = (ctx.gapOf x).get d ∧
      (ctx.gapOf op.output).get d = (plan.rules.get d).after ((ctx.gapOf x).get d) := by
  cases hd : ctx.grid.isTiled d with
  | true =>
    obtain ⟨g, hg, hadm, hout⟩ := h.balanced d hd
    rw [hg x hx]
    exact ⟨hadm, hout⟩
  | false =>
    have hrule : plan.rules.get d = .identity := h.sound.untiled d hd
    have hx0 : (ctx.gapOf x).get d = 0 := hs.sound.gapped.gapOf_untiled x hd
    have hy0 : (ctx.gapOf op.output).get d = 0 := hs.sound.gapped.gapOf_untiled op.output hd
    rw [hrule, hx0, hy0]
    exact ⟨rfl, rfl⟩

omit hs in
/-- The first input, if it is on the canvas. -/
theorem first_operand {kind : Operator} {rest : List TensorId} (hk : op.kind = kind)
    (hin : op.inputs = x :: rest) (hg : plan.gapped = [0]) : x ∈ gappedInputs op plan ∧
      ctx.HasSamples x ∧ mapAfter kind (ctx.mapOf x) (ctx.mapOf op.output) := by
  have h0 : op.inputs[0]? = some x := by simp [hin]
  grind [mem_gappedInputs, operand]

/-! ### Windows -/

section Windows

variable {order : Pair Dim} {layout : Layout} {kernel stride dilation : Pair Nat}
  {pad : Pair Padding} {out : Shape}

/-- The canvases of a sliding window. -/
theorem slidesOn (hx : x ∈ gappedInputs op plan) (hmap : ctx.mapOf op.output = ctx.mapOf x)
    (horder : (ctx.mapOf x).spatialOrder layout = some order)
    (hslid : Operator.Slid layout (ctx.cloned.shapeOf x) kernel stride dilation pad out
      (ctx.cloned.shapeOf op.output))
    (hrules : ctx.core.WindowRules op x (ctx.mapOf x) order kernel stride dilation pad plan.rules) :
    SlidesOn (ctx.canvasOf x) (ctx.canvasOf op.output) (ctx.mapOf x) layout order kernel stride
        dilation pad ∧
      ∀ d, ctx.grid.isTiled d = true →
        ((plan.rules.get d).readsGap .unbounded = .ok true ↔
          Canvas.Reaches (ctx.canvasOf x) (ctx.canvasOf op.output) d (kernel.get (order.get d))
            (stride.get (order.get d)) (dilation.get (order.get d))
            (pad.get (order.get d)).front) := by
  have hextent : ∀ t d, (ctx.canvasOf t).extent.get d = _ := fun t d => ofFn_get ..
  have hout := hextent op.output
  rw [hmap] at hout
  have hvalid := fun d => spatial_of_order horder d ▸ hslid.window (order.get d)
  refine ⟨⟨hs.canvas_valid x, hs.canvas_valid op.output, rfl,
    hmap ▸ (h.output_hasSamples hs).valid hs, horder, fun d hd => ?_⟩, fun d hd => ?_⟩
  · have htiled : ctx.grid.isTiled d = true := (Grid.isTiled_iff (hs.sound.base.tiles_pos d)).2 hd
    have hgaps := h.gaps hs hx d
    rw [(hrules d).trans (if_pos htiled)] at hgaps
    exact Canvas.slides_of_admitted (hvalid d) (hextent x d) (hout d) hgaps.1 hgaps.2
  · rw [(hrules d).trans (if_pos hd)]
    exact Canvas.readsGap_iff (hvalid d) (hextent x d) (hout d)

end Windows

/-- The canvases of a padding. -/
theorem padsOn {p : ConstantPad} {map : AxisMap} (hx : x ∈ gappedInputs op plan)
    (hmap : ctx.mapOf op.output = map)
    (hbatch : extent p.front map.batch = 0 ∧ extent p.back map.batch = 0)
    (hrules : ∀ d, plan.rules.get d = if ctx.grid.isTiled d then
      .pad (extent p.front (map.fuse.get d) + extent p.back (map.fuse.get d))
      else .identity) :
    PadsOn (ctx.canvasOf x) (ctx.canvasOf op.output) map p := by
  refine ⟨hs.canvas_valid x, hs.canvas_valid op.output, rfl,
    hmap ▸ (h.output_hasSamples hs).valid hs, hbatch, fun d hd => ?_⟩
  have htiled : ctx.grid.isTiled d = true := (Grid.isTiled_iff (hs.sound.base.tiles_pos d)).2 hd
  obtain ⟨hadm, hafter⟩ := h.gaps hs hx d
  rw [hrules d, if_pos htiled] at hadm hafter
  simp only [GapRule.admitted, GapRule.after] at hadm hafter
  show (ctx.gapOf x).get d = (ctx.gapOf op.output).get d + _
  omega

/-! ### Operators that keep the canvas -/

/-- An operator that leaves gaps and sample extents alone keeps the canvas. -/
theorem canvas_eq (hrules : plan.rules = .both .identity) (hx : x ∈ gappedInputs op plan)
    (hextent : ∀ d, (ctx.cloned.shapeOf op.output).extent ((ctx.mapOf op.output).fuse.get d) =
      (ctx.cloned.shapeOf x).extent ((ctx.mapOf x).fuse.get d)) :
    ctx.canvasOf op.output = ctx.canvasOf x := by
  have hgap : ctx.gapOf op.output = ctx.gapOf x := ext_get fun d => by
    have hgaps := h.gaps hs hx d
    rw [hrules, both_identity_get] at hgaps
    exact hgaps.2
  simp only [canvasOf, hgap, Canvas.mk.injEq, true_and, and_true]
  grind

end Fuses

/-! ## The cases -/

/-- What an operation on the canvas is, operator by operator. -/
inductive CanvasStep (ctx : Context) (op : Operation) (plan : FusedPlan) : Prop where
  | conv {p : Conv2d} {x w : TensorId} {rest : List TensorId} {order : Pair Dim}
      (hkind : op.kind = .conv2d p) (hin : op.inputs = x :: w :: rest) (hrest : rest.length ≤ 1)
      (hgapped : plan.gapped = [0]) (hx : ctx.HasSamples x)
      (hmap : ctx.mapOf op.output = ctx.mapOf x)
      (hslides : SlidesOn (ctx.canvasOf x) (ctx.canvasOf op.output) (ctx.mapOf x) p.layout order
        ⟨(ctx.cloned.shapeOf w).extent 2, (ctx.cloned.shapeOf w).extent 3⟩ p.stride
        p.dilation p.pad)
      (hreads : ∀ d, ctx.grid.isTiled d = true →
        ((plan.rules.get d).readsGap .unbounded = .ok true ↔
          Canvas.Reaches (ctx.canvasOf x) (ctx.canvasOf op.output) d
            (get ⟨(ctx.cloned.shapeOf w).extent 2, (ctx.cloned.shapeOf w).extent 3⟩ (order.get d))
            (p.stride.get (order.get d)) (p.dilation.get (order.get d))
            (p.pad.get (order.get d)).front))
      (hshape : Operator.ConvShape p (ctx.cloned.shapeOf x) (ctx.cloned.shapeOf w)
        (rest.head?.map ctx.cloned.shapeOf) (ctx.cloned.shapeOf op.output))
  | pool {p : Pool2d} {x : TensorId} {order : Pair Dim} (hkind : op.kind = .pool2d p)
      (hin : op.inputs = [x]) (hgapped : plan.gapped = [0]) (hx : ctx.HasSamples x)
      (hmap : ctx.mapOf op.output = ctx.mapOf x) (hpad : p.pad = .both ⟨0, 0⟩)
      (hslides : SlidesOn (ctx.canvasOf x) (ctx.canvasOf op.output) (ctx.mapOf x) p.layout order
        p.kernel p.stride (.both 1) p.pad)
      (hchannels : ctx.channelsOf op.output = ctx.channelsOf x)
      (hshape : Operator.PoolShape p (ctx.cloned.shapeOf x) (ctx.cloned.shapeOf op.output))
  | pad {p : ConstantPad} {x : TensorId} (hkind : op.kind = .pad p) (hin : op.inputs = [x])
      (hgapped : plan.gapped = [0]) (hx : ctx.HasSamples x)
      (hmap : ctx.mapOf op.output = ctx.mapOf x) (hzero : p.value.isZero = true)
      (hpads : PadsOn (ctx.canvasOf x) (ctx.canvasOf op.output) (ctx.mapOf x) p)
      (hreads : ∀ d, ctx.grid.isTiled d = true → (plan.rules.get d).readsGap .unbounded = .ok true)
      (hshape : Operator.PadShape p (ctx.cloned.shapeOf x) (ctx.cloned.shapeOf op.output))
  | activation {f : Activation} {x : TensorId} (hkind : op.kind = .activation f)
      (hin : op.inputs = [x]) (hgapped : plan.gapped = [0]) (hx : ctx.HasSamples x)
      (hmap : ctx.mapOf op.output = ctx.mapOf x)
      (hcanvas : ctx.canvasOf op.output = ctx.canvasOf x)
      (hshape : ctx.cloned.shapeOf op.output = ctx.cloned.shapeOf x)
  | reshape {target : List Nat} {x : TensorId} (hkind : op.kind = .reshape target)
      (hin : op.inputs = [x]) (hgapped : plan.gapped = [0]) (hx : ctx.HasSamples x)
      (hmap : ctx.mapOf op.output = ctx.mapOf x)
      (hcanvas : ctx.canvasOf op.output = ctx.canvasOf x)
      (hshape : ctx.cloned.shapeOf op.output = ctx.cloned.shapeOf x)
  | transpose {perm : List Nat} {x : TensorId} (hkind : op.kind = .transpose perm)
      (hin : op.inputs = [x]) (hgapped : plan.gapped = [0]) (hx : ctx.HasSamples x)
      (hmap : (ctx.mapOf x).permuted perm = some (ctx.mapOf op.output))
      (hperm : isPermutation perm 4 = true)
      (hcanvas : ctx.canvasOf op.output = ctx.canvasOf x)
      (hchannels : ctx.channelsOf op.output = ctx.channelsOf x)
      (hshape : ctx.cloned.shapeOf op.output = perm.map (ctx.cloned.shapeOf x).extent)
  | binary {kind : BinaryKind} {a b : TensorId} (hkind : op.kind = .binary kind)
      (hin : op.inputs = [a, b]) (hsome : ∃ i ∈ plan.gapped, i < 2) (hnodup : plan.gapped.Nodup)
      (hgapped : ∀ {i x}, i ∈ plan.gapped → op.inputs[i]? = some x → ctx.HasSamples x ∧
        ctx.mapOf x = ctx.mapOf op.output ∧ ctx.canvasOf x = ctx.canvasOf op.output ∧
        ctx.cloned.shapeOf x = ctx.cloned.shapeOf op.output)
      (hother : ∀ {i x}, i ∉ plan.gapped → op.inputs[i]? = some x → ctx.isCanvas x = false ∧
        (ctx.cloned.shapeOf x).Invariant (ctx.mapOf op.output))
      (hshape : broadcast (ctx.cloned.shapeOf a) (ctx.cloned.shapeOf b) =
        .ok (ctx.cloned.shapeOf op.output))
  | concat {axis : Nat} {x : TensorId} {rest : List TensorId} (hkind : op.kind = .concat axis)
      (hin : op.inputs = x :: rest) (hgapped : plan.gapped = List.range op.inputs.length)
      (haxis : axis = (ctx.mapOf op.output).channel)
      (hall : ∀ x ∈ op.inputs, ctx.HasSamples x ∧ ctx.mapOf x = ctx.mapOf op.output ∧
        ctx.canvasOf x = ctx.canvasOf op.output)
      (hshape : Operator.ConcatShape axis (ctx.cloned.shapeOf x)
        (op.inputs.map ctx.cloned.shapeOf) (ctx.cloned.shapeOf op.output))

namespace Fuses

variable (hs : ctx.core.Settled) (h : ctx.Fuses o op plan)

include hs h

omit hs in
theorem planFor {kind : Operator} (hk : op.kind = kind) :
    ctx.core.PlanFor ⟨kind, op.inputs, op.output⟩ plan :=
  hk ▸ h.means

theorem conv_step {p : Conv2d} (hk : op.kind = .conv2d p) : ctx.CanvasStep op plan := by
  obtain ⟨x, w, rest, map, order, hin, -, hfits, horder, hg, hrules⟩ := h.planFor hk
  obtain ⟨x', w', rest', hin', hlen, hshape⟩ := conv_operands hs.sound.base h.known hk
  cases hin.symm.trans hin'
  obtain ⟨hmem, hx, hmap⟩ := h.first_operand hk hin hg
  obtain rfl : ctx.mapOf x = map := mapOf_eq hfits.axisMap
  obtain ⟨hslides, hreads⟩ := h.slidesOn hs hmem hmap horder hshape.slid hrules
  exact .conv hk hin hlen hg hx hmap hslides hreads hshape

theorem pool_step {p : Pool2d} (hk : op.kind = .pool2d p) : ctx.CanvasStep op plan := by
  obtain ⟨x, map, order, hin, hpad, hfits, horder, hg, hrules⟩ := h.planFor hk
  have hshape := pool_shape hs.sound.base h.known hk hin
  obtain ⟨hmem, hx, hmap⟩ := h.first_operand hk hin hg
  obtain rfl : ctx.mapOf x = map := mapOf_eq hfits.axisMap
  obtain ⟨hslides, -⟩ := h.slidesOn hs hmem hmap horder hshape.slid hrules
  refine .pool hk hin hg hx hmap hpad hslides ?_ hshape
  rw [channelsOf, channelsOf, hmap]
  refine hshape.slid.off _ fun d => ?_
  rw [← hslides.layout_eq.2]
  exact (Layout.isValid_iff.1 hshape.layout).channel_ne_fuse d

theorem pad_step {p : ConstantPad} (hk : op.kind = .pad p) : ctx.CanvasStep op plan := by
  obtain ⟨x, map, hin, hzero, hfits, hfront, hback, hg, hrules⟩ := h.planFor hk
  obtain ⟨hmem, hx, hmap⟩ := h.first_operand hk hin hg
  obtain rfl : ctx.mapOf x = map := mapOf_eq hfits.axisMap
  have hreads : ∀ d, ctx.grid.isTiled d = true →
      (plan.rules.get d).readsGap .unbounded = .ok true := by
    intro d hd
    rw [(hrules d).trans (if_pos hd)]
    rfl
  exact .pad hk hin hg hx hmap hzero (h.padsOn hs hmem hmap ⟨hfront, hback⟩ hrules) hreads
    (pad_shape hs.sound.base h.known hk hin)

theorem activation_step {f : Activation} (hk : op.kind = .activation f) :
    ctx.CanvasStep op plan := by
  obtain ⟨x, hin, -, rfl⟩ := h.planFor hk
  obtain ⟨hmem, hx, hmap⟩ := h.first_operand hk hin rfl
  have hshape := hs.wellFormed.op_shape h.known
  rw [hk, hin] at hshape
  have heq : ctx.cloned.shapeOf op.output = ctx.cloned.shapeOf x := (Except.ok.inj hshape).symm
  refine .activation hk hin rfl hx hmap (h.canvas_eq hs rfl hmem fun d => ?_) heq
  rw [heq, hmap]

theorem reshape_step {target : List Nat} (hk : op.kind = .reshape target) :
    ctx.CanvasStep op plan := by
  obtain ⟨x, hin, -, heq, rfl⟩ := h.planFor hk
  obtain ⟨hmem, hx, hmap⟩ := h.first_operand hk hin rfl
  have heq' : ctx.cloned.shapeOf op.output = ctx.cloned.shapeOf x := heq.symm
  refine .reshape hk hin rfl hx hmap (h.canvas_eq hs rfl hmem fun d => ?_) heq'
  rw [heq', hmap]

theorem transpose_step {perm : List Nat} (hk : op.kind = .transpose perm) :
    ctx.CanvasStep op plan := by
  obtain ⟨x, hin, -, rfl⟩ := h.planFor hk
  obtain ⟨hmem, hx, hmap⟩ := h.first_operand hk hin rfl
  have hshape := hs.wellFormed.op_shape h.known
  rw [hk, hin] at hshape
  obtain ⟨hperm, heq⟩ := inferTranspose_eq_ok hshape
  rw [hx.rank hs] at hperm
  -- The axis of a role is where the permutation has the old axis.
  obtain ⟨-, hchannel, hfuse⟩ := permuted_eq_some.1 hmap
  refine .transpose hk hin rfl hx hmap hperm (h.canvas_eq hs rfl hmem fun d => ?_) ?_ heq
  · rw [heq, extent, getElem?_map, getElem?_of_idxOf? (hfuse d)]
    rfl
  · rw [channelsOf, heq, extent, getElem?_map, getElem?_of_idxOf? hchannel]
    rfl

theorem binary_step {kind : BinaryKind} (hk : op.kind = .binary kind) : ctx.CanvasStep op plan := by
  obtain ⟨map, hmap, hrules, hne, hnodup, hlt, -, hin⟩ := h.planFor hk
  obtain rfl : ctx.mapOf op.output = map := mapOf_eq hmap
  have hshape := hs.wellFormed.op_shape h.known
  rw [hk] at hshape
  obtain ⟨sa, sb, hshapes, hbroadcast⟩ := inferShape_binary hshape
  obtain ⟨a, tail, hinputs, rfl, htail⟩ := map_eq_cons_iff.1 hshapes
  obtain ⟨b, rfl, rfl⟩ := map_eq_singleton_iff.1 htail
  refine .binary hk hinputs ?_ hnodup (fun {i x} hi hx => ?_) (fun {i x} hi hx => ?_) hbroadcast
  · obtain ⟨i, hi⟩ := exists_mem_of_ne_nil _ hne
    grind
  · have hcase := hin i x hx
    rw [if_pos hi] at hcase
    obtain ⟨heq, hfits⟩ := hcase
    have heq' : ctx.cloned.shapeOf x = ctx.cloned.shapeOf op.output := heq
    have hmapx : ctx.mapOf x = ctx.mapOf op.output := mapOf_eq hfits.axisMap
    refine ⟨hfits.hasSamples, hmapx, ?_, heq'⟩
    refine (h.canvas_eq hs hrules (mem_gappedInputs.2 ⟨i, hi, hx⟩) fun d => ?_).symm
    rw [heq', hmapx]
  · have hcase := hin i x hx
    rw [if_neg hi] at hcase
    exact ⟨hcase.1, invariant_of_check hcase.2⟩

theorem concat_step {axis : Nat} (hk : op.kind = .concat axis) : ctx.CanvasStep op plan := by
  obtain ⟨map, hmap, haxis, rfl, hall⟩ := h.planFor hk
  obtain rfl : ctx.mapOf op.output = map := mapOf_eq hmap
  have hshape := hs.wellFormed.op_shape h.known
  rw [hk] at hshape
  obtain ⟨sx, srest, hshapes, hconcat⟩ := inferShape_concat hshape
  obtain ⟨x, rest, hinputs, rfl, rfl⟩ := map_eq_cons_iff.1 hshapes
  have hvalid := (h.output_hasSamples hs).valid hs
  rw [← map_cons, ← hinputs] at hconcat
  refine .concat hk hinputs rfl haxis (fun y hy => ?_) hconcat
  have hfits := hall y hy
  have hmapy : ctx.mapOf y = ctx.mapOf op.output := mapOf_eq hfits.axisMap
  obtain ⟨i, hi⟩ := mem_iff_getElem?.1 hy
  have hlt : i ∈ range op.inputs.length :=
    mem_range.2 (List.getElem?_eq_some_iff.1 hi).1
  refine ⟨hfits.hasSamples, hmapy, ?_⟩
  refine (h.canvas_eq hs rfl (mem_gappedInputs.2 ⟨i, hlt, hi⟩) fun d => ?_).symm
  -- Inputs of a concatenation differ along the channels only.
  have hne : axis ≠ (ctx.mapOf op.output).fuse.get d := haxis ▸ hvalid.channel_ne_fuse d
  obtain ⟨hlen, hagree⟩ := hconcat.agree _ (mem_map_of_mem hy)
  have hrank : (ctx.cloned.shapeOf y).length = 4 := hfits.hasSamples.rank hs
  have hy' := hagree ((ctx.mapOf op.output).fuse.get d) (by rw [hrank]; exact hvalid.fuse_lt d)
  rw [hconcat.shape_eq, extent_set_ne hne, hmapy]
  exact (hy'.resolve_left hne.symm).symm

/-- **What an operation on the canvas is.** -/
theorem step : ctx.CanvasStep op plan := by
  cases hk : op.kind with
  | conv2d p => exact h.conv_step hs hk
  | pool2d p => exact h.pool_step hs hk
  | pad p => exact h.pad_step hs hk
  | activation f => exact h.activation_step hs hk
  | reshape target => exact h.reshape_step hs hk
  | transpose perm => exact h.transpose_step hs hk
  | binary kind => exact h.binary_step hs hk
  | concat axis => exact h.concat_step hs hk
  | reduce | slice | softmax => exact (h.planFor hk).elim

end Fuses

/-! ## Shapes on the canvas -/

/-- The operator on the canvas. A reshape that keeps the shape keeps that of the canvas. -/
def canvasKindOf (ctx : Context) (op : Operation) : Operator :=
  match op.kind with
  | .reshape _ => .reshape (ctx.tiledShape op.output)
  | kind => kind

/-- The shape of an input in the form in which an operation on the canvas reads it. -/
def operandShape (ctx : Context) (plan : FusedPlan) (x : TensorId) (i : Nat) : Shape :=
  if i ∈ plan.gapped then ctx.tiledShape x else ctx.cloned.shapeOf x

namespace Fuses

variable (hs : ctx.core.Settled) (h : ctx.Fuses o op plan)

include hs h

/-- **On the canvas, the operator gives the recorded shape.** -/
theorem inferShape_ok : (ctx.canvasKindOf op).inferShape .unbounded
    (op.inputs.zipIdx.map fun (x, i) => ctx.operandShape plan x i) =
      .ok (ctx.tiledShape op.output) := by
  have hy := h.output_hasSamples hs
  have hm := hy.valid hs
  have hsy := hy.shape_eq hs
  cases h.step hs with
  | @conv p x w rest order hkind hin hrest hgapped hx hmap hslides _ hshape =>
    rw [hx.shape_eq hs, hsy, hmap] at hshape
    have hcanvas := inferConv_ok (hslides.convShape hshape)
    rw [canvasKindOf, hkind, hin, tiledShape, hmap]
    match rest, hrest with
    | [], _ => simpa [operandShape, hgapped, tiledShape, inferShape] using hcanvas
    | [b], _ => simpa [operandShape, hgapped, tiledShape, inferShape] using hcanvas
  | @pool p x order hkind hin hgapped hx hmap _ hslides hchannel hshape =>
    rw [hx.shape_eq hs, hsy, hmap, hchannel] at hshape
    have hcanvas := inferPool_ok (hslides.poolShape hshape)
    grind [canvasKindOf, tiledShape, operandShape, inferShape]
  | @pad p x hkind hin hgapped hx hmap _ hpads _ hshape =>
    rw [hx.shape_eq hs, hsy, hmap] at hshape
    have hcanvas := inferPad_ok (hpads.padShape hshape)
    grind [canvasKindOf, tiledShape, operandShape, inferShape]
  | activation hkind hin hgapped hx hmap hcanvas hshape =>
    grind [canvasKindOf, operandShape, tiledShape, channelsOf, inferShape]
  | @reshape target x hkind hin hgapped hx hmap hcanvas hshape =>
    grind [tiledShape, channelsOf, inferReshape_ok, canvasKindOf, operandShape, inferShape]
  | @transpose perm x hkind hin hgapped hx hmap hperm hcanvas hchannel hshape =>
    have hlen := (isPermutation_iff.1 hperm).1
    have hcanvas' : inferTranspose perm (ctx.tiledShape x) =
        .ok (perm.map (ctx.tiledShape x).extent) :=
      inferTranspose_ok (by rw [tiledShape, length_arrange]; exact hperm)
    grind [tiledShape, map_extent_arrange, canvasKindOf, operandShape, inferShape, HasSamples.valid]
  | @binary kind a b hkind hin hsome _ hgapped hother hshape =>
    have hsame : ∀ {i x}, i ∈ plan.gapped → op.inputs[i]? = some x →
        ctx.operandShape plan x i = ctx.tiledShape op.output := by
      intro i x hi hx
      obtain ⟨-, hmap, hcanvas, heq⟩ := hgapped hi hx
      rw [operandShape, if_pos hi, tiledShape, tiledShape, channelsOf, channelsOf, hmap,
        hcanvas, heq]
    obtain ⟨hsa, hsb⟩ := spreads_of_broadcast hshape
    have hspreads : ∀ {i x}, op.inputs[i]? = some x →
        (ctx.cloned.shapeOf x).Spreads (ctx.cloned.shapeOf op.output) →
        (ctx.operandShape plan x i).Spreads (ctx.tiledShape op.output) := by
      intro i x hx hspreads
      by_cases hi : i ∈ plan.gapped
      · rw [hsame hi hx]
        exact ⟨Nat.le_refl _, fun j _ => .inr (by rw [Nat.sub_self, Nat.add_zero])⟩
      · rw [operandShape, if_neg hi]
        rw [hsy] at hspreads
        exact (hother hi hx).2.spreads hm hspreads
    have ha : op.inputs[0]? = some a := by simp [hin]
    have hb : op.inputs[1]? = some b := by simp [hin]
    have hcanvas := broadcast_of_spreads (hspreads ha hsa) (hspreads hb hsb) (by
      grind)
    rw [canvasKindOf, hkind, hin]
    simpa [inferShape] using hcanvas
  | @concat axis x rest hkind hin hgapped haxis hall hshape =>
    have hshapes : ∀ z ∈ op.inputs, ctx.cloned.shapeOf z = (ctx.mapOf op.output).arrange
        (ctx.canvasOf op.output).count (ctx.channelsOf z) (ctx.canvasOf op.output).extent := by
      grind [HasSamples.shape_eq]
    have hx : x ∈ op.inputs := by simp [hin]
    rw [hsy, hshapes x hx, map_congr_left hshapes, haxis] at hshape
    have hcanvas := inferConcat_ok (concatShape_canvas hm hshape)
    have htiled : ∀ z ∈ op.inputs, (ctx.mapOf op.output).arrange 1 (ctx.channelsOf z)
        (ctx.canvasOf op.output).size = ctx.tiledShape z := by grind [tiledShape]
    have hoperands : (op.inputs.zipIdx.map fun (z, i) => ctx.operandShape plan z i) =
        op.inputs.map ctx.tiledShape := by
      refine ext_getElem? fun i => ?_
      rw [getElem?_map, getElem?_map, getElem?_zipIdx]
      cases hz : op.inputs[i]? with
      | none => rfl
      | some z =>
        have hi : i ∈ plan.gapped := by
          rw [hgapped]
          exact mem_range.2 (List.getElem?_eq_some_iff.1 hz).1
        simp [operandShape, hi]
    rw [htiled x hx, map_congr_left htiled] at hcanvas
    rw [hoperands, canvasKindOf, hkind, haxis]
    rw [hin, map_cons] at hcanvas ⊢
    exact hcanvas

end Fuses

end Context

end CanvasFusion
