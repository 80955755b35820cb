import CanvasFusion.Proofs.Eval.Running
import CanvasFusion.Proofs.Fusion.Run
import CanvasFusion.Proofs.Storage
import CanvasFusion.Proofs.Tiling.AdapterValues

/-!
# The values of adapters

In an assignment of values to the tensors of the fused graph, the forms of a tensor hold the same
samples: its tiled form is the batch on its canvas (`Emitting.tiled_value`), its masked form the
canvas with its gaps cleared (`Emitting.masked_value`), and its de-fused form the batch again
(`Emitting.defused_value`).

`CanvasOp` puts an operation on the canvas beside the operation that was emitted for it.
-/

namespace CanvasFusion

open Value List Canvas

variable {α : Type} [Scalar α]

/-- A chain of operations pipes the value of its first tensor to its last. -/
theorem Graph.Chain.pipes {g : Graph} {W : TensorId → Value α} (hg : g.WellFormed) (hW : g.Models W)
    {x y : TensorId} {kinds : List Operator} (h : g.Chain x kinds y) :
    Operator.Pipes kinds (W x) (W y) := by
  induction h with
  | nil => rfl
  | snoc _ hop ih =>
    obtain ⟨w, hw⟩ := hg.output_known hop
    exact Operator.pipes_snoc ih (hW.yields hg hop) (hW.full hw)

/-- What models a graph models the graphs that it grew from. -/
theorem Graph.Grows.models {g g' : Graph} {W : TensorId → Value α} (h : g.Grows g')
    (hg : g.WellFormed) (hW : g'.Models W) : g.Models W := by
  have hshape : ∀ {t x}, g.tensors.get? t = some x → g'.shapeOf t = g.shapeOf t := by
    grind [shapeOf_eq, tensor]
  refine ⟨fun hx => ?_, fun hx => ?_, fun {t x} hx hrole => ?_, fun {o op} hop => ?_⟩
  · grind [tensor, Models.shape]
  · grind [tensor, Models.full]
  · obtain ⟨x', hx', hspec, hdata⟩ := h.tensor hx
    have hholds := hW.constant hx' (hspec ▸ hrole)
    grind [Tensor.Holds]
  · obtain ⟨y, hy⟩ := hg.output_known hop
    rw [← hshape hy]
    exact hW.op (h.op hop)

section Forms

variable {g : Graph} {W : TensorId → Value α} {K : Canvas} {m : AxisMap} {C : Nat} {x f : TensorId}
  (hW : g.Models W) (hg : g.WellFormed) (hm : m.Valid)

include hW hg hm

/-- What is cut out of a canvas is the batch that the canvas holds. -/
theorem Graph.Cuts.eq_batch (h : g.Cuts K m C x f) (hx : (W x).Full)
    (hf : g.Has f (m.arrange K.count C K.extent)) {v : Value α} (hv : OnCanvas K m C v (W x)) :
    W f = v := by
  obtain ⟨parts, o, hop, hparts⟩ := h
  have hvalues : parts.map W = (List.range K.count).map (K.tileOf m C (W x)) := by
    rw [← forall₂_eq_eq_eq, forall₂_map_left_iff, forall₂_map_right_iff]
    refine hparts.flip.imp fun part n hpart => ?_
    obtain ⟨o', hop'⟩ := hpart
    obtain ⟨-, heq⟩ := yields_slice hx (hW.yields hg hop')
    exact heq
  have hconcat := yields_concat (hW.full_inputs hg hop) (hW.yields hg hop)
  rw [hvalues] at hconcat
  exact defusing_eq hm hv hconcat ((hW.of_has hf).2.trans hv.shape.symm)

/-- The product with the mask keeps the tiles and clears the gaps. -/
theorem Graph.Masks.onCanvas [LawfulScalar α] (h : g.Masks K m x f) (hK : K.Tiled)
    (hx : g.Has x (m.arrange 1 C K.size)) (hf : g.Has f (m.arrange 1 C K.size)) :
    (∀ v, OnCanvas K m C v (W x) → OnCanvas K m C v (W f)) ∧ ZeroGaps K m (W f) := by
  obtain ⟨c, o, y, hop, hy, hrole, hshape, hdata⟩ := h
  obtain ⟨hfull, hxs⟩ := hW.of_has hx
  obtain ⟨bytes, xs, hbytes, hxs', hlen, hc⟩ := hW.constant hy hrole
  -- The constant holds the ones and zeros that were encoded.
  rw [hdata, Option.some_inj] at hbytes
  rw [← hbytes, ElementType.decode_encode _ (mask_zero_or_one _ _)] at hxs'
  cases hxs'
  rw [hshape] at hc
  exact masking_onCanvas hK hm hfull hxs (hW.full hy) hc (hW.yields hg hop) (hW.of_has hf).2

end Forms

theorem forall₂_of_zipIdx {ι κ : Type} {R : ι → κ → Prop} {S : ι × Nat → κ → Prop} {xs : List ι}
    {ys : List κ} {k : Nat} (h : List.Forall₂ S (xs.zipIdx k) ys)
    (hR : ∀ i x y, xs[i]? = some x → S (x, k + i) y → R x y) : List.Forall₂ R xs ys := by
  induction xs generalizing ys k with
  | nil =>
    cases h
    exact .nil
  | cons x xs ih =>
    cases h with
    | cons hx h =>
      refine .cons (hR 0 x _ rfl hx) (ih h fun i z y hz hy => hR (i + 1) z y hz ?_)
      rwa [Nat.add_comm i 1, ← Nat.add_assoc]

namespace Context

variable {ctx : Context} {t x f y : TensorId} {o o' : OpId} {op : Operation} {plan : FusedPlan}
  {P : Prop} {W : TensorId → Value α} {inputs : List TensorId}

/-! ## Adapters -/

namespace Emitting

variable (h : Emitting P ctx) (hW : ctx.fused.Models W)

include h hW

/-- **The tiled form** of a batch. -/
theorem tiled_value (hf : ctx.tiled.get? t = some f) : ∃ x, ctx.fusedOf.get? t = some x ∧
    OnCanvas (ctx.canvasOf t) (ctx.mapOf t) (ctx.channelsOf t) (W x) (W f) ∧
      ZeroGaps (ctx.canvasOf t) (ctx.mapOf t) (W f) := by
  have hs := h.settled
  obtain ⟨-, hsamples, hbatched, x, hx, hchain⟩ := h.tiled hf
  have hhas := (h.fusedOf hx).1
  rw [fusedShape, if_neg (by grind)] at hhas
  obtain ⟨hfull, hshape⟩ := hW.of_has hhas
  exact ⟨x, hx, tiling_onCanvas (hs.canvas_valid t).toTiled (hsamples.valid hs) hfull
    (hshape.trans (hsamples.shape_eq hs)) (hchain.pipes h.runnable.wellFormed hW)⟩

/-- **The masked form** of a canvas. -/
theorem masked_value [LawfulScalar α] (hf : ctx.masked.get? t = some f) :
    ∃ x, ctx.fusedOf.get? t = some x ∧
      (∀ v, OnCanvas (ctx.canvasOf t) (ctx.mapOf t) (ctx.channelsOf t) v (W x) →
        OnCanvas (ctx.canvasOf t) (ctx.mapOf t) (ctx.channelsOf t) v (W f)) ∧
      ZeroGaps (ctx.canvasOf t) (ctx.mapOf t) (W f) := by
  have hs := h.settled
  obtain ⟨hhas, hcanvas, -, x, hx, hmasks⟩ := h.masked hf
  exact ⟨x, hx, hmasks.onCanvas hW h.runnable.wellFormed ((hs.hasSamples hcanvas).valid hs)
    (hs.canvas_valid t).toTiled (h.has_canvas hcanvas hx) hhas⟩

/-- **The de-fused form** of a canvas. -/
theorem defused_value (hf : ctx.defused.get? t = some f) : ∃ x, ctx.fusedOf.get? t = some x ∧
    ∀ v, OnCanvas (ctx.canvasOf t) (ctx.mapOf t) (ctx.channelsOf t) v (W x) → W f = v := by
  have hs := h.settled
  obtain ⟨hhas, hcanvas, x, hx, hcuts⟩ := h.defused hf
  have hsamples := hs.hasSamples hcanvas
  rw [hsamples.shape_eq hs] at hhas
  exact ⟨x, hx, fun v hv => hcuts.eq_batch hW h.runnable.wellFormed (hsamples.valid hs)
    (hW.of_has (h.fusedOf hx).1).1 hhas hv⟩

end Emitting

/-! ## Operations on the canvas -/

theorem OperandAs.canvasAs {i : Nat} (h : ctx.OperandAs plan i x f) (hi : i ∈ plan.gapped) :
    ctx.CanvasAs plan x f := by
  rwa [OperandAs, if_pos hi] at h

theorem OperandAs.batchedAs {i : Nat} (h : ctx.OperandAs plan i x f) (hi : i ∉ plan.gapped) :
    ctx.BatchedAs x f := by
  rwa [OperandAs, if_neg hi] at h

/-- An operation of the working copy on the canvas, and the operation of the fused graph for it. -/
structure CanvasOp (ctx : Context) (o : OpId) (op : Operation) (plan : FusedPlan) (o' : OpId)
    (inputs : List TensorId) (y : TensorId) : Prop where
  fuses : ctx.Fuses o op plan
  known : ctx.fused.ops.get? o' = some ⟨ctx.canvasKindOf op, inputs, y⟩
  output : ctx.fused.Has y (ctx.tiledShape op.output)
  operands : List.Forall₂ (fun p => ctx.OperandAs plan p.2 p.1) op.inputs.zipIdx inputs

/-- What was emitted for an operation on the canvas. -/
theorem Emitting.exists_canvasOp (h : Emitting P ctx) (hop : ctx.cloned.ops.get? o = some op)
    (hplan : ctx.plans.get? o = some (.fused plan)) (hy : ctx.fusedOf.get? op.output = some y) :
    ∃ o' inputs, ctx.CanvasOp o op plan o' inputs y := by
  have hs := h.settled
  obtain ⟨hhas, hemitted⟩ := h.fusedOf hy
  have hfuses := hs.fuses hop hplan
  rw [fusedShape, if_pos hfuses.canvas] at hhas
  cases hemitted with
  | source hx hrole _ _ _ =>
    exact absurd (hs.wellFormed.mem_sources.2 ⟨_, hx, hrole⟩)
      (hs.wellFormed.not_source_of_output hop)
  | batched _ _ hbatched _ _ => grind [Fuses.canvas]
  | canvas hfuses' hout hop' hinputs _ _ =>
    -- A tensor is the output of one operation.
    cases hs.wellFormed.op_eq_of_output hfuses'.known hop hout
    cases hfuses'.known.symm.trans hop
    cases hfuses'.planned.symm.trans hplan
    exact ⟨_, _, hfuses, hop', hhas, hinputs⟩

namespace CanvasOp

variable (hop : ctx.CanvasOp o op plan o' inputs y)

include hop

theorem operand_at {i : Nat} (hx : op.inputs[i]? = some x) :
    ∃ f, inputs[i]? = some f ∧ ctx.OperandAs plan i x f := by
  have hpair : op.inputs.zipIdx[i]? = some (x, i) := by grind
  obtain ⟨f, hf, hform⟩ := forall₂_getElem? hop.operands hpair
  exact ⟨f, hf, hform⟩

/-- What is true of every input and its form is true of the inputs, one by one. -/
theorem forall₂_inputs {R : TensorId → TensorId → Prop}
    (hR : ∀ i x f, op.inputs[i]? = some x → ctx.OperandAs plan i x f → R x f) :
    List.Forall₂ R op.inputs inputs :=
  forall₂_of_zipIdx hop.operands fun i x f hx hf => hR i x f hx (by rwa [Nat.zero_add] at hf)

theorem length_inputs : inputs.length = op.inputs.length := by
  rw [← hop.operands.length_eq, length_zipIdx]

section Values

variable (h : Emitting P ctx) (hW : ctx.fused.Models W) {kind : Operator}

include h hW

theorem yields : (ctx.canvasKindOf op).Yields (inputs.map W) (W y) :=
  hW.yields h.runnable.wellFormed hop.known

/-- The only input of an operation on the canvas. -/
theorem single (hkind : op.kind = kind) (hin : op.inputs = [x]) (hgapped : plan.gapped = [0]) :
    ∃ f, ctx.CanvasAs plan x f ∧ (W f).Full ∧ (W f).shape = ctx.tiledShape x ∧
      (ctx.canvasKindOf ⟨kind, op.inputs, op.output⟩).Yields [W f] (W y) := by
  subst hkind
  obtain ⟨f, hf, hform⟩ := hop.operand_at (i := 0) (x := x) (by rw [hin]; rfl)
  have hlen := hop.length_inputs
  rw [hin] at hlen
  obtain ⟨g, rfl⟩ := length_eq_one_iff.1 hlen
  obtain rfl : g = f := Option.some.inj hf
  have hcanvas := hform.canvasAs (by grind)
  obtain ⟨hfull, hshape⟩ := hW.of_has (h.has_of_canvasAs hcanvas)
  exact ⟨g, hcanvas, hfull, hshape, hop.yields h hW⟩

/-- The two inputs of an operation on the canvas. -/
theorem pair (hkind : op.kind = kind) {a b : TensorId} (hin : op.inputs = [a, b]) :
    ∃ f g, ctx.OperandAs plan 0 a f ∧ ctx.OperandAs plan 1 b g ∧ (W f).Full ∧ (W g).Full ∧
      (ctx.canvasKindOf ⟨kind, op.inputs, op.output⟩).Yields [W f, W g] (W y) := by
  subst hkind
  obtain ⟨f, hf, hform⟩ := hop.operand_at (i := 0) (x := a) (by rw [hin]; rfl)
  obtain ⟨g, hg, hform'⟩ := hop.operand_at (i := 1) (x := b) (by rw [hin]; rfl)
  have hlen := hop.length_inputs
  rw [hin] at hlen
  obtain ⟨f', g', rfl⟩ := length_eq_two.1 hlen
  obtain rfl : f' = f := Option.some.inj hf
  obtain rfl : g' = g := Option.some.inj hg
  exact ⟨f', g', hform, hform', (hW.of_has (h.has_of_operandAs hform)).1,
    (hW.of_has (h.has_of_operandAs hform')).1, hop.yields h hW⟩

end Values

end CanvasOp

end Context

end CanvasFusion
