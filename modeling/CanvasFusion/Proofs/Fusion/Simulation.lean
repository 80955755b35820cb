import CanvasFusion.Proofs.Fusion.CopiedValues
import CanvasFusion.Proofs.Fusion.GapFills

/-!
# The fused graph simulates the working copy

Values for the working copy and for the fused graph that agree on the inputs agree everywhere
(`Emitting.simulates`): a batched tensor has the same value in both, and a canvas tensor has the
samples of its value as tiles (`Simulates`). Each operation on the canvas does to tiles what it does
to samples (`CanvasOp.onCanvas`).

This rests on nothing of what is in gaps coming into tiles (`Sealed`). There are two reasons for
that: a zero behaves like one (`Emitting.sealed_of_lawful`), or no operation reads gaps, whatever
scalars are (`Emitting.sealed_of_not_readsGaps`).
-/

namespace CanvasFusion

open Value List

variable {α : Type} [Scalar α]

/-- Gap cells that act like zeros: they add nothing to a sum of products, and are what samples are
padded with. -/
def InertGaps (K : Canvas) (m : AxisMap) (X : Value α) : Prop :=
  ∀ c Y, X.shape.Within (m.arrange 0 c Y) → K.InGap Y →
    (∀ acc a : α, Scalar.add acc (Scalar.mul (X.cell (m.arrange 0 c Y)) a) = acc) ∧
      ∀ s : Single, s.isZero = true → X.cell (m.arrange 0 c Y) = Scalar.ofSingle s

theorem ZeroGaps.inert [LawfulScalar α] {K : Canvas} {m : AxisMap} {X : Value α}
    (h : ZeroGaps K m X) : InertGaps K m X := by
  intro c Y hin hgap
  refine ⟨h.neutral c Y hin hgap, fun s hs => ?_⟩
  rw [h c Y hin hgap, LawfulScalar.ofSingle_zero s hs]

namespace Context

variable {ctx : Context} {t x f y : TensorId} {o o' : OpId} {op : Operation} {plan : FusedPlan}
  {inputs : List TensorId} {P : Prop} {V W : TensorId → Value α}

/-- The tensor `f` of the fused graph holds what the tensor `t` of the working copy holds. -/
def Simulates (ctx : Context) (V W : TensorId → Value α) (t f : TensorId) : Prop :=
  if ctx.isCanvas t then
    OnCanvas (ctx.canvasOf t) (ctx.mapOf t) (ctx.channelsOf t) (V t) (W f)
  else W f = V t

/-- Nothing of what is in gaps comes into tiles: gap cells that are read act like zeros, and masking
leaves tiles alone. -/
structure Sealed (ctx : Context) (W : TensorId → Value α) : Prop where
  inert : ∀ {o plan x f}, ctx.plans.get? o = some (.fused plan) → ctx.CanvasAs plan x f →
    ctx.ReadsGapOf plan x → InertGaps (ctx.canvasOf x) (ctx.mapOf x) (W f)
  masked : ∀ {x y f v}, ctx.fusedOf.get? x = some y → ctx.masked.get? x = some f →
    OnCanvas (ctx.canvasOf x) (ctx.mapOf x) (ctx.channelsOf x) v (W y) →
    OnCanvas (ctx.canvasOf x) (ctx.mapOf x) (ctx.channelsOf x) v (W f)

section Values

variable (h : Emitting P ctx) (hW : ctx.fused.Models W)

include h hW

theorem Emitting.sealed_of_lawful [LawfulScalar α] : ctx.Sealed W where
  inert _ hf hreads := (hf.zeroGaps h hW (h.zeroGaps hW) (.inr hreads)).inert
  masked {x y f v} hy hf hv := by grind [masked_value]

omit hW in
/-- Without operations that read gaps, nothing is masked. -/
theorem Emitting.sealed_of_not_readsGaps (hreads : ¬ ctx.ReadsGaps) : ctx.Sealed W where
  inert {o plan _ _} hplan _ hread := by
    obtain ⟨d, hd, hr, -⟩ := hread
    exact absurd ⟨o, plan, d, hplan, hd, hr⟩ hreads
  masked _ hf _ := absurd (h.masked hf).2.reads hreads

/-- The batched form of a tensor that is simulated. -/
theorem BatchedAs.value_eq (hf : ctx.BatchedAs x f)
    (hsim : ∀ {y}, ctx.fusedOf.get? x = some y → ctx.Simulates V W x y) : W f = V x := by
  unfold BatchedAs at hf
  by_cases hx : ctx.isCanvas x = true
  · rw [if_pos hx] at hf
    obtain ⟨y, hy, hdefused⟩ := h.defused_value hW hf
    have hy := hsim hy
    rw [Simulates, if_pos hx] at hy
    exact hdefused _ hy
  · rw [if_neg hx] at hf
    have hy := hsim hf
    rwa [Simulates, if_neg hx] at hy

/-- The canvas form of a tensor that is simulated. -/
theorem CanvasAs.onCanvas (hsealed : ctx.Sealed W) (hf : ctx.CanvasAs plan x f)
    (hsim : ∀ {y}, ctx.fusedOf.get? x = some y → ctx.Simulates V W x y) :
    OnCanvas (ctx.canvasOf x) (ctx.mapOf x) (ctx.channelsOf x) (V x) (W f) := by
  cases hf with
  | tiled hbatched hf => grind [Simulates, Emitting.tiled_value]
  | masked hcanvas hf =>
    obtain ⟨-, -, -, y, hy, -⟩ := h.masked hf
    have hsim := hsim hy
    rw [Simulates, if_pos hcanvas] at hsim
    exact hsealed.masked hy hf hsim
  | clean hcanvas hf _ =>
    have hy := hsim hf
    rwa [Simulates, if_pos hcanvas] at hy

end Values

/-! ## One operation -/

/-- A cell in a gap lies along a dimension that has one. -/
theorem HasSamples.exists_gap {Z : Pair Nat} {c : Nat} (hx : ctx.HasSamples x)
    (hs : ctx.core.Settled) (hZ : (ctx.tiledShape x).Within ((ctx.mapOf x).arrange 0 c Z))
    (hgap : (ctx.canvasOf x).InGap Z) :
    ∃ d, ctx.grid.isTiled d = true ∧ 0 < (ctx.gapOf x).get d := by
  obtain ⟨d, hd⟩ := hgap
  have hlt := ((AxisMap.within_arrange (hx.valid hs)).1 hZ).2.2 d
  rw [Canvas.size_get] at hlt
  have hpos := Canvas.gap_pos_of_mod (hs.canvas_valid x) hlt hd
  refine ⟨d, ?_, hpos⟩
  by_contra hnot
  exact Nat.pos_iff_ne_zero.1 hpos
    (hs.sound.gapped.gapOf_untiled x (Bool.eq_false_of_not_eq_true hnot))

section Step

variable (h : Emitting P ctx) (hW : ctx.fused.Models W) (hV : ctx.cloned.Models V)
  (hsealed : ctx.Sealed W) (hop : ctx.CanvasOp o op plan o' inputs y)
  (hoperands : ∀ x ∈ op.inputs, ∀ {y}, ctx.fusedOf.get? x = some y → ctx.Simulates V W x y)

include h hW hop hoperands

/-- Weights and bias are the same for all samples. -/
theorem CanvasOp.params_value {params : List TensorId} (hin : op.inputs = x :: params)
    (hgapped : plan.gapped = [0]) :
    ∃ f tail, inputs = f :: tail ∧ ctx.CanvasAs plan x f ∧ tail.map W = params.map V := by
  have hparts := hop.operands
  rw [hin, zipIdx_cons] at hparts
  obtain ⟨f, tail, hf, htail, rfl⟩ := forall₂_cons_left_iff.1 hparts
  refine ⟨f, tail, rfl, hf.canvasAs (by rw [hgapped]; exact mem_singleton_self 0), ?_⟩
  rw [← forall₂_eq_eq_eq, forall₂_map_left_iff, forall₂_map_right_iff]
  refine List.Forall₂.flip (forall₂_of_zipIdx htail fun i z g hz hg => ?_)
  have hzin : z ∈ op.inputs := by
    rw [hin]
    exact mem_cons_of_mem x (mem_of_getElem? hz)
  have hg' : ctx.BatchedAs z g := hg.batchedAs (by simp [hgapped])
  exact hg'.value_eq h hW (hoperands z hzin)

include hV hsealed

/-- **An operation on the canvas** does to the tiles of its inputs what it does to their samples. -/
theorem CanvasOp.onCanvas :
    OnCanvas (ctx.canvasOf op.output) (ctx.mapOf op.output) (ctx.channelsOf op.output) (V op.output)
      (W y) := by
  have hs := h.settled
  have hout := hop.fuses.output_hasSamples hs
  have hm := hout.valid hs
  have hK := hs.canvas_valid op.output
  have hyields' : op.kind.Yields (op.inputs.map V) (V op.output) :=
    hV.yields hs.wellFormed hop.fuses.known
  have hfulls := hV.full_inputs hs.wellFormed hop.fuses.known
  have hyshape : (W y).shape = ctx.tiledShape op.output := (hW.of_has hop.output).2
  have hvshape : ∀ {x}, x ∈ op.inputs → (V x).shape = ctx.cloned.shapeOf x := fun hx => by
    obtain ⟨z, hz⟩ := hs.wellFormed.input_known hop.fuses.known hx
    exact hV.shape hz
  have hoshape : (V op.output).shape = ctx.cloned.shapeOf op.output := by
    obtain ⟨z, hz⟩ := hs.wellFormed.output_known hop.fuses.known
    exact hV.shape hz
  have hcanvas : ∀ {x f}, x ∈ op.inputs → ctx.CanvasAs plan x f →
      OnCanvas (ctx.canvasOf x) (ctx.mapOf x) (ctx.channelsOf x) (V x) (W f) := by
    intro x f hx hf
    exact hf.onCanvas h hW hsealed (hoperands x hx)
  have hcount : ∀ x, (ctx.canvasOf op.output).count = (ctx.canvasOf x).count := fun _ => rfl
  have hsingle : ∀ {kind x}, op.kind = kind → op.inputs = [x] → plan.gapped = [0] →
      kind.Yields [V x] (V op.output) ∧ ∃ f, ctx.CanvasAs plan x f ∧
        OnCanvas (ctx.canvasOf x) (ctx.mapOf x) (ctx.channelsOf x) (V x) (W f) ∧
        (ctx.canvasKindOf ⟨kind, op.inputs, op.output⟩).Yields [W f] (W y) := by
    intro kind x hkind hin hgapped
    rw [hkind, hin] at hyields'
    obtain ⟨f, hf, -, -, hyields⟩ := hop.single h hW hkind hin hgapped
    exact ⟨hyields', f, hf, hcanvas (by rw [hin]; exact mem_singleton_self x) hf, hyields⟩
  cases hop.fuses.step hs with
  | @conv p x w rest order hkind hin hrest hgapped hx hmap hslides hreads hshape =>
    rw [hkind, hin] at hyields'
    have hxin : x ∈ op.inputs := by rw [hin]; exact mem_cons_self
    have hwin : w ∈ op.inputs := by rw [hin]; exact mem_cons_of_mem x mem_cons_self
    obtain ⟨f, tail, rfl, hf, htail⟩ := hop.params_value h hW hoperands hin hgapped
    have hfx := hcanvas hxin hf
    have hyields := hop.yields h hW
    rw [canvasKindOf, hkind, map_cons, htail, map_cons] at hyields
    have hfulls' : ∀ v ∈ V w :: rest.map V, v.Full := fun v hv => hfulls v (by
      rw [hin]
      exact mem_cons_of_mem _ hv)
    obtain ⟨-, heq⟩ := yields_conv (forall_mem_cons.2 ⟨hfx.canvas_full, hfulls'⟩) hyields
    obtain ⟨hconv, heq'⟩ := yields_conv (forall_mem_cons.2 ⟨hfx.full, hfulls'⟩) hyields'
    rw [hout.shape_eq hs, hmap, hcount x] at hoshape
    rw [tiledShape, hmap] at hyshape
    rw [hyshape] at heq
    rw [hoshape] at heq' hconv
    rw [hfx.shape] at hconv
    rw [← hvshape hwin] at hslides hreads
    rw [heq, heq', hmap]
    refine conv_onCanvas hslides hconv hfx ?_
    -- Where a window reaches into a gap, the plan reads it.
    rintro ⟨d, hd, hreach⟩ c Z hZ hgap
    have htiled : ctx.grid.isTiled d = true := (Grid.isTiled_iff (hs.sound.base.tiles_pos d)).2 hd
    have hread : ctx.ReadsGapOf plan x :=
      ⟨d, htiled, (hreads d htiled).2 hreach, (hslides.slides d hd).gap_pos hreach⟩
    exact (hsealed.inert hop.fuses.planned hf hread c Z hZ hgap).1
  | @pool p x order hkind hin hgapped hx hmap hpad hslides hchannels hshape =>
    obtain ⟨hyields', f, hf, hfx, hyields⟩ := hsingle hkind hin hgapped
    have heq : W y = _ := (yields_pool hfx.canvas_full hyields).2
    grind [yields_pool, tiledShape, pool_onCanvas, HasSamples.shape_eq]
  | @pad p x hkind hin hgapped hx hmap hzero hpads hreads hshape =>
    obtain ⟨hyields', f, hf, hfx, hyields⟩ := hsingle hkind hin hgapped
    rw [hout.shape_eq hs, hmap] at hoshape
    rw [tiledShape, hmap] at hyshape
    rw [hmap]
    refine pad_onCanvas hpads hfx (yields_pad hfx.full hyields')
      (yields_pad hfx.canvas_full hyields) hoshape hyshape fun c Z hZ hgap => ?_
    obtain ⟨d, htiled, hpos⟩ := hx.exists_gap hs (hfx.canvas_shape ▸ hZ) hgap
    exact (hsealed.inert hop.fuses.planned hf ⟨d, htiled, hreads d htiled, hpos⟩ c Z hZ hgap).2
      p.value hzero
  | @activation a x hkind hin hgapped hx hmap hcanvas' hshape =>
    obtain ⟨hyields', f, hf, hfx, hyields⟩ := hsingle hkind hin hgapped
    have heq : W y = _ := yields_activation hyields
    grind [yields_activation, channelsOf, OnCanvas.map, Canvas.Valid.toTiled]
  | @reshape target x hkind hin hgapped hx hmap hcanvas' hshape =>
    obtain ⟨hyields', f, hf, hfx, hyields⟩ := hsingle hkind hin hgapped
    have hchannels : ctx.channelsOf op.output = ctx.channelsOf x := by
      rw [channelsOf, channelsOf, hmap, hshape]
    have heq : W y = _ := (yields_reshape hyields).2
    have heq' : V op.output = _ := (yields_reshape hyields').2
    have htarget : target = (V x).shape := by
      rw [hfx.shape, ← hx.shape_eq hs, ← hshape, ← hoshape, heq']
    have hsame : ctx.tiledShape op.output = (W f).shape := by
      rw [hfx.canvas_shape, tiledShape, hmap, hcanvas', hchannels]
    rw [heq, heq', htarget, hsame, hmap, hcanvas', hchannels]
    exact hfx
  | @transpose perm x hkind hin hgapped hx hmap hperm hcanvas' hchannels hshape =>
    obtain ⟨hyields', f, hf, hfx, hyields⟩ := hsingle hkind hin hgapped
    have hlen := (Operator.isPermutation_iff.1 hperm).1
    have heq : W y = _ := (yields_transpose hfx.canvas_full hyields).2
    have heq' : V op.output = _ := (yields_transpose hfx.full hyields').2
    rw [heq, heq', hfx.shape, hfx.canvas_shape, map_extent_arrange (hx.valid hs) hm hlen hmap,
      map_extent_arrange (hx.valid hs) hm hlen hmap, hcanvas', hchannels]
    exact hfx.transpose (hs.canvas_valid x).toTiled (hx.valid hs) hm hlen hmap
  | @binary kind a b hkind hin hsome hnodup hgapped hother hshape =>
    rw [hkind, hin] at hyields'
    obtain ⟨f, g, hf, hg, hfull, hfull', hyields⟩ := hop.pair h hW hkind hin
    have hoperand : ∀ {i x f}, op.inputs[i]? = some x → ctx.OperandAs plan i x f →
        Operand (ctx.canvasOf op.output) (ctx.mapOf op.output) (ctx.channelsOf op.output) (V x)
          (W f) := by
      intro i x f hx hf
      have hxin := mem_of_getElem? hx
      by_cases hi : i ∈ plan.gapped
      · obtain ⟨-, hmap, hcanvas', hsame⟩ := hgapped hi hx
        have hfx := hcanvas hxin (hf.canvasAs hi)
        rw [channelsOf, hmap, hcanvas', hsame] at hfx
        exact .canvas hfx
      · refine .spread ((hf.batchedAs hi).value_eq h hW (hoperands x hxin)) ?_
        rw [hvshape hxin]
        exact (hother hi hx).2
    have ha : V a ∈ op.inputs.map V := by rw [hin]; exact mem_cons_self
    have hb : V b ∈ op.inputs.map V := by
      rw [hin]
      exact mem_cons_of_mem _ mem_cons_self
    have heq : W y = _ := (yields_binary hfull hfull' hyields).2
    have heq' : V op.output = _ := (yields_binary (hfulls _ ha) (hfulls _ hb) hyields').2
    rw [heq, heq', hyshape, hoshape, hout.shape_eq hs]
    exact binary_onCanvas (hoperand (by rw [hin]; rfl) hf) (hoperand (by rw [hin]; rfl) hg)
      hK.toTiled hm kind
  | @concat axis x rest hkind hin hgapped haxis hall hshape =>
    have hyields := hop.yields h hW
    rw [canvasKindOf, hkind, haxis] at hyields
    rw [hkind, haxis] at hyields'
    have hconcat := yields_concat (hW.full_inputs h.runnable.wellFormed hop.known) hyields
    have hconcat' := yields_concat hfulls hyields'
    refine concat_onCanvas hK hm ?_ hconcat' hconcat (hoshape.trans (hout.shape_eq hs)) hyshape
    rw [forall₂_map_left_iff, forall₂_map_right_iff]
    refine hop.forall₂_inputs fun i z f hz hf => ?_
    have hzin := mem_of_getElem? hz
    have hi : i ∈ plan.gapped := by grind
    obtain ⟨-, hmap, hcanvas'⟩ := hall z hzin
    have hfz := hcanvas hzin (hf.canvasAs hi)
    rw [hmap, hcanvas'] at hfz
    exact ⟨_, hfz⟩

end Step

/-! ## The whole graph -/

/-- **The fused graph simulates the working copy**, if it does so on the inputs. -/
theorem Emitting.simulates (h : Emitting P ctx) (hW : ctx.fused.Models W) (hV : ctx.cloned.Models V)
    (hsealed : ctx.Sealed W)
    (hfed : ∀ {t f}, t ∈ ctx.cloned.inputs → ctx.fusedOf.get? t = some f → W f = V t)
    (hf : ctx.fusedOf.get? t = some f) : ctx.Simulates V W t f := by
  have hs := h.settled
  -- The inputs of an operation come before its output.
  induction t using Handle.induction generalizing f with
  | _ t ih =>
    obtain ⟨hhas, hemitted⟩ := h.fusedOf hf
    cases hemitted with
    | @source x y hx hrole hy hspec hdata =>
      rw [Simulates, hs.source (hs.wellFormed.mem_sources.2 ⟨x, hx, hrole⟩)]
      cases hx' : x.spec.role with
      | input => exact hfed (hs.wellFormed.mem_inputs.2 ⟨x, hx, hx'⟩) hf
      | constant =>
        -- A constant and its copy hold the same data.
        have hholds := hW.constant hy (hspec ▸ hx')
        unfold Tensor.Holds at hholds
        rw [hspec, hdata] at hholds
        exact Tensor.Holds.unique hholds (hV.constant hx hx')
      | output | transient => rw [hx'] at hrole; cases hrole
    | @batched o o' op inputs hop hout hbatched hop' hinputs =>
      subst hout
      rw [Simulates, hbatched]
      have hvalues : inputs.map W = op.inputs.map V := by
        rw [← forall₂_eq_eq_eq, forall₂_map_left_iff, forall₂_map_right_iff]
        refine List.Forall₂.flip (forall₂_iff_get.2 ⟨hinputs.length_eq, fun i hi hi' => ?_⟩)
        have hform := hinputs.get hi hi'
        have hlt := hs.sequential.input_lt hop (getElem_mem hi)
        exact hform.value_eq h hW fun hy => ih _ hlt hy
      have hyields := hW.yields h.runnable.wellFormed hop'
      grind [Operator.Yields.unique, Graph.Models.yields, Settled.wellFormed]
    | @canvas o o' op plan inputs fill hfuses hout hop' hinputs hfill hfills =>
      subst hout
      rw [fusedShape, if_pos hfuses.canvas] at hhas
      have hop : ctx.CanvasOp o op plan o' inputs f := ⟨hfuses, hop', hhas, hinputs⟩
      rw [Simulates, if_pos hfuses.canvas]
      exact hop.onCanvas h hW hV hsealed fun x hx _ hy =>
        ih _ (hs.sequential.input_lt hfuses.known hx) hy

end Context

end CanvasFusion
