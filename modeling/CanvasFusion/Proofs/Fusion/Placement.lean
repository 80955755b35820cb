import CanvasFusion.Proofs.Fusion.Planning
import CanvasFusion.Proofs.Related

/-!
# Placements and axis maps

Planning an operation looks at the placements and axis maps of its inputs and at the axis map of its
output, and at nothing else that changes (`decision_congr`). The output of an operation on the
canvas holds all samples of the grid, and the roles of its axes go with those of its inputs on the
canvas (`PlanFor.output`).
-/

namespace CanvasFusion

open List Operator Context AxisMap

/-! ## Axis maps under transposition -/

theorem mem_of_isPermutation {perm : List Nat} {rank a : Nat} (h : isPermutation perm rank = true)
    (ha : a < rank) : a ∈ perm := by
  obtain ⟨hlen, hlt, hnodup⟩ := isPermutation_iff.1 h
  have hsub : perm ⊆ range rank := fun b hb => mem_range.2 (hlt b hb)
  have hperm : perm.Perm (range rank) :=
    (subperm_of_subset hnodup hsub).perm_of_length_le (by simp [hlen])
  exact hperm.mem_iff.2 (mem_range.2 ha)

namespace AxisMap

variable {m m' : AxisMap} {perm xs : List Nat}

theorem permuted_eq_some :
    m.permuted perm = some m' ↔
      perm.idxOf? m.batch = some m'.batch ∧ perm.idxOf? m.channel = some m'.channel ∧
        ∀ d, perm.idxOf? (m.fuse.get d) = some (m'.fuse.get d) := by
  obtain ⟨b, c, f, s⟩ := m'
  simp only [permuted, Option.bind_eq_some_iff, bind, pure]
  constructor
  · rintro ⟨b', hb, c', hc, f', hf, s', hs, h⟩
    cases h
    refine ⟨hb, hc, fun d => ?_⟩
    cases d <;> assumption
  · rintro ⟨hb, hc, hd⟩
    exact ⟨b, hb, c, hc, f, hd .first, s, hd .second, rfl⟩

theorem getElem?_of_idxOf? {a i : Nat} (h : xs.idxOf? a = some i) : xs[i]? = some a := by
  grind [idxOf?_eq_some_iff]

theorem exists_idxOf? {a : Nat} (h : a ∈ xs) : ∃ i, xs.idxOf? a = some i := by
  cases hi : xs.idxOf? a with
  | none => exact absurd h (idxOf?_eq_none_iff.1 hi)
  | some i => exact ⟨i, rfl⟩

theorem exists_permuted (hm : m.Valid) (hp : isPermutation perm 4 = true) :
    ∃ m', m.permuted perm = some m' := by
  obtain ⟨b, hb⟩ := exists_idxOf? (mem_of_isPermutation hp hm.batch_lt)
  obtain ⟨c, hc⟩ := exists_idxOf? (mem_of_isPermutation hp hm.channel_lt)
  obtain ⟨f, hf⟩ := exists_idxOf? (mem_of_isPermutation hp (hm.fuse_lt .first))
  obtain ⟨s, hs⟩ := exists_idxOf? (mem_of_isPermutation hp (hm.fuse_lt .second))
  exact ⟨⟨b, c, ⟨f, s⟩⟩, permuted_eq_some.2 ⟨hb, hc, fun d => by cases d <;> assumption⟩⟩

theorem Valid.permuted (hm : m.Valid) (hlen : perm.length = 4) (h : m.permuted perm = some m') :
    m'.Valid := by
  obtain ⟨hb, hc, hd⟩ := permuted_eq_some.1 h
  have h₁ := getElem?_of_idxOf? hb
  have h₂ := getElem?_of_idxOf? hc
  have h₃ := getElem?_of_idxOf? (hd .first)
  have h₄ := getElem?_of_idxOf? (hd .second)
  have hlt : ∀ {i a : Nat}, perm[i]? = some a → i < 4 := fun hi =>
    hlen ▸ (List.getElem?_eq_some_iff.1 hi).1
  -- Two roles at one place would be one axis of the old map.
  have hne : ∀ {i j a b : Nat}, perm[i]? = some a → perm[j]? = some b → a ≠ b → i ≠ j := by grind
  have hbc := hne h₁ h₂ hm.batch_ne_channel
  have hbf := hne h₁ h₃ (hm.batch_ne_fuse .first)
  have hbs := hne h₁ h₄ (hm.batch_ne_fuse .second)
  have hcf := hne h₂ h₃ (hm.channel_ne_fuse .first)
  have hcs := hne h₂ h₄ (hm.channel_ne_fuse .second)
  have hfs := hne h₃ h₄ hm.fuse_ne
  simp only [Pair.get_first, Pair.get_second] at *
  refine ⟨?_, ?_⟩
  · simp [canonicalPerm, hbc, hbf, hbs, hcf, hcs, hfs]
  · intro a ha
    simp only [canonicalPerm, mem_cons, not_mem_nil, or_false] at ha
    rcases ha with rfl | rfl | rfl | rfl
    · exact hlt h₁
    · exact hlt h₂
    · exact hlt h₃
    · exact hlt h₄

end AxisMap

namespace Context

variable {ctx ctx' : Context} {op : Operation} {o : OpId} {t x : TensorId} {map : AxisMap}

/-! ## Planning looks at the neighbourhood only -/

/-- Planning cannot tell the tensors apart, each in its own state. -/
structure Alike (ctx ctx' : Context) (t t' : TensorId) : Prop where
  shape : ctx.cloned.shape t = ctx'.cloned.shape t'
  placement : ctx.placements.get? t = ctx'.placements.get? t'
  axisMap : ctx.axisMaps.get? t = ctx'.axisMaps.get? t'

/-- Planning cannot tell the operations apart, each in its own state, but for the axis maps of their
outputs. -/
structure AgreeOn (ctx ctx' : Context) (op op' : Operation) : Prop where
  limit : ctx.limit = ctx'.limit
  axes : ctx.axes = ctx'.axes
  grid : ctx.grid = ctx'.grid
  kind : op.kind = op'.kind
  inputs : List.Forall₂ (Alike ctx ctx') op.inputs op'.inputs
  output : ctx.cloned.shape op.output = ctx'.cloned.shape op'.output

theorem bind_congr_ok {ε α β : Type} {m : Except ε α} {f g : α → Except ε β}
    (h : ∀ a, m = .ok a → f a = g a) : m >>= f = m >>= g := by
  cases m with
  | ok a => exact h a rfl
  | error e => rfl

namespace Alike

variable {t' : TensorId} (h : Alike ctx ctx' t t')

include h

theorem isCanvas : ctx.isCanvas t = ctx'.isCanvas t' := by
  unfold Context.isCanvas
  rw [h.placement]

variable (hgrid : ctx.grid = ctx'.grid)

include hgrid

theorem fitsCanvas : ctx.fitsCanvas t = ctx'.fitsCanvas t' := by
  unfold Context.fitsCanvas isTileable isEnabled
  rw [h.isCanvas, h.placement, h.axisMap, h.shape, hgrid]

theorem canvasOperand : ctx.canvasOperand t = ctx'.canvasOperand t' := by
  unfold Context.canvasOperand
  rw [h.fitsCanvas hgrid, h.axisMap]

theorem operandFit {s : Shape} : ctx.operandFit map s t = ctx'.operandFit map s t' := by
  grind [operandFit, fitsCanvas, isCanvas, axisMap, shape]

end Alike

section Congruence

variable {op' : Operation} (h : AgreeOn ctx ctx' op op')

include h

theorem AgreeOn.any_isCanvas : op.inputs.any ctx.isCanvas = op'.inputs.any ctx'.isCanvas :=
  any_eq_any h.inputs fun _ _ hx => hx.isCanvas

theorem outputAxisMap_congr : ctx.outputAxisMap op = ctx'.outputAxisMap op' := by
  have hinherited : ctx.inheritedAxisMap op = ctx'.inheritedAxisMap op' := by
    unfold inheritedAxisMap
    rw [h.kind]
    refine entry_bind_eq h.inputs fun x x' hx => ?_
    split
    · rw [hx.axisMap]
    · rw [hx.axisMap, hx.shape, h.output]
    · rw [findSome?_eq_findSome? h.inputs fun _ _ hy => hy.axisMap]
      have hfind := find?_rel_find? h.inputs fun _ _ hy => hy.isCanvas
      generalize op.inputs.find? ctx.isCanvas = y, op'.inputs.find? ctx'.isCanvas = y' at hfind ⊢
      cases hfind with
      | none => rfl
      | some hy => simp only [hy.axisMap]
  unfold outputAxisMap
  rw [hinherited, h.output, h.axes]

theorem windowRules_congr {order : Pair Dim} {kernel stride dilation : Pair Nat}
    {pad : Pair Padding} : ctx.windowRules op map order kernel stride dilation pad =
      ctx'.windowRules op' map order kernel stride dilation pad := by
  unfold windowRules
  refine entry_bind_eq h.inputs fun x x' hx => ?_
  rw [hx.shape, h.output, h.grid]

theorem planConv_congr (p : Conv2d) : ctx.planConv op p = ctx'.planConv op' p := by
  unfold planConv
  refine entry_bind_eq h.inputs fun x x' hx => ?_
  rw [any_eq_any (forall₂_drop 1 h.inputs) fun _ _ hy => hy.isCanvas,
    hx.canvasOperand h.grid]
  split_ifs
  · rfl
  · refine bind_congr_ok fun m _ => ?_
    split
    · rfl
    · split
      · rfl
      · refine entry_bind_eq h.inputs fun w w' hw => ?_
        simp only [hw.shape, windowRules_congr h]

theorem planPool_congr (p : Pool2d) : ctx.planPool op p = ctx'.planPool op' p := by
  unfold planPool
  split_ifs
  · rfl
  · refine entry_bind_eq h.inputs fun x x' hx => ?_
    rw [hx.canvasOperand h.grid]
    simp only [windowRules_congr h]

theorem planPad_congr (p : ConstantPad) : ctx.planPad op p = ctx'.planPad op' p := by
  unfold planPad
  split_ifs
  · rfl
  · refine entry_bind_eq h.inputs fun x x' hx => ?_
    rw [hx.canvasOperand h.grid, h.grid, h.limit]

theorem planUnary_congr : ctx.planUnary op = ctx'.planUnary op' := by
  unfold planUnary
  exact entry_bind_eq h.inputs fun x x' hx => by rw [hx.isCanvas]

theorem planReshape_congr : ctx.planReshape op = ctx'.planReshape op' := by
  unfold planReshape
  refine entry_bind_eq h.inputs fun x x' hx => ?_
  rw [hx.shape, h.output, planUnary_congr h]

variable (hout : ctx.axisMaps.get? op.output = ctx'.axisMaps.get? op'.output)

include hout

theorem planBinary_congr (kind : BinaryKind) :
    ctx.planBinary op kind = ctx'.planBinary op' kind := by
  unfold planBinary
  rw [h.any_isCanvas, h.output, hout]
  split_ifs
  · rfl
  · refine bind_congr_ok fun out _ => ?_
    split
    · rfl
    · rw [mapM_eq_mapM h.inputs fun _ _ hx => hx.operandFit h.grid]
      refine bind_congr_ok fun fits _ => ?_
      split
      · exact entry_bind_eq h.inputs fun x x' hx => by rw [hx.shape]
      · rfl

theorem planConcat_congr (axis : Nat) : ctx.planConcat op axis = ctx'.planConcat op' axis := by
  unfold planConcat
  rw [h.any_isCanvas, hout, h.inputs.length_eq]
  split_ifs
  · rfl
  · split
    · rfl
    · split_ifs
      · rfl
      · rw [mapM_eq_mapM h.inputs fun x x' hx => by rw [hx.fitsCanvas h.grid, hx.axisMap]]

/-- **The plan of an operation depends on its neighbourhood only.** -/
theorem decision_congr : ctx.decision op = ctx'.decision op' := by
  unfold decision isEnabled
  rw [h.grid, h.kind]
  split_ifs
  · rfl
  · split
    · exact planConv_congr h _
    · exact planPool_congr h _
    · exact planPad_congr h _
    · exact planUnary_congr h
    · exact planUnary_congr h
    · exact planBinary_congr h hout _
    · exact planReshape_congr h
    · exact planConcat_congr h hout _
    · rfl
    · rfl
    · rfl

end Congruence

/-! ## The axis map of an output -/

section OutputMap

variable (hb : ctx.Base) (hp : ctx.Placed) (hop : ctx.cloned.ops.get? o = some op)

include hb hp hop

theorem inheritedAxisMap_spec :
    ∃ m, ctx.inheritedAxisMap op = .ok m ∧ ∀ map, m = some map →
      (ctx.cloned.shapeOf op.output).length = 4 → map.Valid := by
  obtain ⟨x, rest, hin⟩ := exists_cons_of_ne_nil (hb.wellFormed.inputs_ne_nil hop)
  have hx : ctx.cloned.shape x = .ok (ctx.cloned.shapeOf x) :=
    input_shape_ok hb hop (by rw [hin]; exact mem_cons_self)
  unfold inheritedAxisMap
  rw [entry_zero hin, bind_ok]
  split
  · rename_i perm hk
    refine ⟨_, rfl, fun map hmap hrank => ?_⟩
    obtain ⟨mx, hmx, hperm⟩ := Option.bind_eq_some_iff.1 hmap
    have hs := hb.wellFormed.op_shape hop
    obtain ⟨x', hx'⟩ := unary_operand hb hop (by rw [hk]; rfl)
    rw [hk, hx'] at hs
    obtain ⟨-, hout⟩ := inferTranspose_eq_ok hs
    rw [hout, length_map] at hrank
    exact (hp.valid hmx).permuted hrank hperm
  · simp only [hx, output_shape_ok hb hop, bind_ok]
    refine ⟨_, rfl, fun map hmap _ => ?_⟩
    split_ifs at hmap
    exact hp.valid hmap
  · split
    · exact ⟨_, rfl, fun map hmap _ => hp.valid hmap⟩
    · refine ⟨_, rfl, fun map hmap _ => ?_⟩
      obtain ⟨t, -, ht⟩ := exists_of_findSome?_eq_some hmap
      exact hp.valid ht

theorem outputAxisMap_spec :
    ∃ m, ctx.outputAxisMap op = .ok m ∧
      ∀ map, m = some map → map.Valid ∧ (ctx.cloned.shapeOf op.output).length = 4 := by
  unfold outputAxisMap
  simp only [output_shape_ok hb hop, bind_ok]
  split_ifs with hr
  · exact ⟨none, rfl, fun map h => (by cases h)⟩
  · have hrank : (ctx.cloned.shapeOf op.output).length = 4 := not_not.1 hr
    obtain ⟨m, hm, hvalid⟩ := inheritedAxisMap_spec hb hp hop
    rw [hm, bind_ok]
    refine ⟨_, rfl, fun map hmap => ⟨?_, hrank⟩⟩
    cases hmap
    cases m with
    | none => exact hb.axes
    | some map' => exact hvalid map' rfl hrank

omit hb hp hop in
/-- An operator that looks for a canvas follows its first input, if no other is on one. -/
theorem inheritedAxisMap_first {rest : List TensorId} (hin : op.inputs = x :: rest)
    (hrest : ∀ t ∈ rest, ctx.isCanvas t = false) (hx : ctx.axisMaps.get? x = some map)
    (hk : (∀ perm, op.kind ≠ .transpose perm) ∧ ∀ target, op.kind ≠ .reshape target) :
    ctx.inheritedAxisMap op = .ok (some map) := by
  unfold inheritedAxisMap
  rw [entry_zero hin, bind_ok]
  split
  · rename_i perm hk'
    exact absurd hk' (hk.1 perm)
  · rename_i target hk'
    exact absurd hk' (hk.2 target)
  · rw [hin, find?_cons]
    cases hc : ctx.isCanvas x with
    | true => exact congrArg Except.ok hx
    | false =>
      have hnone : rest.find? ctx.isCanvas = none := by
        rw [find?_eq_none]
        exact fun t ht => by simp [hrest t ht]
      simp only [hnone, findSome?_cons, hx]
      rfl

/-- How the roles of the axes move from an input on the canvas to the output. -/
def mapAfter (kind : Operator) (before after : AxisMap) : Prop :=
  match kind with
  | .transpose perm => before.permuted perm = some after
  | _ => after = before

/-- The output of an operation on the canvas holds all samples of the grid, and its axis map goes
with those of the inputs on the canvas. -/
def OutputFits (ctx : Context) (op : Operation) (plan : FusedPlan) : Prop :=
  ∃ map, ctx.axisMaps.get? op.output = some map ∧
    (ctx.cloned.shapeOf op.output).extent map.batch = ctx.grid.count ∧
    ∀ i ∈ plan.gapped, ∀ x, op.inputs[i]? = some x →
      ∃ mx, ctx.Fits x mx ∧ mapAfter op.kind mx map

section Output

variable {plan : FusedPlan} (hmap : ctx.outputAxisMap op = .ok (ctx.axisMaps.get? op.output))
include hmap

omit hp in
/-- The case of one input on the canvas, the first one, which hands on its map. -/
theorem OutputFits.of_first {rest : List TensorId} {mx : AxisMap} (hin : op.inputs = x :: rest)
    (hg : plan.gapped = [0]) (hfit : ctx.Fits x mx)
    (hrank : (ctx.cloned.shapeOf op.output).length = 4)
    (hinh : ctx.inheritedAxisMap op = .ok (some map))
    (hbatch : (ctx.cloned.shapeOf op.output).extent map.batch = ctx.grid.count)
    (hafter : mapAfter op.kind mx map) : ctx.OutputFits op plan := by
  refine ⟨map, ?_, hbatch, fun i hi y hy => ?_⟩
  · unfold outputAxisMap at hmap
    simp only [output_shape_ok hb hop, bind_ok, Shape.rank, hrank, ne_eq, not_true_eq_false,
      if_false, hinh] at hmap
    exact (Except.ok.inj hmap).symm
  · grind

theorem PlanFor.output (h : ctx.PlanFor op plan) : ctx.OutputFits op plan := by
  unfold PlanFor at h
  cases hk : op.kind with
  | conv2d p =>
    rw [hk] at h
    obtain ⟨x, w, rest, map, order, hin, hrest, hfit, horder, hg, -⟩ := h
    obtain ⟨x', w', rest', hin', -, hshape⟩ := conv_operands hb hop hk
    cases hin.symm.trans hin'
    obtain ⟨hbatch, hchannel, -⟩ := spatialOrder_eq_some.1 horder
    have hl := Layout.isValid_iff.1 hshape.layout
    refine .of_first hb hop hmap hin hg hfit ?_
      (inheritedAxisMap_first hin hrest hfit.axisMap (by simp [hk])) ?_ (by rw [hk]; rfl)
    · rw [hshape.slid.rank_eq, length_set, hshape.rank]
    · rw [hshape.slid.off _ fun d => by rw [← hbatch]; exact hl.batch_ne_fuse d,
        Shape.extent_set_ne (by rw [← hbatch]; exact hl.batch_ne_channel.symm)]
      exact hfit.batch
  | pool2d p =>
    rw [hk] at h
    obtain ⟨x, map, order, hin, -, hfit, horder, hg, -⟩ := h
    have hshape := pool_shape hb hop hk hin
    obtain ⟨hbatch, -, -⟩ := spatialOrder_eq_some.1 horder
    have hl := Layout.isValid_iff.1 hshape.layout
    refine .of_first hb hop hmap hin hg hfit ?_
      (inheritedAxisMap_first hin (by simp) hfit.axisMap (by simp [hk])) ?_ (by rw [hk]; rfl)
    · rw [hshape.slid.rank_eq, hshape.rank]
    · rw [hshape.slid.off _ fun d => by rw [← hbatch]; exact hl.batch_ne_fuse d]
      exact hfit.batch
  | pad p =>
    rw [hk] at h
    obtain ⟨x, map, hin, -, hfit, hfront, hback, hg, -⟩ := h
    have hshape := pad_shape hb hop hk hin
    have hxrank := hp.rank hfit.axisMap
    refine .of_first hb hop hmap hin hg hfit (hshape.rank_eq.trans hxrank)
      (inheritedAxisMap_first hin (by simp) hfit.axisMap (by simp [hk])) ?_ (by rw [hk]; rfl)
    rw [hshape.extent_eq _ (by rw [hxrank]; exact (hp.valid hfit.axisMap).batch_lt), hfront, hback]
    exact hfit.batch
  | activation f =>
    rw [hk] at h
    obtain ⟨x, hin, hc, rfl⟩ := h
    obtain ⟨map, hmx, hbx⟩ := hp.canvas hc
    have hs := hb.wellFormed.op_shape hop
    rw [hk, hin] at hs
    have hout : ctx.cloned.shapeOf x = ctx.cloned.shapeOf op.output := Except.ok.inj hs
    exact .of_first hb hop hmap hin rfl ⟨hmx, .inl hc, hbx⟩ (hout ▸ hp.rank hmx)
      (inheritedAxisMap_first hin (by simp) hmx (by simp [hk])) (hout ▸ hbx) (by rw [hk]; rfl)
  | transpose perm =>
    rw [hk] at h
    obtain ⟨x, hin, hc, rfl⟩ := h
    obtain ⟨map, hmx, hbx⟩ := hp.canvas hc
    have hs := hb.wellFormed.op_shape hop
    rw [hk, hin] at hs
    obtain ⟨hperm, hout⟩ := inferTranspose_eq_ok hs
    have hxrank : (ctx.cloned.shapeOf x).length = 4 := hp.rank hmx
    rw [hxrank] at hperm
    obtain ⟨map', hmap'⟩ := exists_permuted (hp.valid hmx) hperm
    refine .of_first hb hop hmap hin rfl ⟨hmx, .inl hc, hbx⟩ ?_ ?_ ?_ (by rw [hk]; exact hmap')
    · rw [hout, length_map]
      exact (isPermutation_iff.1 hperm).1
    · unfold inheritedAxisMap
      rw [entry_zero hin, bind_ok]
      simp only [hk, hmx, Option.bind_some, hmap']
      rfl
    · grind [getElem?_of_idxOf?, permuted_eq_some, Shape.extent]
  | reshape target =>
    rw [hk] at h
    obtain ⟨x, hin, hc, hsame, rfl⟩ := h
    obtain ⟨map, hmx, hbx⟩ := hp.canvas hc
    have hxmem : x ∈ op.inputs := by rw [hin]; simp
    refine .of_first hb hop hmap hin rfl ⟨hmx, .inl hc, hbx⟩ (hsame ▸ hp.rank hmx) ?_ (hsame ▸ hbx)
      (by rw [hk]; rfl)
    unfold inheritedAxisMap
    rw [entry_zero hin, bind_ok]
    simp only [hk, input_shape_ok hb hop hxmem, output_shape_ok hb hop, bind_ok, hsame,
      if_true, hmx]
    rfl
  | binary kind =>
    rw [hk] at h
    obtain ⟨map, hout, -, hne, -, hlt, -, hfits⟩ := h
    have hgapped : ∀ i ∈ plan.gapped, ∀ x, op.inputs[i]? = some x →
        ctx.cloned.shapeOf x = ctx.cloned.shapeOf op.output ∧ ctx.Fits x map := by grind
    obtain ⟨i, hi⟩ := exists_mem_of_ne_nil _ hne
    obtain ⟨hs, hf⟩ := hgapped i hi _ (getElem?_eq_getElem (hlt i hi))
    exact ⟨map, hout, hs ▸ hf.batch, fun i hi x hx =>
      ⟨map, (hgapped i hi x hx).2, by rw [hk]; rfl⟩⟩
  | concat axis =>
    rw [hk] at h
    obtain ⟨map, hout, rfl, -, hfits⟩ := h
    have hs := hb.wellFormed.op_shape hop
    rw [hk] at hs
    obtain ⟨sx, rest, hshapes, hconcat⟩ := inferShape_concat hs
    obtain ⟨x, tail, hin, rfl, -⟩ := map_eq_cons_iff.1 hshapes
    have hfx := hfits x (by rw [hin]; simp)
    refine ⟨map, hout, ?_, fun i _ y hy =>
      ⟨map, hfits y (mem_iff_getElem?.2 ⟨i, hy⟩), by rw [hk]; rfl⟩⟩
    rw [hconcat.shape_eq, Shape.extent_set_ne (hp.valid hout).batch_ne_channel.symm]
    exact hfx.batch
  | reduce k axes keep | slice start size | softmax axis => rw [hk] at h; exact h.elim

end Output

end OutputMap

end Context

end CanvasFusion
