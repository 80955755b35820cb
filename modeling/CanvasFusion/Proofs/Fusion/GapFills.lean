import CanvasFusion.Proofs.Fusion.FormValues

/-!
# Zeros in gaps

Emission records for each canvas tensor whether its gaps hold zeros, and masks a tensor before an
operation that reads its gaps if they may hold anything else. The records are a small analysis of
the fused graph: `Zeroes` says what each operator needs of its inputs, and `CanvasOp.zeroGaps` that
its output has zeros in its gaps then.
-/

namespace CanvasFusion

open Value List Canvas

theorem GapFill.zeroedIf_eq {b : Bool} : GapFill.zeroedIf b = .zeroed ↔ b = true := by
  cases b <;> simp [GapFill.zeroedIf]

namespace Context

variable {ctx : Context} {t x f y : TensorId} {o o' : OpId} {op : Operation} {plan : FusedPlan}
  {inputs : List TensorId} {P : Prop}

/-! ## What is recorded -/

/-- The input at a place has zeros in its gaps, by what is recorded of it. -/
def ZeroedAt (ctx : Context) (op : Operation) (i : Nat) : Prop :=
  ∃ x, op.inputs[i]? = some x ∧ ctx.inputFill x = .ok .zeroed

/-- Why the gaps of an output are recorded to hold zeros, operator by operator. -/
def Zeroes (ctx : Context) (op : Operation) (plan : FusedPlan) : Prop :=
  match op.kind with
  | .conv2d _ | .pool2d _ => ∀ d, ctx.grid.isTiled d = true → (ctx.gapOf op.output).get d = 0
  | .pad _ => True
  | .activation f => f.preservesZero = true ∧ ∀ i, plan.gapped[0]? = some i → ctx.ZeroedAt op i
  | .transpose _ | .reshape _ => ∀ i, plan.gapped[0]? = some i → ctx.ZeroedAt op i
  | .binary .mul => ∃ i ∈ plan.gapped, ctx.ZeroedAt op i
  | .binary kind => kind ≠ .div ∧ op.inputs.length ≤ plan.gapped.length ∧
      ∀ i ∈ plan.gapped, ctx.ZeroedAt op i
  | .concat _ => ∀ i ∈ plan.gapped, ctx.ZeroedAt op i
  | .reduce .. | .slice .. | .softmax _ => False

theorem windowFill_zeroed (h : ctx.windowFill t = .ok .zeroed) {d : Dim}
    (hd : ctx.grid.isTiled d = true) : (ctx.gapOf t).get d = 0 := by
  obtain ⟨gap, hgap, hfill⟩ := bind_eq_ok.1 h
  have hall := GapFill.zeroedIf_eq.1 (Except.ok.inj hfill)
  have hgapOf : ctx.gapOf t = gap := by
    rw [gapOf, entry_ok_iff.1 hgap]
    rfl
  rw [all_eq_true] at hall
  have hd' := hall d (by cases d <;> simp [Dim.all])
  rw [hd] at hd'
  rw [hgapOf]
  simpa using hd'

/-- **Why gaps are recorded to hold zeros.** -/
theorem zeroes_of_outputFill (h : ctx.outputFill op plan = .ok .zeroed) : ctx.Zeroes op plan := by
  obtain ⟨fills, hfills, hrest⟩ := bind_eq_ok.1 h
  have hfor : List.Forall₂ (fun i v => ∃ x, op.inputs[i]? = some x ∧ ctx.inputFill x = .ok v)
      plan.gapped fills := (mapM_eq_ok_iff.1 hfills).imp fun i v hv => by
    grind [bind_eq_ok, entry_eq_ok, lift_fault_eq_ok]
  have hall : (∀ v ∈ fills, v = .zeroed) → ∀ i ∈ plan.gapped, ctx.ZeroedAt op i := by
    intro hzero i hi
    obtain ⟨k, hk⟩ := mem_iff_getElem?.1 hi
    obtain ⟨v, hv, x, hx, hfill⟩ := forall₂_getElem? hfor hk
    exact ⟨x, hx, hzero v (mem_iff_getElem?.2 ⟨k, hv⟩) ▸ hfill⟩
  have hfirst : fills[0]? = some .zeroed → ∀ i, plan.gapped[0]? = some i → ctx.ZeroedAt op i := by
    intro hzero i hi
    obtain ⟨v, hv, x, hx, hfill⟩ := forall₂_getElem? hfor hi
    cases hv.symm.trans hzero
    exact ⟨x, hx, hfill⟩
  unfold Zeroes
  cases hk : op.kind with
  | conv2d p | pool2d p =>
    rw [hk] at hrest
    exact fun d hd => windowFill_zeroed hrest hd
  | pad p => trivial
  | activation f =>
    rw [hk] at hrest
    obtain ⟨v, hv, hrest⟩ := bind_eq_ok.1 hrest
    have hboth := GapFill.zeroedIf_eq.1 (Except.ok.inj hrest)
    rw [Bool.and_eq_true, decide_eq_true_eq] at hboth
    exact ⟨hboth.2, hfirst (hboth.1 ▸ entry_eq_ok.1 (lift_fault_eq_ok.1 hv))⟩
  | transpose perm | reshape target => grind [entry_eq_ok, lift_fault_eq_ok]
  | binary kind =>
    rw [hk] at hrest
    have hfill := Except.ok.inj hrest
    have hsum : GapFill.zeroedIf (!decide (plan.gapped.length < op.inputs.length) &&
        fills.all (· = .zeroed)) = .zeroed → op.inputs.length ≤ plan.gapped.length ∧
        ∀ i ∈ plan.gapped, ctx.ZeroedAt op i := by
      intro hfill
      have hboth := GapFill.zeroedIf_eq.1 hfill
      simp only [Bool.and_eq_true, Bool.not_eq_true', decide_eq_false_iff_not, Nat.not_lt,
        all_eq_true, decide_eq_true_eq] at hboth
      exact ⟨hboth.1, hall hboth.2⟩
    cases kind with
    | add | sub | max | min => exact ⟨by simp, hsum hfill⟩
    | div => cases hfill
    | mul =>
      have hany := GapFill.zeroedIf_eq.1 hfill
      simp only [any_eq_true, decide_eq_true_eq] at hany
      obtain ⟨v, hv, rfl⟩ := hany
      obtain ⟨i, hi, hzeroed⟩ := forall₂_right_mem hfor hv
      exact ⟨i, hi, hzeroed⟩
  | concat axis =>
    rw [hk] at hrest
    have hzero := GapFill.zeroedIf_eq.1 (Except.ok.inj hrest)
    grind
  | reduce kind axes keep | slice start size | softmax axis => rw [hk] at hrest; cases hrest

/-! ## What gaps hold -/

/-- Without gaps along the dimensions with more than one tile, there are no gaps at all. -/
theorem HasSamples.zeroGaps_of_gapless {α : Type} [Scalar α] {X : Value α} (ht : ctx.HasSamples t)
    (hs : ctx.core.Settled) (hshape : X.shape = ctx.tiledShape t)
    (hzero : ∀ d, ctx.grid.isTiled d = true → (ctx.gapOf t).get d = 0) :
    ZeroGaps (ctx.canvasOf t) (ctx.mapOf t) X := by
  refine CanvasFusion.zeroGaps_of_gapless (hs.canvas_valid t) (ht.valid hs) hshape fun d => ?_
  cases hd : ctx.grid.isTiled d with
  | true => exact hzero d hd
  | false => exact hs.sound.gapped.gapOf_untiled t hd

section Values

variable {α : Type} [Scalar α] [LawfulScalar α] {W : TensorId → Value α} (h : Emitting P ctx)
  (hW : ctx.fused.Models W)

include h hW

/-- Sums of zeros and products with a zero are zero. -/
theorem CanvasOp.zeroGaps_binary (hop : ctx.CanvasOp o op plan o' inputs y) {kind : BinaryKind}
    {a b : TensorId} (hkind : op.kind = .binary kind) (hin : op.inputs = [a, b])
    (hnodup : plan.gapped.Nodup)
    (hgapped : ∀ {i x}, i ∈ plan.gapped → op.inputs[i]? = some x → ctx.HasSamples x ∧
      ctx.mapOf x = ctx.mapOf op.output ∧ ctx.canvasOf x = ctx.canvasOf op.output ∧
      ctx.cloned.shapeOf x = ctx.cloned.shapeOf op.output)
    (hzeroes : ctx.Zeroes op plan)
    (hrecorded : ∀ {i x f}, i ∈ plan.gapped → op.inputs[i]? = some x → ctx.CanvasAs plan x f →
      ctx.ZeroedAt op i → ZeroGaps (ctx.canvasOf x) (ctx.mapOf x) (W f)) :
    ZeroGaps (ctx.canvasOf op.output) (ctx.mapOf op.output) (W y) := by
  have hs := h.settled
  have hm := (hop.fuses.output_hasSamples hs).valid hs
  have hyshape := (hW.of_has hop.output).2
  rw [Zeroes, hkind] at hzeroes
  obtain ⟨f, g, hf, hg, hfull, hfull', hyields⟩ := hop.pair h hW hkind hin
  have ha : op.inputs[0]? = some a := by rw [hin]; rfl
  have hb : op.inputs[1]? = some b := by rw [hin]; rfl
  have heq : W y = _ := (yields_binary hfull hfull' hyields).2
  rw [hyshape] at heq
  rw [heq]
  -- An operand on the canvas has the shape of the output there.
  have hzeroed : ∀ {i x f}, i ∈ plan.gapped → op.inputs[i]? = some x → ctx.OperandAs plan i x f →
      ctx.ZeroedAt op i → (W f).shape = ctx.tiledShape op.output ∧
        ZeroGaps (ctx.canvasOf op.output) (ctx.mapOf op.output) (W f) := by
    intro i x f hi hx hf hz
    obtain ⟨-, hmap, hcanvas, hsame⟩ := hgapped hi hx
    have hform := hf.canvasAs hi
    have hgap := hrecorded hi hx hform hz
    rw [hmap, hcanvas] at hgap
    refine ⟨(hW.of_has (h.has_of_canvasAs hform)).2.trans ?_, hgap⟩
    rw [tiledShape, tiledShape, channelsOf, channelsOf, hmap, hcanvas, hsame]
  have hplaces : ∀ i ∈ plan.gapped, i = 0 ∨ i = 1 := by
    intro i hi
    have hlt := hop.fuses.sound.gapped_lt i hi
    rw [hin, length_cons, length_singleton] at hlt
    omega
  have hsum : kind ≠ .div → op.inputs.length ≤ plan.gapped.length →
      (∀ i ∈ plan.gapped, ctx.ZeroedAt op i) →
      ZeroGaps (ctx.canvasOf op.output) (ctx.mapOf op.output) (ofFn (ctx.tiledShape op.output)
        fun index => kind.apply ((W f).cell (spreadIndex (W f).shape index))
          ((W g).cell (spreadIndex (W g).shape index))) := by
    intro hdiv hlen hall
    have hboth : plan.gapped.Perm [0, 1] := by
      refine (hnodup.subperm fun i hi => ?_).perm_of_length_le (by rw [hin] at hlen; exact hlen)
      simpa using hplaces i hi
    have h0 : 0 ∈ plan.gapped := hboth.mem_iff.2 (by simp)
    have h1 : 1 ∈ plan.gapped := hboth.mem_iff.2 (by simp)
    obtain ⟨hA, hzA⟩ := hzeroed h0 ha hf (hall 0 h0)
    obtain ⟨hB, hzB⟩ := hzeroed h1 hb hg (hall 1 h1)
    exact binary_zeroGaps hm hdiv hA hB hzA hzB
  cases kind with
  | add | sub | max | min => exact hsum hzeroes.1 hzeroes.2.1 hzeroes.2.2
  | div => exact absurd rfl hzeroes.1
  | mul =>
    obtain ⟨i, hi, hz⟩ := hzeroes
    refine mul_zeroGaps hm ?_
    rcases hplaces i hi with rfl | rfl
    · exact .inl (hzeroed hi ha hf hz)
    · exact .inr (hzeroed hi hb hg hz)

/-- **What an operation on the canvas does to gaps.** If the inputs that are recorded to have zeros
in their gaps have them, and those too whose gaps are read, then so does the output. -/
theorem CanvasOp.zeroGaps (hop : ctx.CanvasOp o op plan o' inputs y) (hzeroes : ctx.Zeroes op plan)
    (hgaps : ∀ {i x f}, i ∈ plan.gapped → op.inputs[i]? = some x → ctx.CanvasAs plan x f →
      ctx.inputFill x = .ok .zeroed ∨ ctx.ReadsGapOf plan x →
      ZeroGaps (ctx.canvasOf x) (ctx.mapOf x) (W f)) :
    ZeroGaps (ctx.canvasOf op.output) (ctx.mapOf op.output) (W y) := by
  have hs := h.settled
  have hout := hop.fuses.output_hasSamples hs
  have hm := hout.valid hs
  have hyshape := (hW.of_has hop.output).2
  have hrecorded : ∀ {i x f}, i ∈ plan.gapped → op.inputs[i]? = some x → ctx.CanvasAs plan x f →
      ctx.ZeroedAt op i → ZeroGaps (ctx.canvasOf x) (ctx.mapOf x) (W f) := by
    rintro i x f hi hx hf ⟨x', hx', hfill⟩
    cases hx.symm.trans hx'
    exact hgaps hi hx hf (.inl hfill)
  have hfirst : ∀ {x}, plan.gapped = [0] → op.inputs = [x] →
      0 ∈ plan.gapped ∧ op.inputs[0]? = some x ∧ plan.gapped[0]? = some 0 := by
    intro x hg hin
    simp [hg, hin]
  cases hop.fuses.step hs with
  | conv hkind | pool hkind => grind [Zeroes, HasSamples.zeroGaps_of_gapless]
  | @pad p x hkind hin hgapped hx hmap hzero hpads hreads hshape =>
    obtain ⟨f, hf, hfull, hfs, hyields⟩ := hop.single h hW hkind hin hgapped
    obtain ⟨hi, hx0, -⟩ := hfirst hgapped hin
    have hgap : ZeroGaps (ctx.canvasOf x) (ctx.mapOf x) (W f) := by
      by_cases hreadsOf : ctx.ReadsGapOf plan x
      · exact hgaps hi hx0 hf (.inr hreadsOf)
      · refine hx.zeroGaps_of_gapless hs hfs fun d hd => ?_
        by_contra hne
        exact hreadsOf ⟨d, hd, hreads d hd, Nat.pos_of_ne_zero hne⟩
    rw [hx.shape_eq hs, hout.shape_eq hs, hmap] at hshape
    rw [tiledShape, hmap] at hyshape
    rw [hmap]
    exact pad_zeroGaps hpads hshape hfs hgap (yields_pad hfull hyields) hyshape
      (LawfulScalar.ofSingle_zero _ hzero)
  | @activation a x hkind hin hgapped hx hmap hcanvas hshape =>
    rw [Zeroes, hkind] at hzeroes
    obtain ⟨f, hf, hfull, -, hyields⟩ := hop.single h hW hkind hin hgapped
    have heq : W y = _ := yields_activation hyields
    grind [LawfulScalar.activate_zero, ZeroGaps.map]
  | @reshape target x hkind hin hgapped hx hmap hcanvas hshape =>
    rw [Zeroes, hkind] at hzeroes
    obtain ⟨f, hf, -, hfs, hyields⟩ := hop.single h hW hkind hin hgapped
    obtain ⟨hi, hx0, h0⟩ := hfirst hgapped hin
    have hsame : ctx.tiledShape op.output = (W f).shape := by
      rw [hfs, tiledShape, tiledShape, channelsOf, channelsOf, hmap, hcanvas, hshape]
    have heq : W y = _ := (yields_reshape hyields).2
    rw [heq, hmap, hcanvas, hsame]
    exact hrecorded hi hx0 hf (hzeroes 0 h0)
  | @transpose perm x hkind hin hgapped hx hmap hperm hcanvas _ hshape =>
    rw [Zeroes, hkind] at hzeroes
    obtain ⟨f, hf, hfull, hfs, hyields⟩ := hop.single h hW hkind hin hgapped
    obtain ⟨hi, hx0, h0⟩ := hfirst hgapped hin
    have hlen := (Operator.isPermutation_iff.1 hperm).1
    have heq : W y = _ := (yields_transpose hfull hyields).2
    have hmoved : perm.map (W f).shape.extent =
        (ctx.mapOf op.output).arrange 1 (ctx.channelsOf x) (ctx.canvasOf x).size := by
      rw [hfs, tiledShape]
      exact map_extent_arrange (hx.valid hs) hm hlen hmap
    rw [heq, hmoved, hcanvas]
    exact (hrecorded hi hx0 hf (hzeroes 0 h0)).transpose hfs (hx.valid hs) hm hlen hmap
  | binary hkind hin hsome hnodup hgapped hother hshape =>
    exact hop.zeroGaps_binary h hW hkind hin hnodup hgapped hzeroes hrecorded
  | @concat axis x rest hkind hin hgapped haxis hall hshape =>
    rw [Zeroes, hkind] at hzeroes
    have hyields := hop.yields h hW
    rw [canvasKindOf, hkind, haxis] at hyields
    have hconcat := yields_concat (hW.full_inputs h.runnable.wellFormed hop.known) hyields
    refine concat_zeroGaps hm (fun V hV => ?_) hconcat hyshape
    obtain ⟨f, hf, rfl⟩ := mem_map.1 hV
    obtain ⟨i, hi⟩ := mem_iff_getElem?.1 hf
    have hlt : i < op.inputs.length := hop.length_inputs ▸ (List.getElem?_eq_some_iff.1 hi).1
    have hmem : i ∈ plan.gapped := by rw [hgapped]; exact mem_range.2 hlt
    have hz := getElem?_eq_getElem hlt
    obtain ⟨f', hf', hform⟩ := hop.operand_at hz
    cases hi.symm.trans hf'
    obtain ⟨-, hmap, hcanvas⟩ := hall _ (getElem_mem hlt)
    have hgap := hrecorded hmem hz (hform.canvasAs hmem) (hzeroes i hmem)
    rwa [hmap, hcanvas] at hgap

/-- The canvas form in which an operation finds an input has zeros in its gaps, if they are recorded
to hold zeros or are read. -/
theorem CanvasAs.zeroGaps (hf : ctx.CanvasAs plan x f)
    (hrec : ∀ {y}, ctx.fusedOf.get? x = some y → ctx.fills.get? x = some .zeroed →
      ZeroGaps (ctx.canvasOf x) (ctx.mapOf x) (W y))
    (hx : ctx.inputFill x = .ok .zeroed ∨ ctx.ReadsGapOf plan x) :
    ZeroGaps (ctx.canvasOf x) (ctx.mapOf x) (W f) := by
  cases hf with
  | tiled _ hf =>
    obtain ⟨-, -, -, hzero⟩ := h.tiled_value hW hf
    exact hzero
  | masked _ hf =>
    obtain ⟨-, -, -, hzero⟩ := h.masked_value hW hf
    exact hzero
  | clean hcanvas hf hclean =>
    refine hrec hf ?_
    rcases hx with hfill | hreads
    · rw [inputFill, if_pos hcanvas, fill, entry_ok_iff] at hfill
      exact hfill
    · exact hclean.resolve_right fun hnot => hnot hreads

/-- **Gaps that are recorded to hold zeros hold zeros.** -/
theorem Emitting.zeroGaps (hf : ctx.fusedOf.get? t = some f)
    (hfill : ctx.fills.get? t = some .zeroed) : ZeroGaps (ctx.canvasOf t) (ctx.mapOf t) (W f) := by
  have hs := h.settled
  -- The inputs of an operation come before its output.
  induction t using Handle.induction generalizing f with
  | _ t ih =>
    have hcanvas : ctx.isCanvas t = true := (h.fills.1 (by rw [hfill]; simp)).1
    obtain ⟨hhas, hemitted⟩ := h.fusedOf hf
    rw [fusedShape, if_pos hcanvas] at hhas
    cases hemitted with
    | source hx hrole _ _ _ =>
      rw [hs.source (hs.wellFormed.mem_sources.2 ⟨_, hx, hrole⟩)] at hcanvas
      cases hcanvas
    | batched _ _ hbatched _ _ =>
      rw [hbatched] at hcanvas
      cases hcanvas
    | @canvas o o' op plan inputs fill hfuses hout hop' hinputs hfill' hfills =>
      subst hout
      cases hfill.symm.trans hfills
      have hcanvasOp : ctx.CanvasOp o op plan o' inputs f := ⟨hfuses, hop', hhas, hinputs⟩
      refine hcanvasOp.zeroGaps h hW (zeroes_of_outputFill hfill')
        fun {i x f} _ hx hform hzero => hform.zeroGaps h hW (fun {y} hy hfy => ?_) hzero
      exact ih _ (hs.sequential.input_lt hfuses.known (mem_of_getElem? hx)) hy hfy

end Values

/-! ## Tiles -/

/-- The tile of a sample on the canvas of a tensor: the roles of the axes, where the tile begins and
how far it extends. -/
def TileAt (ctx : Context) (t : TensorId) (n : Nat) (map : AxisMap) (origin extent : Pair Nat) :
    Prop :=
  ctx.axisMap t = .ok map ∧ map.sampleExtent (ctx.cloned.shapeOf t) = .ok extent ∧
    ∃ gap, ctx.gap t = .ok gap ∧ ctx.grid.tileOrigin .unbounded n extent gap = .ok origin

/-- The cell lies in the tile of some sample. -/
def InTile (ctx : Context) (t : TensorId) (index : Index) : Prop :=
  ∃ n map origin extent, n < ctx.grid.count ∧ ctx.TileAt t n map origin extent ∧
    ∀ d, origin.get d ≤ Shape.extent index (map.fuse.get d) ∧
      Shape.extent index (map.fuse.get d) < origin.get d + extent.get d

/-- The value is a canvas for a tensor, with zeros at all cells that lie in no tile. -/
structure ZeroBetweenTiles {α : Type} [Scalar α] (ctx : Context) (t : TensorId) (v : Value α) :
    Prop where
  shape : ctx.gappedShape t = .ok v.shape
  zero : ∀ index, v.shape.Within index → ¬ ctx.InTile t index → v.element? index = some Scalar.zero

theorem HasSamples.tileAt (hs : ctx.core.Settled) (ht : ctx.HasSamples t) (n : Nat) :
    ctx.TileAt t n (ctx.mapOf t) ((ctx.canvasOf t).place ((ctx.canvasOf t).spot n) (.both 0))
      (ctx.canvasOf t).extent := by
  obtain ⟨z, hz⟩ := ht.known hs
  exact ⟨ht.axisMap_ok, ht.extent_ok hs, ctx.gapOf t, hs.gap_ok hz,
    tileOrigin_ok (hs.canvas_valid t).toTiled rfl n⟩

theorem zeroBetweenTiles_of_zeroGaps {α : Type} [Scalar α] {v : Value α} (hs : ctx.core.Settled)
    (ht : ctx.HasSamples t) (hv : v.Full) (hshape : v.shape = ctx.tiledShape t)
    (h : ZeroGaps (ctx.canvasOf t) (ctx.mapOf t) v) : ctx.ZeroBetweenTiles t v := by
  have hm := ht.valid hs
  refine ⟨hshape ▸ ht.gappedShape_ok hs, fun index hin hout => ?_⟩
  rw [hv.element?_eq hin]
  rw [hshape] at hin
  obtain ⟨n, c, Y, rfl, hn, hc, hY⟩ := AxisMap.exists_arrange hm hin
  obtain rfl : n = 0 := Nat.lt_one_iff.1 hn
  refine congrArg some (h c Y (hshape ▸ hin) ?_)
  -- Outside of the gaps, a cell lies in a tile.
  by_contra hgap
  obtain ⟨n, hn, y, hy, rfl⟩ := (hs.canvas_valid t).exists_tile
    (fun d => by rw [← size_get]; exact hY d) hgap
  refine hout ⟨n, _, _, _, hs.count_eq t ▸ hn, ht.tileAt hs n, fun d => ?_⟩
  rw [AxisMap.arrange_fuse hm, place_get, place_get, Pair.both_get, Nat.add_zero]
  exact ⟨Nat.le_add_right _ _, Nat.add_lt_add_left (hy d) _⟩

end Context

open Context

/-- Two samples, pooled and padded twice. -/
def padPools : List Graph.Call :=
  let pad : Operator := .pad ⟨[0, 0, 0, 1], [0, 0, 0, 0], .zero⟩
  [.createTensor ⟨.f32, [2, 1, 1, 3], .input, none⟩,
    .emit (.pool2d ⟨.max, ⟨1, 2⟩, ⟨1, 1⟩, .both ⟨0, 0⟩, .nchw⟩) [⟨0⟩] .transient,
    .emit pad [⟨1⟩] .transient, .emit pad [⟨2⟩] .output]

/-- The data of two samples of three elements. -/
def twoSamples : List (TensorId × Array (Exact default)) :=
  [(⟨0⟩, #[⟨1⟩, ⟨2⟩, ⟨3⟩, ⟨4⟩, ⟨5⟩, ⟨6⟩])]

/-- **Gaps hold zeros where they are recorded to, and wherever they are read.** Whatever the inputs
of the fused graph are fed, it evaluates. A canvas tensor whose gaps are recorded to hold zeros is
zero between its tiles. So is every tensor that an operation on the canvas is handed and reads the
gaps of. -/
theorem fuse_zero_between_tiles {lim lim' : Limit} {calls : List Graph.Call} {options : Options}
    {ctx₀ ctx : Context} {r : Fused} {T : Transcendental}
    {feeds : List (TensorId × Array (Exact T))}
    (hinit : Context.initial lim (Graph.build lim' calls) options = .ok ctx₀)
    (hrun : Pass.fuse.run ctx₀ = (.ok r, ctx)) (hfeeds : r.graph.FedBy feeds) :
    ∃ values, evaluate .unbounded r.graph feeds = .ok values ∧
      (∀ t f, ctx.fills.get? t = some .zeroed → ctx.fusedOf.get? t = some f →
        ∃ v, values.get? f = some v ∧ ctx.ZeroBetweenTiles t v) ∧
      ∀ o op plan, ctx.cloned.ops.get? o = some op → ctx.plans.get? o = some (.fused plan) →
        ∃ o' op', r.graph.ops.get? o' = some op' ∧ ctx.fusedOf.get? op.output = some op'.output ∧
          op'.inputs.length = op.inputs.length ∧
          ∀ i ∈ plan.gapped, ∀ x f, op.inputs[i]? = some x → op'.inputs[i]? = some f →
            ctx.ReadsGapOf plan x → ∃ v, values.get? f = some v ∧ ctx.ZeroBetweenTiles x v := by
  have hsource := Graph.wellFormed_build lim' calls
  obtain ⟨ctx₁, ctx₂, ctx₃, hphases, hend⟩ :=
    (after_fuse (P := False) (starts_of_initial hinit) hsource False.elim False.elim).of_run hrun
  have h := hphases.emitted.emitting
  have hs := h.settled
  obtain ⟨g, rfl⟩ : ∃ g, ctx = { ctx₃ with fused := g } := ⟨_, hend.state⟩
  rw [hend.graph] at hfeeds ⊢
  have hrelabels : ctx₃.fused.Relabels g := hend.relabels
  obtain ⟨values, W, heval, hmodels, hvalues, -⟩ := (hrelabels.runnable h.runnable).evaluates hfeeds
  have hW : ctx₃.fused.Models W := hrelabels.grows.models h.runnable.wellFormed hmodels
  have hheld : ∀ {f s}, ctx₃.fused.Has f s → values.get? f = some (W f) := by
    intro f s hf
    obtain ⟨y, hy⟩ := hf.known
    obtain ⟨y', hy', -⟩ := hrelabels.grows.tensor hy
    exact hvalues f y' hy'
  refine ⟨values, heval, fun t f hfill hf => ?_, fun o op plan hop hplan => ?_⟩
  · have hcanvas : ctx₃.isCanvas t = true := (h.fills.1 (by rw [hfill]; simp)).1
    have hhas := (h.fusedOf hf).1
    rw [fusedShape, if_pos hcanvas] at hhas
    obtain ⟨hfull, hshape⟩ := hW.of_has hhas
    exact ⟨W f, hheld hhas, zeroBetweenTiles_of_zeroGaps hs (hs.hasSamples hcanvas) hfull hshape
      (h.zeroGaps hW hf hfill)⟩
  · obtain ⟨z, hz⟩ := hs.wellFormed.output_known hop
    obtain ⟨y, hy⟩ := Option.ne_none_iff_exists'.1
      (hphases.emitted.complete (hphases.emitted.cloned ▸ hz))
    obtain ⟨o', inputs, hcanvasOp⟩ := h.exists_canvasOp hop hplan hy
    refine ⟨o', _, hrelabels.grows.op hcanvasOp.known, hy, hcanvasOp.length_inputs,
      fun i hi x f hx hf hreads => ?_⟩
    obtain ⟨f', hf', hform⟩ := hcanvasOp.operand_at hx
    obtain rfl : f = f' := Option.some.inj (hf.symm.trans hf')
    have hhas := h.has_of_canvasAs (hform.canvasAs hi)
    obtain ⟨hfull, hshape⟩ := hW.of_has hhas
    have hzero : ZeroGaps (ctx₃.canvasOf x) (ctx₃.mapOf x) (W f) :=
      (hform.canvasAs hi).zeroGaps h hW (h.zeroGaps hW) (.inr hreads)
    exact ⟨W f, hheld hhas,
      zeroBetweenTiles_of_zeroGaps hs (hcanvasOp.fuses.operand hi hx).1 hfull hshape hzero⟩

/-- The pooled samples are masked, and the padded ones have zeros in their gap. -/
theorem fuse_zero_between_tiles_padPools : ∃ ctx₀ r ctx values v,
    Context.initial .word64 (Graph.build .word64 padPools) .standard = .ok ctx₀ ∧
    Pass.fuse.run ctx₀ = (.ok r, ctx) ∧ evaluate .unbounded r.graph twoSamples = .ok values ∧
    ctx.gapOf ⟨2⟩ = ⟨0, 1⟩ ∧ values.get? ⟨9⟩ = some v ∧ ctx.ZeroBetweenTiles ⟨2⟩ v := by
  obtain ⟨ctx₀, r, ctx, hinit, hrun, hran⟩ :=
    exists_ran .word64 (Graph.build .word64 padPools) .standard (by decide +kernel)
  have htables : (ran? .word64 (Graph.build .word64 padPools) .standard).map (fun (_, ctx) =>
      (ctx.fills.get? ⟨2⟩, ctx.fusedOf.get? ⟨2⟩, ctx.gapOf ⟨2⟩)) =
      some (some .zeroed, some ⟨9⟩, ⟨0, 1⟩) := by decide +kernel
  have hgraph : (ran? .word64 (Graph.build .word64 padPools) .standard).map (fun (r, _) =>
      (r.graph.inputs, (r.graph.tensors.get? ⟨0⟩).map fun x => x.spec.shape)) =
      some ([⟨0⟩], some [2, 1, 1, 3]) := by decide +kernel
  rw [hran] at htables hgraph
  simp only [Option.map_some, Option.some.injEq, Prod.mk.injEq,
    Option.map_eq_some_iff] at htables hgraph
  obtain ⟨hfill, hfused, hgap⟩ := htables
  obtain ⟨hinputs, x, hx, hshape⟩ := hgraph
  have hfeeds : r.graph.FedBy twoSamples := by
    refine ⟨fun p hp => ?_, fun t ht => ?_⟩
    · obtain rfl := List.mem_singleton.1 hp
      exact ⟨x, hx, by rw [hshape]; rfl⟩
    · rw [hinputs, List.mem_singleton] at ht
      subst ht
      simp [fedData, twoSamples]
  obtain ⟨values, heval, hzeroed, -⟩ := fuse_zero_between_tiles hinit hrun hfeeds
  obtain ⟨v, hv, hzero⟩ := hzeroed ⟨2⟩ ⟨9⟩ hfill hfused
  exact ⟨ctx₀, r, ctx, values, v, hinit, hrun, heval, hgap, hv, hzero⟩

end CanvasFusion
