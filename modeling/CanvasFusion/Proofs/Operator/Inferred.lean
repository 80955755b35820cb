import CanvasFusion.Proofs.Eval.Elementwise

/-!
# Shapes that are inferred

The converse of what shape inference says about shapes: in plain arithmetic, shapes that fit an
operator pass its checks.
-/

namespace CanvasFusion

open Shape List

namespace Operator

/-! ## Sliding windows -/

variable {x s w : Shape} {layout : Layout} {p : Conv2d} {bias : Option Shape}

theorem checkLayout_ok (name : String) (hx : x.length = 4) (hl : layout.isValid = true) :
    checkLayout name layout x = .ok () := by
  simp [checkLayout, rank, hx, hl]
  rfl

theorem slide_ok {kernel stride dilation : Pair Nat} {pad : Pair Padding} {out : Shape}
    (name : String) (misfit : Nat → OperatorIssue) (hl : layout.isValid = true) (hx : x.length = 4)
    (hout : out.length = 4) (h : Slid layout x kernel stride dilation pad out s) :
    slide .unbounded name misfit layout x kernel stride dilation pad out = .ok s := by
  have hlt : ∀ d, layout.spatial.get d < 4 := (Layout.isValid_iff.1 hl).fuse_lt
  have hlen : ∀ d n, (out.set (layout.spatial.get d) n).length = 4 := fun d n => by
    rw [length_set, hout]
  unfold slide
  rw [Dim.all, foldlM_cons]
  refine bind_eq_ok.2 ⟨_, slideStep_eq_ok.2 ⟨_, hx.symm ▸ hlt .first, hout.symm ▸ hlt .first, rfl,
    h.window .first⟩, ?_⟩
  rw [foldlM_cons]
  refine bind_eq_ok.2
    ⟨_, slideStep_eq_ok.2 ⟨_, hx.symm ▸ hlt .second, (hlen _ _).symm ▸ hlt .second,
    rfl, h.window .second⟩, ?_⟩
  refine congrArg Except.ok (ext_extent ?_ fun i hi => ?_)
  · rw [length_set, length_set, h.rank_eq]
  · rw [extent_set ((hlen _ _).symm ▸ hlt .second)]
    split_ifs with h₂
    · rw [h₂]
    · rw [extent_set (hout.symm ▸ hlt .first)]
      split_ifs with h₁
      · rw [h₁]
      · refine (h.off i fun d => ?_).symm
        cases d with
        | first => exact Ne.symm h₁
        | second => exact Ne.symm h₂

/-- Past the checks of its operands, a convolution slides its window. -/
theorem inferConv_eq_slide {lim : Limit} (hx : x.length = 4) (hl : p.layout.isValid = true)
    (hw : w.length = 4) (hchannels : w.extent 1 = x.extent p.layout.channel)
    (hbias : ∀ b, bias = some b → b = [w.extent 0]) :
    inferConv lim p x w bias = slide lim "conv2d" .kernelFit p.layout x ⟨w.extent 2, w.extent 3⟩
      p.stride p.dilation p.pad (x.set p.layout.channel (w.extent 0)) := by
  have hch : p.layout.channel < x.length := hx ▸ (Layout.isValid_iff.1 hl).channel_lt
  obtain ⟨o, i, kh, kw, rfl⟩ : ∃ o i kh kw, w = [o, i, kh, kw] := by
    match w, hw with
    | [o, i, kh, kw], _ => exact ⟨o, i, kh, kw, rfl⟩
  have hi : i = x.extent p.layout.channel := hchannels
  unfold inferConv
  dsimp only
  rw [checkLayout_ok "conv2d" hx hl, bind_ok, entry_ok hch, lift_fault_graph_ok, bind_ok,
    if_neg (not_not.2 hi), withDim_ok hch, lift_fault_graph_ok, bind_ok]
  cases bias with
  | none => rfl
  | some b => exact if_neg (not_not.2 (hbias b rfl))

theorem inferConv_ok (h : ConvShape p x w bias s) : inferConv .unbounded p x w bias = .ok s := by
  rw [inferConv_eq_slide h.rank h.layout h.weight_rank h.channels h.bias_shape]
  exact slide_ok _ _ h.layout h.rank (by rw [length_set, h.rank]) h.slid

theorem inferPool_ok {p : Pool2d} (h : PoolShape p x s) : inferPool .unbounded p x = .ok s := by
  grind [inferPool, bind_eq_ok, checkLayout_ok, slide_ok, PoolShape.rank, PoolShape.layout,
    PoolShape.slid]

/-! ## Other operators -/

theorem inferPad_ok {p : ConstantPad} (h : PadShape p x s) : inferPad .unbounded p x = .ok s := by
  have hlen : (x.zip (p.front.zip p.back)).length = x.length := by
    simp only [length_zip, h.front_rank, h.back_rank, Nat.min_self]
  unfold inferPad
  rw [if_neg (by simp [rank, h.front_rank, h.back_rank])]
  refine (mapM_ok (g := fun e : Nat × Nat × Nat => e.1 + e.2.1 + e.2.2) fun _ _ => rfl).trans ?_
  refine congrArg Except.ok (ext_extent (by rw [length_map, hlen, h.rank_eq])
    fun i hi => ?_)
  rw [length_map, hlen] at hi
  have hfi : i < p.front.length := h.front_rank.symm ▸ hi
  have hbi : i < p.back.length := h.back_rank.symm ▸ hi
  have hzip : (x.zip (p.front.zip p.back))[i]? = some (x[i], p.front[i], p.back[i]) :=
    getElem?_zip_eq_some.2 ⟨getElem?_eq_getElem hi, getElem?_zip_eq_some.2
      ⟨getElem?_eq_getElem hfi, getElem?_eq_getElem hbi⟩⟩
  rw [h.extent_eq i hi, extent_eq (getElem?_eq_getElem hi),
    extent_eq (getElem?_eq_getElem hfi), extent_eq (getElem?_eq_getElem hbi)]
  refine extent_eq ?_
  rw [getElem?_map, hzip]
  rfl

theorem inferTranspose_ok {perm : List Nat} (h : isPermutation perm x.length = true) :
    inferTranspose perm x = .ok (perm.map x.extent) := by
  grind [inferTranspose, rank, lift_fault_graph_eq_ok, permuted_ok, isPermutation_iff]

theorem inferReshape_ok {target : Shape} (h : target.prod = x.prod) :
    inferReshape .unbounded target x = .ok target := by
  unfold inferReshape
  rw [count_unbounded, count_unbounded, lift_fault_graph_ok, lift_fault_graph_ok, bind_ok, bind_ok,
    if_neg (not_not.2 h)]
  rfl

theorem inferConcat_ok {axis : Nat} {inputs : List Shape} (h : ConcatShape axis x inputs s) :
    inferConcat .unbounded axis x inputs = .ok s := by
  have hstep : ∀ (total : Nat), ∀ y ∈ inputs, (do
      if !agreeOff axis y x then invalid "concat" (.concat y x axis)
      let extent ← Size.entry y axis
      let total ← Limit.unbounded.add total extent
      pure total : Except GraphError Nat) = .ok (total + y.extent axis) := by
    intro total y hy
    have hlt : axis < y.length := (h.agree y hy).1.symm ▸ h.axis_lt
    rw [agreeOff_iff.2 (h.agree y hy), entry_ok hlt]
    rfl
  have hsum : ∀ (ys : List Shape) (n : Nat), ys.foldl (fun total y => total + y.extent axis) n =
      n + (ys.map fun y => y.extent axis).sum := by
    intro ys
    induction ys with
    | nil => intro n; rfl
    | cons y ys ih => grind
  unfold inferConcat
  refine (if_neg (Nat.not_le_of_lt h.axis_lt)).trans (bind_eq_ok.2 ⟨_, foldlM_ok hstep 0, ?_⟩)
  rw [hsum, Nat.zero_add, withDim_ok h.axis_lt, h.shape_eq]
  rfl

theorem inferSlice_ok {start size : Shape} (h : SliceShape start size x) :
    inferSlice .unbounded start size x = .ok size := by
  unfold inferSlice
  rw [if_neg (by simp [rank, h.start_rank, h.size_rank]), forM_eq_ok.2, bind_ok]
  · rfl
  rintro ⟨⟨b, s, d⟩, i⟩ hmem
  rw [mem_zipIdx_iff_getElem?, getElem?_zip_eq_some, getElem?_zip_eq_some] at hmem
  obtain ⟨hb, hs, hd⟩ := hmem
  have hi : i < x.length := (List.getElem?_eq_some_iff.1 hd).1
  have hin := h.within i hi
  rw [extent_eq hb, extent_eq hs, extent_eq hd] at hin
  have hs0 : s ≠ 0 := Nat.pos_iff_ne_zero.1 hin.1
  have hstop : ¬ d < b + s := Nat.not_lt_of_le hin.2
  simp [hs0, hstop, bind_ok]
  rfl

end Operator

end CanvasFusion
