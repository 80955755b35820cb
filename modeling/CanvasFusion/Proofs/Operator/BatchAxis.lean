import CanvasFusion.Proofs.Operator.Inferred

/-!
# Shape inference along an axis that nothing reads

If an operator treats the entries of an axis one by one, its output has the extent of its operands
there, whatever that is. So the extent can be replaced in the shapes of the operands, and shape
inference gives the same shape with the extent replaced, under the same limit of sizes.
-/

namespace CanvasFusion

open List Shape

variable {lim : Limit} {b M : Nat}

theorem foldlM_commutes {ε α β : Type} {f f' : β → α → Except ε β} {φ : β → β}
    (h : ∀ acc a next, f acc a = .ok next → f' (φ acc) a = .ok (φ next)) {xs : List α} {acc r : β}
    (hr : xs.foldlM f acc = .ok r) : xs.foldlM f' (φ acc) = .ok (φ r) := by
  induction xs generalizing acc with
  | nil =>
    cases hr
    rfl
  | cons a xs ih => grind [bind_eq_ok]

namespace Shape

variable {s s' : Shape} {axis n : Nat}

theorem entry_set_ne (h : b ≠ axis) : Size.entry (s.set b M) axis = Size.entry s axis := by
  unfold Size.entry
  rw [getElem?_set_ne h]

theorem withDim_set (h : b ≠ axis) (hs : s.withDim axis n = .ok s') :
    withDim (s.set b M) axis n = .ok (s'.set b M) := by
  grind [withDim, replace_eq_ok, set_comm]

end Shape

namespace Operator

variable {x s : Shape} {p : Conv2d} {axis : Nat}

/-! ## Sliding windows -/

theorem slide_set {name : String} {misfit : Nat → OperatorIssue} {layout : Layout}
    {kernel stride dilation : Pair Nat} {pad : Pair Padding} {out : Shape}
    (hb : ∀ d, b ≠ layout.spatial.get d)
    (h : slide lim name misfit layout x kernel stride dilation pad out = .ok s) :
    slide lim name misfit layout (x.set b M) kernel stride dilation pad (out.set b M) =
      .ok (s.set b M) := by
  refine foldlM_commutes (φ := fun out : Shape => out.set b M) (fun out d next hnext => ?_) h
  obtain ⟨extent, hextent, hnext⟩ := bind_eq_ok.1 hnext
  obtain ⟨o, ho, hnext⟩ := bind_eq_ok.1 hnext
  refine bind_eq_ok.2 ⟨extent, (entry_set_ne (hb d)).symm ▸ hextent, bind_eq_ok.2 ⟨o, ho, ?_⟩⟩
  cases o with
  | none => cases hnext
  | some o => grind [lift_fault_graph_eq_ok, withDim_set]

theorem inferConv_set {w : Shape} {bias : Option Shape} (hb : p.layout.batch = b)
    (h : inferConv lim p x w bias = .ok s) :
    inferConv lim p (x.set b M) w bias = .ok (s.set b M) := by
  have hshape := inferConv_eq_ok ((hasPeak_inferConv p x w bias).ok_unbounded h)
  have hv := Layout.isValid_iff.1 hshape.layout
  have hchannel : b ≠ p.layout.channel := hb ▸ hv.batch_ne_channel
  rw [inferConv_eq_slide hshape.rank hshape.layout hshape.weight_rank hshape.channels
    hshape.bias_shape] at h
  rw [inferConv_eq_slide (by rw [length_set, hshape.rank]) hshape.layout hshape.weight_rank
    (by rw [extent_set_ne hchannel, hshape.channels]) hshape.bias_shape,
    set_comm _ _ hchannel]
  exact slide_set (fun d => hb ▸ hv.batch_ne_fuse d) h

/-- With the bias or without. -/
theorem inferShape_conv_set {params : List Shape} (hb : p.layout.batch = b)
    (h : inferShape lim (.conv2d p) (x :: params) = .ok s) :
    inferShape lim (.conv2d p) (x.set b M :: params) = .ok (s.set b M) := by
  rcases params with _ | ⟨w, _ | ⟨c, _ | ⟨d, rest⟩⟩⟩
  · cases h
  · have hconv : inferConv lim p x w none = .ok s := h
    exact inferConv_set hb hconv
  · have hconv : inferConv lim p x w (some c) = .ok s := h
    exact inferConv_set hb hconv
  · cases h

theorem inferPool_set {p : Pool2d} (hb : p.layout.batch = b) (h : inferPool lim p x = .ok s) :
    inferPool lim p (x.set b M) = .ok (s.set b M) := by
  unfold inferPool at h ⊢
  obtain ⟨_, hcheck, h⟩ := bind_eq_ok.1 h
  obtain ⟨hrank, hlayout⟩ := checkLayout_eq_ok hcheck
  refine bind_eq_ok.2 ⟨(), checkLayout_ok _ (by rw [length_set, hrank]) hlayout, ?_⟩
  exact slide_set (fun d => hb ▸ (Layout.isValid_iff.1 hlayout).batch_ne_fuse d) h

/-! ## Padding -/

theorem inferPad_set {p : ConstantPad} (hfront : p.front[b]? = some 0) (hback : p.back[b]? = some 0)
    (hM : lim.Holds M) (h : inferPad lim p x = .ok s) :
    inferPad lim p (x.set b M) = .ok (s.set b M) := by
  unfold inferPad at h ⊢
  obtain ⟨hrank, h⟩ := of_guard h
  rw [if_neg (by rwa [rank, length_set])]
  refine mapM_eq_ok_iff.2 ?_
  have hall := mapM_eq_ok_iff.1 h
  rw [forall₂_iff_get] at hall ⊢
  refine ⟨by grind, fun i h₁ h₂ => ?_⟩
  have hi : i < x.length := by grind
  have h₁' : i < (x.zip (p.front.zip p.back)).length := by
    rwa [length_zip, length_set, ← length_zip] at h₁
  have h₂' : i < s.length := by rwa [length_set] at h₂
  have hstep := hall.2 i h₁' h₂'
  simp only [get_eq_getElem, getElem_zip, getElem_set] at hstep ⊢
  split_ifs with hbi
  · subst hbi
    obtain ⟨_, hf⟩ := List.getElem?_eq_some_iff.1 hfront
    obtain ⟨_, hk⟩ := List.getElem?_eq_some_iff.1 hback
    have hadd : lim.add M 0 = .ok M := if_pos hM
    grind [lift_fault_graph_ok, bind_ok]
  · exact hstep

/-! ## Broadcasting -/

section Broadcasting

variable {a c : Shape}

/-- Both operands get the new extent. -/
theorem broadcast_set (hlen : a.length = c.length) (h : broadcast a c = .ok s) :
    broadcast (a.set b M) (c.set b M) = .ok (s.set b M) := by
  obtain ⟨hrank, hmeet⟩ := broadcast_eq_ok_iff.1 h
  have ha : s.length = a.length := by omega
  have hc : s.length = c.length := by omega
  rw [aligned_of_length ha.symm, aligned_of_length hc.symm] at hmeet
  refine broadcast_eq_ok_iff.2 ⟨by simpa only [length_set] using hrank, fun i hi => ?_⟩
  rw [aligned_of_length (by simp only [length_set, ha]),
    aligned_of_length (by simp only [length_set, hc])]
  rw [length_set] at hi
  by_cases hb : b = i
  · subst hb
    rw [extent_set_self (ha ▸ hi), extent_set_self (hc ▸ hi), extent_set_self hi]
    exact .inl ⟨rfl, rfl⟩
  · grind [extent_set_ne]

/-- The first operand gets the new extent, and the second one spreads over it. -/
theorem broadcast_set_left (hlen : c.length ≤ a.length) (hone : extent (aligned a.length c) b = 1)
    (h : broadcast a c = .ok s) : broadcast (a.set b M) c = .ok (s.set b M) := by
  obtain ⟨hrank, hmeet⟩ := broadcast_eq_ok_iff.1 h
  have ha : s.length = a.length := by omega
  rw [aligned_of_length ha.symm] at hmeet
  refine broadcast_eq_ok_iff.2 ⟨by simpa only [length_set] using hrank, fun i hi => ?_⟩
  rw [aligned_of_length (by simp only [length_set, ha])]
  rw [length_set] at hi ⊢
  by_cases hb : b = i
  · subst hb
    rw [extent_set_self (ha ▸ hi), extent_set_self hi, ha, hone]
    exact .inr (.inr ⟨rfl, rfl⟩)
  · grind [extent_set_ne]

theorem broadcast_comm (h : broadcast a c = .ok s) : broadcast c a = .ok s := by
  rw [broadcast_eq_ok_iff] at h ⊢
  refine ⟨by rw [h.1, Nat.max_comm], fun i hi => ?_⟩
  rcases h.2 i hi with h | h | h
  · exact .inl h.symm
  · exact .inr (.inr h)
  · exact .inr (.inl h)

/-- The second operand gets the new extent, and the first one spreads over it. -/
theorem broadcast_set_right (hlen : a.length ≤ c.length) (hone : extent (aligned c.length a) b = 1)
    (h : broadcast a c = .ok s) : broadcast a (c.set b M) = .ok (s.set b M) :=
  broadcast_comm (broadcast_set_left hlen hone (broadcast_comm h))

end Broadcasting

/-! ## Concatenation -/

theorem agreeOff_set (h : agreeOff axis s x = true) :
    agreeOff axis (s.set b M) (x.set b M) = true := by
  grind [agreeOff_iff, extent_set_self, extent_set_ne]

theorem inferConcat_set {inputs : List Shape} (haxis : b ≠ axis)
    (h : inferConcat lim axis x inputs = .ok s) :
    inferConcat lim axis (x.set b M) (inputs.map fun y => y.set b M) = .ok (s.set b M) := by
  unfold inferConcat at h ⊢
  obtain ⟨hrank, h⟩ := of_guard h
  rw [if_neg (by rwa [rank, length_set]), foldlM_map]
  obtain ⟨total, htotal, h⟩ := bind_eq_ok.1 h
  refine bind_eq_ok.2 ⟨total, foldlM_commutes (φ := id) (fun acc y next hnext => ?_) htotal, ?_⟩
  · obtain ⟨hagree, -⟩ := of_guard hnext
    grind [agreeOff_set, entry_set_ne]
  · rw [lift_fault_graph_eq_ok] at h ⊢
    exact withDim_set haxis h

end Operator

end CanvasFusion
