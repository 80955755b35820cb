import CanvasFusion.Proofs.Eval.Arrangement
import CanvasFusion.Proofs.Eval.Elementwise
import CanvasFusion.Proofs.Eval.Exact
import CanvasFusion.Proofs.Tiling.Canvas

/-!
# Operators on a canvas

An operator that is applied to a canvas does to each tile what it does to the sample of the tile.
What it does to the gaps is of no interest, except for whether zeros stay zeros.

Elementwise operators, transpositions and concatenations act on a tile cell as they act on the
sample cell. Sliding windows and zero padding read cells beside the tile as well. There they find
zeros or nothing, just as beside the sample.
-/

namespace CanvasFusion

open AxisMap Canvas Scalar

open Value

variable {α : Type} [Scalar α] {K : Canvas} {m m' : AxisMap} {C c : Nat} {x X : Value α} {s : Shape}
  {perm : List Nat}

/-! ## Canvases given by their cells -/

section Cells

variable {f F : Index → α}

theorem onCanvas_ofFn (hK : K.Tiled) (hm : m.Valid)
    (h : ∀ n c y, n < K.count → c < C → (∀ d, y.get d < K.extent.get d) →
      F (m.arrange 0 c (K.place (K.spot n) y)) = f (m.arrange n c y)) :
    OnCanvas K m C (ofFn (m.arrange K.count C K.extent) f) (ofFn (m.arrange 1 C K.size) F) where
  full := full_ofFn _ _
  shape := rfl
  canvas_full := full_ofFn _ _
  canvas_shape := rfl
  tile {n c y} hn hc hy := by
    have hin : Shape.Within (m.arrange 1 C K.size) (m.arrange 0 c (K.place (K.spot n) y)) := by
      refine (within_arrange hm).2 ⟨Nat.one_pos, hc, fun d => ?_⟩
      rw [size_get]
      exact hK.place_lt (hK.spot_lt hn d) (hy d)
    grind [cell_ofFn, within_arrange]

theorem zeroGaps_ofFn (hm : m.Valid)
    (h : ∀ c Y, c < C → (∀ d, Y.get d < K.length d) → K.InGap Y →
      F (m.arrange 0 c Y) = zero) : ZeroGaps K m (ofFn (m.arrange 1 C K.size) F) := by
  intro c Y hin hgap
  have hlt := (within_arrange hm).1 hin
  rw [cell_ofFn (s := m.arrange 1 C K.size) hin]
  grind [size_get]

end Cells

/-! ## One argument -/

theorem OnCanvas.map (h : OnCanvas K m C x X) (hK : K.Tiled) (hm : m.Valid) (f : α → α) :
    OnCanvas K m C ⟨x.shape, x.data.map f⟩ ⟨X.shape, X.data.map f⟩ where
  full := full_map h.full f
  shape := h.shape
  canvas_full := full_map h.canvas_full f
  canvas_shape := h.canvas_shape
  tile {n c y} hn hc hy := by
    rw [cell_map h.canvas_full f (h.within hK hm hn hc hy), h.tile hn hc hy]
    refine (cell_map h.full f ?_).symm
    rw [h.shape]
    exact (within_arrange hm).2 ⟨hn, hc, hy⟩

theorem ZeroGaps.map (h : ZeroGaps K m X) (hX : X.Full) {f : α → α}
    (hf : f zero = zero) : ZeroGaps K m ⟨X.shape, X.data.map f⟩ := by
  intro c Y hin hgap
  rw [cell_map hX f hin, h c Y hin hgap, hf]

/-! ## Transpositions -/

theorem OnCanvas.transpose (h : OnCanvas K m C x X) (hK : K.Tiled) (hm : m.Valid) (hm' : m'.Valid)
    (hlen : perm.length = 4) (hp : m.permuted perm = some m') :
    OnCanvas K m' C (ofFn (m'.arrange K.count C K.extent) fun j => x.cell (sourceIndex perm j))
      (ofFn (m'.arrange 1 C K.size) fun j => X.cell (sourceIndex perm j)) := by
  refine onCanvas_ofFn hK hm' fun n c y hn hc hy => ?_
  rw [sourceIndex_arrange hm hm' hlen hp, sourceIndex_arrange hm hm' hlen hp, h.tile hn hc hy]

theorem ZeroGaps.transpose (h : ZeroGaps K m X) (hX : X.shape = m.arrange 1 C K.size) (hm : m.Valid)
    (hm' : m'.Valid) (hlen : perm.length = 4) (hp : m.permuted perm = some m') :
    ZeroGaps K m' (ofFn (m'.arrange 1 C K.size) fun j => X.cell (sourceIndex perm j)) := by
  refine zeroGaps_ofFn hm' fun c Y hc hY hgap => ?_
  rw [sourceIndex_arrange hm hm' hlen hp]
  refine h c Y ?_ hgap
  grind [within_arrange, size_get]

/-! ## Two arguments -/

/-- A shape that is spread over all samples and all cells of a channel. -/
structure Shape.Invariant (s : Shape) (m : AxisMap) : Prop where
  rank_le : s.length ≤ 4
  extent : ∀ axis, axis = m.batch ∨ (∃ d, axis = m.fuse.get d) → 4 - s.length ≤ axis →
    s.extent (axis - (4 - s.length)) = 1

/-- What is found to be the same for all samples is spread over them. -/
theorem Shape.invariant_of_check (h : m.isSampleInvariant s = .ok true) : s.Invariant m := by
  have hstep : ∀ {ok : Bool} {axis : Nat}, (if !ok then pure false
      else if axis < 4 - s.rank then pure true
      else do
        let d ← Size.entry s (axis - (4 - s.rank))
        pure (decide (d = 1)) : Except Fault Bool) = .ok true →
      ok = true ∧ (4 - s.rank ≤ axis → s.extent (axis - (4 - s.rank)) = 1) := by
    intro ok axis h
    split_ifs at h with hok hoff
    · cases h
    · exact ⟨by simpa using hok, fun hle => absurd hoff (Nat.not_lt.2 hle)⟩
    · obtain ⟨d, hd, h⟩ := bind_eq_ok.1 h
      refine ⟨by simpa using hok, fun _ => (extent_eq (entry_eq_ok.1 hd)).trans ?_⟩
      exact of_decide_eq_true (Except.ok.inj h)
  unfold isSampleInvariant at h
  split_ifs at h with hr
  · cases h
  obtain ⟨ok₁, hbatch, h⟩ := bind_eq_ok.1 h
  obtain ⟨ok₂, hfirst, h⟩ := bind_eq_ok.1 h
  obtain ⟨ok₃, hsecond, h⟩ := bind_eq_ok.1 h
  cases h
  obtain ⟨rfl, hone₂⟩ := hstep hsecond
  obtain ⟨rfl, hone₁⟩ := hstep hfirst
  refine ⟨Nat.le_of_not_lt hr, fun axis haxis hle => ?_⟩
  rcases haxis with rfl | ⟨d, rfl⟩
  · exact (hstep hbatch).2 hle
  · cases d with
    | first => exact hone₁ hle
    | second => exact hone₂ hle

/-- What spreads over a batch and is the same for all samples spreads over a canvas. -/
theorem Shape.Invariant.spreads (hs : s.Invariant m) (hm : m.Valid) {N N' : Nat} {S S' : Pair Nat}
    (h : s.Spreads (m.arrange N C S)) : s.Spreads (m.arrange N' C S') := by
  have hrank := hs.rank_le
  refine ⟨by rw [length_arrange]; exact hrank, fun i hi => ?_⟩
  have hext := h.extent i hi
  rw [length_arrange] at hext ⊢
  have hlt : i + (4 - s.length) < 4 := by omega
  grind [Nat.add_sub_cancel, arrange_channel, Valid.axis_cases, extent]

/-- An operand without batch and canvas dimensions is read at an index that depends on the channel
only. -/
theorem Shape.Invariant.spreadIndex_eq (hs : s.Invariant m) (hm : m.Valid) {n n' : Nat}
    {y y' : Pair Nat} : spreadIndex s (m.arrange n c y) = spreadIndex s (m.arrange n' c y') := by
  have hrank := hs.rank_le
  have hle : ∀ {n y}, s.length ≤ (m.arrange n c y).length := by grind [length_arrange]
  refine Shape.ext_extent (by rw [length_spreadIndex hle, length_spreadIndex hle]) fun i hi => ?_
  rw [length_spreadIndex hle] at hi
  rw [extent_spreadIndex hle hi, extent_spreadIndex hle hi, length_arrange,
    length_arrange]
  split_ifs with h1
  · rfl
  · have haxis : i + (4 - s.length) < 4 := by omega
    have hne : ∀ axis, i + (4 - s.length) = axis →
        ¬ (axis = m.batch ∨ ∃ d, axis = m.fuse.get d) := by
      rintro axis rfl hrole
      refine h1 ?_
      have := hs.extent _ hrole (Nat.le_add_left _ _)
      rwa [Nat.add_sub_cancel] at this
    grind [arrange_channel, Valid.axis_cases]

/-- An operand on the canvas, or one that is spread over it as it is. -/
inductive Operand (K : Canvas) (m : AxisMap) (C : Nat) (x X : Value α) : Prop where
  | canvas (h : OnCanvas K m C x X)
  | spread (heq : X = x) (hs : x.shape.Invariant m)

/-- An operand has the same element for a cell of a tile as for the cell of the sample. -/
theorem Operand.cell_eq (h : Operand K m C x X) (hK : K.Tiled) (hm : m.Valid) {n : Nat}
    {y : Pair Nat} (hn : n < K.count) (hc : c < C) (hy : ∀ d, y.get d < K.extent.get d) :
    X.cell (spreadIndex X.shape (m.arrange 0 c (K.place (K.spot n) y))) =
      x.cell (spreadIndex x.shape (m.arrange n c y)) := by
  cases h with
  | canvas h =>
    have hin : x.shape.Within (m.arrange n c y) := by
      rw [h.shape]
      exact (within_arrange hm).2 ⟨hn, hc, hy⟩
    rw [spreadIndex_self (h.within hK hm hn hc hy), spreadIndex_self hin, h.tile hn hc hy]
  | spread heq hs => rw [heq, hs.spreadIndex_eq hm]

theorem binary_onCanvas {a A b B : Value α} (ha : Operand K m C a A) (hb : Operand K m C b B)
    (hK : K.Tiled) (hm : m.Valid) (kind : BinaryKind) :
    OnCanvas K m C
      (ofFn (m.arrange K.count C K.extent) fun index => kind.apply
        (a.cell (spreadIndex a.shape index)) (b.cell (spreadIndex b.shape index)))
      (ofFn (m.arrange 1 C K.size) fun index => kind.apply
        (A.cell (spreadIndex A.shape index)) (B.cell (spreadIndex B.shape index))) := by
  grind [onCanvas_ofFn, Operand.cell_eq]

/-- A canvas with zeros in its gaps, read in a gap. -/
theorem ZeroGaps.cell_spread (h : ZeroGaps K m X) (hX : X.shape = m.arrange 1 C K.size)
    (hm : m.Valid) {Y : Pair Nat} (hc : c < C) (hY : ∀ d, Y.get d < K.length d) (hgap : K.InGap Y) :
    X.cell (spreadIndex X.shape (m.arrange 0 c Y)) = zero := by
  have hin : X.shape.Within (m.arrange 0 c Y) := by grind [within_arrange, size_get]
  rw [spreadIndex_self hin, h c Y hin hgap]

end CanvasFusion
