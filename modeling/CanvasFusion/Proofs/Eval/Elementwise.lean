import CanvasFusion.Proofs.Eval.Index

/-!
# What elementwise operators do to a value

A function of one argument acts on each element, and a binary operator on the elements of its
operands at the broadcast index. Softmax stays within its buffer.
-/

namespace CanvasFusion

open Operator Shape List Limit

open Value

variable {α : Type} [Scalar α] {x a b : Value α} {out s t : Shape} {index : Index}
  {rank i axis : Nat}

/-! ## One argument -/

omit [Scalar α] in
theorem full_map (hx : x.Full) (f : α → α) : (mk x.shape (x.data.map f)).Full := by
  rw [Full, Array.size_map]
  exact hx

theorem cell_map (hx : x.Full) (f : α → α) (h : x.shape.Within index) :
    (mk x.shape (x.data.map f)).cell index = f (x.cell index) := by
  have hcell := hx.element?_eq h
  rw [element?, if_pos h] at hcell
  refine cell_eq_of_getElem? h ?_
  rw [Array.getElem?_map, hcell]
  rfl

/-! ## Broadcasting -/

/-- The shape spreads over another: aligned at the last axis, each extent is one or the same. -/
structure Shape.Spreads (s out : Shape) : Prop where
  rank_le : s.length ≤ out.length
  extent : ∀ i < s.length, s.extent i = 1 ∨ s.extent i = out.extent (i + (out.length - s.length))

theorem extent_aligned (hi : i < s.length) :
    extent (aligned rank s) (i + (rank - s.length)) = s.extent i := by
  refine extent_eq ?_
  rw [aligned, Shape.rank, getElem?_append_right (by simp), length_replicate,
    Nat.add_sub_cancel, getElem?_extent hi]

theorem length_aligned (h : s.length ≤ rank) : (aligned rank s).length = rank := by
  grind [aligned, rank]

/-- What two extents broadcast to: they are the same, or one of them is one. -/
def Meet (d e f : Nat) : Prop := d = f ∧ e = f ∨ d = 1 ∧ e = f ∨ e = 1 ∧ d = f

theorem meet_iff {d e f : Nat} {issue : OperatorIssue} :
    (if d = e then pure d else if d = 1 then pure e else if e = 1 then pure d
      else invalid "binary" issue : Except GraphError Nat) = .ok f ↔ Meet d e f := by
  have hpure : ∀ {m : Nat}, (pure m : Except GraphError Nat) = .ok f ↔ m = f :=
    ⟨Except.ok.inj, congrArg Except.ok⟩
  have hinvalid : (invalid "binary" issue : Except GraphError Nat) ≠ .ok f := nofun
  unfold Meet
  grind

theorem broadcast_eq_ok_iff : broadcast s t = .ok out ↔
    out.length = max s.length t.length ∧ ∀ i < out.length,
      Meet (extent (aligned out.length s) i)
        (extent (aligned out.length t) i) (out.extent i) := by
  have hzip : ((aligned (max s.length t.length) s).zip
      (aligned (max s.length t.length) t)).length = max s.length t.length := by
    rw [length_zip, length_aligned (le_max_left ..), length_aligned (le_max_right ..),
      min_self]
  have hentry : ∀ i (hi : i < ((aligned (max s.length t.length) s).zip
        (aligned (max s.length t.length) t)).length),
      ((aligned (max s.length t.length) s).zip
        (aligned (max s.length t.length) t))[i] =
        (extent (aligned (max s.length t.length) s) i,
          extent (aligned (max s.length t.length) t) i) := by
    intro i hi
    obtain ⟨h₁, h₂⟩ := lt_min_iff.1 (length_zip ▸ hi)
    rw [getElem_zip, extent_eq (getElem?_eq_getElem h₁),
      extent_eq (getElem?_eq_getElem h₂)]
  unfold broadcast rank
  rw [mapM_eq_ok_iff, forall₂_iff_get]
  constructor
  · rintro ⟨hlen, hall⟩
    have hlen' := hzip.symm.trans hlen
    refine ⟨hlen'.symm, fun i hi => ?_⟩
    have hi' := hall i (hlen ▸ hi) hi
    rw [get_eq_getElem, hentry] at hi'
    rw [← hlen', extent_eq (getElem?_eq_getElem hi)]
    exact meet_iff.1 hi'
  · rintro ⟨hlen, hall⟩
    refine ⟨hzip.trans hlen.symm, fun i h₁ h₂ => ?_⟩
    rw [get_eq_getElem, hentry]
    have hi := hall i h₂
    rw [hlen, extent_eq (getElem?_eq_getElem h₂)] at hi
    exact meet_iff.2 hi

/-- Both operands spread over the shape they broadcast to. -/
theorem spreads_of_broadcast (h : broadcast s t = .ok out) : s.Spreads out ∧ t.Spreads out := by
  obtain ⟨hlen, hmeet⟩ := broadcast_eq_ok_iff.1 h
  have hs : s.length ≤ out.length := hlen ▸ le_max_left _ _
  have ht : t.length ≤ out.length := hlen ▸ le_max_right _ _
  refine ⟨⟨hs, fun i hi => ?_⟩, ⟨ht, fun i hi => ?_⟩⟩
  · grind [extent_aligned, Meet]
  · have hi' := hmeet (i + (out.length - t.length)) (by omega)
    rw [extent_aligned hi] at hi'
    unfold Meet at hi'
    omega

theorem Shape.Spreads.aligned_cases (hs : s.Spreads out) (hi : i < out.length) :
    Shape.extent (Operator.aligned out.length s) i = 1 ∨
      Shape.extent (Operator.aligned out.length s) i = out.extent i := by
  by_cases hlt : i < out.length - s.length
  · refine .inl (extent_eq ?_)
    rw [aligned, rank, getElem?_append_left (by simpa using hlt),
      getElem?_replicate, if_pos hlt]
  · obtain ⟨j, rfl⟩ : ∃ j, i = j + (out.length - s.length) :=
      ⟨i - (out.length - s.length), by omega⟩
    grind [extent_aligned, extent]

theorem aligned_of_length (h : s.length = rank) : Operator.aligned rank s = s := by
  simp [aligned, Shape.rank, h]

/-- Two operands that spread over a shape broadcast to it, if one of them has it. -/
theorem broadcast_of_spreads (hs : s.Spreads out) (ht : t.Spreads out) (h : s = out ∨ t = out) :
    Operator.broadcast s t = .ok out := by
  have h₁ := hs.rank_le
  have h₂ := ht.rank_le
  grind [broadcast_eq_ok_iff, Meet, aligned_of_length, Spreads.aligned_cases]

/-- The index of an operand of the given shape that belongs to an index of the output. -/
def spreadIndex (s : Shape) (index : Index) : Index :=
  zipWith (fun d i => if d = 1 then 0 else i) s (index.drop (index.length - s.length))

theorem extent_spreadIndex (hs : s.length ≤ index.length) (hi : i < s.length) :
    extent (spreadIndex s index) i =
      if s.extent i = 1 then 0 else extent index (i + (index.length - s.length)) := by
  have hi' : i + (index.length - s.length) < index.length := by omega
  refine extent_eq ?_
  rw [spreadIndex, getElem?_zipWith, getElem?_extent hi, getElem?_drop, add_comm,
    getElem?_extent hi']

theorem length_spreadIndex (hs : s.length ≤ index.length) :
    (spreadIndex s index).length = s.length := by
  rw [spreadIndex, length_zipWith, length_drop]
  omega

theorem within_spreadIndex (hs : s.Spreads out) (h : out.Within index) :
    s.Within (spreadIndex s index) := by
  have hlen : s.length ≤ index.length := h.length_eq ▸ hs.rank_le
  refine within_iff.2 ⟨length_spreadIndex hlen, fun i hi => ?_⟩
  have hlt := (within_iff.1 h).2 (i + (out.length - s.length)) (by have := hs.rank_le; omega)
  rw [extent_spreadIndex hlen hi, h.length_eq]
  split_ifs with h1
  · rw [h1]
    exact one_pos
  · rw [(hs.extent i hi).resolve_left h1]
    exact hlt

/-- An operand of the output's shape is read at the index itself. -/
theorem spreadIndex_self (h : out.Within index) : spreadIndex out index = index := by
  refine ext_extent ?_ fun i hi => ?_
  · rw [length_spreadIndex (le_of_eq h.length_eq.symm), h.length_eq]
  · rw [length_spreadIndex (le_of_eq h.length_eq.symm)] at hi
    have hlt := (within_iff.1 h).2 i hi
    rw [extent_spreadIndex (Nat.le_of_eq h.length_eq.symm) hi, h.length_eq, Nat.sub_self,
      add_zero]
    grind

theorem broadcastRead_ok (hx : x.Full) (hs : x.shape.Spreads out) (h : out.Within index) :
    broadcastRead .unbounded x x.shape.steps index = .ok (x.cell (spreadIndex x.shape index)) := by
  have hle : x.shape.rank ≤ index.length := h.length_eq ▸ hs.rank_le
  unfold broadcastRead
  rw [Size.sub, if_pos hle, bind_ok, zip, map_zipWith]
  exact readAt_ok hx (within_spreadIndex hs h)

/-- A binary operator acts on the elements that its operands have at the broadcast index. -/
theorem combine_ok {kind : BinaryKind} (ha : a.Full) (hb : b.Full)
    (h : broadcast a.shape b.shape = .ok out) :
    combine .unbounded kind a b out = .ok (ofFn out fun index =>
      kind.apply (a.cell (spreadIndex a.shape index))
        (b.cell (spreadIndex b.shape index))).data := by
  obtain ⟨hsa, hsb⟩ := spreads_of_broadcast h
  unfold combine
  rw [strides_ok, bind_ok, strides_ok, bind_ok]
  refine tabulate_ok fun index hin => ?_
  rw [broadcastRead_ok ha hsa hin, bind_ok, broadcastRead_ok hb hsb hin, bind_ok]
  rfl

/-! ## Softmax -/

/-- The place of an element of a line lies within the data. -/
theorem line_position_lt {o k : Nat} (haxis : axis < s.length) (ho : o < (s.take axis).prod)
    (hk : k < s.extent axis) (hi : i < (s.drop (axis + 1)).prod) :
    (o * s.extent axis + k) * (s.drop (axis + 1)).prod + i < s.prod := by
  have hsplit : s.prod = (s.take axis).prod * s.extent axis * (s.drop (axis + 1)).prod := by
    conv => lhs; rw [← take_append_drop axis s, drop_eq_getElem_cons haxis]
    rw [prod_append, prod_cons, Nat.mul_assoc,
      extent_eq (getElem?_eq_getElem haxis)]
  have hrow : o * s.extent axis + k + 1 ≤ (s.take axis).prod * s.extent axis :=
    calc o * s.extent axis + k + 1 ≤ (o + 1) * s.extent axis := by rw [Nat.succ_mul]; omega
      _ ≤ _ := Nat.mul_le_mul_right _ ho
  calc (o * s.extent axis + k) * (s.drop (axis + 1)).prod + i
      < (o * s.extent axis + k + 1) * (s.drop (axis + 1)).prod := by rw [Nat.succ_mul]; omega
    _ ≤ _ := hsplit ▸ Nat.mul_le_mul_right _ hrow

/-- Softmax overwrites its buffer line by line. -/
theorem softmax_ok (hx : x.Full) (haxis : axis < x.shape.length) :
    ∃ data, softmax .unbounded axis x = .ok data ∧ data.size = x.shape.prod := by
  unfold softmax
  rw [entry_ok haxis, bind_ok,
    show unbounded.product (x.shape.drop (axis + 1)) = .ok (x.shape.drop (axis + 1)).prod from
      count_unbounded _, bind_ok,
    show unbounded.product (x.shape.take axis) = .ok (x.shape.take axis).prod from
      count_unbounded _, bind_ok]
  refine foldlM_invariant (fun _ (data : Array α) => data.size = x.shape.prod) hx
    fun _ o data ho hsize => ?_
  refine foldlM_invariant (fun _ (data : Array α) => data.size = x.shape.prod) hsize
    fun _ i data hi hsize => ?_
  have ho' : o < (x.shape.take axis).prod := mem_range.1 (mem_of_getElem? ho)
  have hi' : i < (x.shape.drop (axis + 1)).prod := mem_range.1 (mem_of_getElem? hi)
  have hpositions : ((range (x.shape.extent axis)).mapM fun k => do
      let row ← unbounded.mul o (x.shape.extent axis)
      let row ← unbounded.add row k
      let start ← unbounded.mul row (x.shape.drop (axis + 1)).prod
      unbounded.add start i) = .ok ((range (x.shape.extent axis)).map fun k =>
        (o * x.shape.extent axis + k) * (x.shape.drop (axis + 1)).prod + i) :=
    mapM_ok fun _ _ => rfl
  rw [hpositions, bind_ok]
  generalize hline : (range (x.shape.extent axis)).map (fun k =>
    (o * x.shape.extent axis + k) * (x.shape.drop (axis + 1)).prod + i) = positions
  have hlt : ∀ p ∈ positions, p < x.shape.prod := by
    intro p hp
    rw [← hline] at hp
    obtain ⟨k, hk, rfl⟩ := mem_map.1 hp
    exact line_position_lt haxis ho' (mem_range.1 hk) hi'
  have hreads : positions.mapM x.read =
      .ok (positions.map fun p => x.cell (x.shape.indexAt p)) := by
    grind [mapM_ok, read_ok, within_indexAt, position_indexAt]
  rw [hreads, bind_ok]
  refine foldlM_invariant (fun _ (data : Array α) => data.size = x.shape.prod) hsize ?_
  rintro j ⟨p, e⟩ data hj hsize
  have hp := hlt p (of_mem_zip (mem_of_getElem? hj)).1
  dsimp only
  rw [write, if_pos (hsize.symm ▸ hp)]
  grind

end CanvasFusion
