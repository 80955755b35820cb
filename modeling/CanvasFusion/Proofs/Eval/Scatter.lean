import CanvasFusion.Proofs.Eval.Index

/-!
# Writing elements to places

Padding and concatenation fill a buffer, go through the elements of their inputs and write each of
them to a place. Such a kernel is a list of writes that are made one after the other (`scatter`). A
write leaves all other places alone (`write_ok`). So if no place is written twice, then in the end
each place has what was written there, or else what it had at the beginning (`scatter_ok`).
-/

namespace CanvasFusion.Value

open List Shape

variable {α : Type} {x : Value α} {s : Shape} {data : Array α} {i j : Index} {a : α}
  {φ : Index → Index} {writes : List (Index × α)}

/-! ## Elements and where they are carried -/

/-- The elements with their indices, in row-major order. -/
def entries (x : Value α) : List (Index × α) :=
  x.data.toList.zipIdx.map fun p => (x.shape.indexAt p.2, p.1)

/-- The elements, each with the index that it is carried to. -/
def carried (x : Value α) (φ : Index → Index) : List (Index × α) :=
  x.entries.map fun e => (φ e.1, e.2)

theorem mem_entries (hx : x.Full) : (i, a) ∈ x.entries ↔ x.element? i = some a := by
  simp only [entries, mem_map, Prod.mk.injEq, Prod.exists, mk_mem_zipIdx_iff_getElem?,
    Array.getElem?_toList]
  constructor
  · rintro ⟨a, k, hk, rfl, rfl⟩
    have hlt : k < x.shape.prod := hx ▸ (Array.getElem?_eq_some_iff.1 hk).1
    rw [element?, if_pos (within_indexAt hlt), position_indexAt hlt, hk]
  · intro h
    rw [element?, Option.ite_none_right_eq_some] at h
    exact ⟨a, _, h.2, indexAt_position h.1, rfl⟩

theorem nodup_entries (hx : x.Full) : (x.entries.map (·.1)).Nodup := by
  have hindices : x.entries.map (·.1) = (range' 0 x.data.toList.length).map x.shape.indexAt := by
    rw [← zipIdx_map_snd 0 x.data.toList, map_map, entries, map_map]
    rfl
  rw [hindices]
  refine Nodup.map_on (fun k hk l hl heq => ?_) nodup_range'
  rw [mem_range'_1, Array.length_toList, hx, Nat.zero_add] at hk hl
  rw [← position_indexAt hk.2, heq, position_indexAt hl.2]

theorem mem_carried (hx : x.Full) :
    (j, a) ∈ x.carried φ ↔ ∃ i, x.element? i = some a ∧ φ i = j := by
  simp only [carried, mem_map, Prod.mk.injEq, Prod.exists, mem_entries hx]
  exact ⟨fun ⟨i, _, h, hj, ha⟩ => ⟨i, ha ▸ h, hj⟩, fun ⟨i, h, hj⟩ => ⟨i, a, h, hj, rfl⟩⟩

/-- An index is written if an index of the value is carried there. -/
theorem mem_places_carried (hx : x.Full) :
    j ∈ (x.carried φ).map (·.1) ↔ ∃ i, x.shape.Within i ∧ φ i = j := by
  simp only [mem_map, Prod.exists, exists_and_right, exists_eq_right, mem_carried hx]
  constructor
  · rintro ⟨a, i, hi, rfl⟩
    exact ⟨i, within_of_element? hi, rfl⟩
  · rintro ⟨i, hi, rfl⟩
    obtain ⟨a, ha⟩ := hx.exists_element hi
    exact ⟨a, i, ha, rfl⟩

theorem nodup_carried (hx : x.Full)
    (hinj : ∀ i j, x.shape.Within i → x.shape.Within j → φ i = φ j → i = j) :
    ((x.carried φ).map (·.1)).Nodup := by
  have hplaces : (x.carried φ).map (·.1) = (x.entries.map (·.1)).map φ := by
    rw [carried, map_map, map_map]
    rfl
  have hin : ∀ i ∈ x.entries.map (·.1), x.shape.Within i := by
    intro i hi
    obtain ⟨⟨i, a⟩, he, rfl⟩ := mem_map.1 hi
    exact within_of_element? ((mem_entries hx).1 he)
  rw [hplaces]
  exact (nodup_entries hx).map_on fun i hi j hj => hinj i j (hin i hi) (hin j hj)

/-! ## Writes -/

/-- A buffer of shape `s` after some writes, one after the other, each of an element at an index. -/
def scatter (s : Shape) (writes : List (Index × α)) (data : Array α) : Except Fault (Array α) :=
  writes.foldlM (fun data w => write data (s.position w.1) w.2) data

theorem scatter_append (s : Shape) (writes writes' : List (Index × α)) (data : Array α) :
    scatter s (writes ++ writes') data = scatter s writes data >>= scatter s writes' :=
  foldlM_append ..

/-- Going through the elements of a value and writing each of them is a list of writes. -/
theorem foldIndexed_eq_scatter {f : Array α → Index → α → Except Fault (Array α)} (hx : x.Full)
    (hf : ∀ data i a, x.shape.Within i → f data i a = write data (s.position (φ i)) a)
    (data : Array α) : x.foldIndexed f data = scatter s (x.carried φ) data := by
  unfold foldIndexed scatter carried entries
  rw [map_map, foldlM_map]
  have hlt : ∀ p ∈ x.data.toList.zipIdx, p.2 < x.shape.prod := fun p hp => lt_of_mem_zipIdx hx hp
  generalize x.data.toList.zipIdx = es at hlt
  induction es generalizing data with
  | nil => rfl
  | cons e es ih =>
    have he := hlt e mem_cons_self
    simp only [foldlM_cons]
    rw [unravel_ok he, bind_ok, hf _ _ _ (within_indexAt he)]
    exact bind_congr fun data => ih data fun p hp => hlt p (mem_cons_of_mem e hp)

/-- **One write** changes one place. -/
theorem write_ok (hdata : (mk s data).Full) (hj : s.Within j) (a : α) :
    ∃ data', write data (s.position j) a = .ok data' ∧ (mk s data').Full ∧
      (mk s data').element? j = some a ∧
      ∀ i, i ≠ j → (mk s data').element? i = (mk s data).element? i := by
  have hlt : s.position j < data.size := hdata.symm ▸ hj.position_lt
  refine ⟨data.setIfInBounds (s.position j) a, if_pos hlt, ?_, ?_, fun i hne => ?_⟩
  · exact (Array.size_setIfInBounds ..).trans hdata
  · simp only [element?, if_pos hj, Array.getElem?_setIfInBounds_self_of_lt hlt]
  · by_cases hi : s.Within i
    · have hpos : s.position j ≠ s.position i := fun heq => hne (position_inj hj hi heq).symm
      simp only [element?, if_pos hi, Array.getElem?_setIfInBounds_ne hpos]
    · simp only [element?, if_neg hi]

/-- **Writes to different places** all last, and every other place is as it was. -/
theorem scatter_ok (hdata : (mk s data).Full) (hin : ∀ w ∈ writes, s.Within w.1)
    (hnodup : (writes.map (·.1)).Nodup) :
    ∃ data', scatter s writes data = .ok data' ∧ (mk s data').Full ∧
      (∀ w ∈ writes, (mk s data').element? w.1 = some w.2) ∧
      ∀ j, j ∉ writes.map (·.1) → (mk s data').element? j = (mk s data).element? j := by
  induction writes generalizing data with
  | nil => exact ⟨data, rfl, hdata, fun _ hw => absurd hw not_mem_nil, fun _ _ => rfl⟩
  | cons w writes ih =>
    rw [map_cons, nodup_cons] at hnodup
    obtain ⟨data₁, hwrite, hfull₁, hself, hothers⟩ := write_ok hdata (hin w mem_cons_self) w.2
    obtain ⟨data', hrest, hfull, hwritten, hold⟩ :=
      ih hfull₁ (fun v hv => hin v (mem_cons_of_mem w hv)) hnodup.2
    refine ⟨data', ?_, hfull, fun v hv => ?_, fun j hj => ?_⟩
    · rw [scatter, foldlM_cons, hwrite, bind_ok]
      exact hrest
    · rcases mem_cons.1 hv with rfl | hv
      · rw [hold _ hnodup.1, hself]
      · exact hwritten v hv
    · rw [map_cons, mem_cons, not_or] at hj
      rw [hold j hj.2, hothers j hj.1]

end CanvasFusion.Value
