import CanvasFusion.Proofs.Eval.Roles
import CanvasFusion.Proofs.Eval.Scatter

/-!
# What moving elements does to a value

In plain arithmetic, and on shapes that shape inference has let through, padding, transposing,
slicing and concatenating run through. Each is described by the element it has at each index. The
writes of padding and concatenation go to different places.
-/

namespace CanvasFusion

open AxisMap Shape List

variable {α : Type} {x : Value α} {out s : Shape} {index j i : Index} {offset perm : List Nat}
  {axis k start : Nat} {inputs : List (Value α)}

open Value

/-! ## Offsets -/

/-- An index moved by an offset on every axis. -/
def moved (index : Index) (offset : List Nat) : Index := zipWith (· + ·) index offset

theorem shifted_ok (index : Index) (offset : List Nat) :
    shifted .unbounded index offset = .ok (moved index offset) := by
  unfold shifted
  rw [mapM_ok (g := fun e => e.1 + e.2)]
  swap
  · exact fun _ _ => rfl
  rw [moved, zip, map_zipWith]

theorem extent_moved (hlen : index.length = offset.length) {i : Nat} (hi : i < index.length) :
    extent (moved index offset) i = extent index i + extent offset i := by
  have hi' : i < offset.length := hlen ▸ hi
  refine extent_eq ?_
  rw [moved, getElem?_zipWith, getElem?_extent hi, getElem?_extent hi']

theorem length_moved (hlen : index.length = offset.length) :
    (moved index offset).length = index.length := by
  rw [moved, length_zipWith, ← hlen, min_self]

theorem moved_inj (hi : i.length = offset.length) (hj : j.length = offset.length)
    (h : moved i offset = moved j offset) : i = j := by
  refine ext_extent (hi.trans hj.symm) fun k hk => ?_
  have he := congrArg (extent · k) h
  grind [extent_moved]

/-! ## Padding -/

section Padding

variable {p : ConstantPad} (hx : x.Full) (hshape : Operator.PadShape p x.shape out)

include hshape

theorem Operator.PadShape.length_eq (hi : x.shape.Within i) : i.length = p.front.length :=
  hi.length_eq.trans hshape.front_rank.symm

theorem Operator.PadShape.within_moved (hi : x.shape.Within i) : out.Within (moved i p.front) := by
  have hlen := hshape.length_eq hi
  refine within_iff.2 ⟨?_, fun k hk => ?_⟩
  · rw [length_moved hlen, hi.length_eq, hshape.rank_eq]
  · rw [hshape.rank_eq] at hk
    have hlt := (within_iff.1 hi).2 k hk
    rw [extent_moved hlen (hi.length_eq ▸ hk), hshape.extent_eq k hk]
    omega

include hx

/-- Padding writes the elements of the input behind the front. -/
theorem padWith_eq (value : α) : padWith .unbounded p.front value x out =
    scatter out (x.carried (moved · p.front)) (ofFn out fun _ => value).data := by
  unfold padWith
  rw [filled_ok, bind_ok, strides_ok, bind_ok]
  refine foldIndexed_eq_scatter hx (fun data i a hi => ?_) _
  rw [shifted_ok, bind_ok, ravel_ok (hshape.within_moved hi).length_eq, bind_ok]

theorem Operator.PadShape.nodup_places : ((x.carried (moved · p.front)).map (·.1)).Nodup :=
  nodup_carried hx fun _ _ hi hj => moved_inj (hshape.length_eq hi) (hshape.length_eq hj)

/-- Padding carries the elements of the input to their places and leaves the constant elsewhere. -/
theorem padWith_ok (value : α) :
    ∃ data, padWith .unbounded p.front value x out = .ok data ∧ (mk out data).Full ∧
      (∀ i, x.shape.Within i → (mk out data).element? (moved i p.front) = x.element? i) ∧
      ∀ j, out.Within j → (∀ i, x.shape.Within i → moved i p.front ≠ j) →
        (mk out data).element? j = some value := by
  have hplaces : ∀ j, j ∈ (x.carried (moved · p.front)).map (·.1) ↔
      ∃ i, x.shape.Within i ∧ moved i p.front = j := fun j => mem_places_carried hx
  obtain ⟨data, hdata, hfull, hwritten, hrest⟩ := scatter_ok (full_ofFn out fun _ => value)
    (fun w hw => by
      obtain ⟨i, hi, heq⟩ := (hplaces w.1).1 (mem_map_of_mem hw)
      exact heq ▸ hshape.within_moved hi) (hshape.nodup_places hx)
  refine ⟨data, (padWith_eq hx hshape value).trans hdata, hfull, fun i hi => ?_,
    fun j hj hnot => ?_⟩
  · obtain ⟨a, ha⟩ := hx.exists_element hi
    rw [ha]
    exact hwritten (_, a) ((mem_carried hx).2 ⟨i, ha, rfl⟩)
  · rw [hrest j fun hmem => ?_]
    · exact element?_ofFn (f := fun _ => value) hj
    · obtain ⟨i, hi, heq⟩ := (hplaces j).1 hmem
      exact hnot i hi heq

end Padding

/-! ## Slicing -/

/-- A slice is the value that has the elements of the block. -/
theorem sliceAt_eq {y : Value α} {start : List Nat} (hx : x.Full)
    (h : ∀ i, x.shape.Within i → y.element? (moved i start) = x.element? i) :
    sliceAt .unbounded start y x.shape = .ok x.data := by
  unfold sliceAt
  rw [strides_ok, bind_ok]
  refine tabulate_eq hx fun i a ha => ?_
  rw [shifted_ok, bind_ok]
  exact readAt_of_element? ((h i (within_of_element? ha)).trans ha)

section Cells

variable [Scalar α]

theorem within_moved {start size : Shape} (hshape : Operator.SliceShape start size s)
    (hj : Shape.Within size j) : s.Within (moved j start) := by
  have hlen : j.length = start.length := by rw [hj.length_eq, hshape.size_rank, hshape.start_rank]
  refine within_iff.2 ⟨?_, fun k hk => ?_⟩
  · rw [length_moved hlen, hj.length_eq, hshape.size_rank]
  · have hk' : k < size.length := hshape.size_rank ▸ hk
    have hlt := (within_iff.1 hj).2 k hk'
    have hle := (hshape.within k hk).2
    rw [extent_moved hlen (hj.length_eq ▸ hk')]
    omega

/-- A slice has the elements of the block. -/
theorem sliceAt_ok {start size : List Nat} (hx : x.Full)
    (hshape : Operator.SliceShape start size x.shape) :
    sliceAt .unbounded start x size = .ok (ofFn size fun j => x.cell (moved j start)).data := by
  refine sliceAt_eq (full_ofFn size _) fun i hi => ?_
  rw [hx.element?_eq (within_moved hshape hi)]
  exact (element?_ofFn (s := size) (f := fun j => x.cell (moved j start)) hi).symm

/-! ## Transposing -/

/-- The index of the input that a transposed index comes from. -/
def sourceIndex (perm : List Nat) (index : Index) : Index :=
  (range perm.length).map fun p => extent index (perm.idxOf p)

@[simp] theorem length_sourceIndex :
    (sourceIndex perm index).length = perm.length := by simp [sourceIndex]

theorem extent_sourceIndex {p : Nat} (hp : p < perm.length) :
    extent (sourceIndex perm index) p = extent index (perm.idxOf p) := by
  refine extent_eq ?_
  rw [sourceIndex, getElem?_map, getElem?_range hp]
  rfl

theorem transposedSource_ok (hp : isPermutation perm index.length = true) :
    transposedSource perm index = .ok (sourceIndex perm index) := by
  obtain ⟨hlen, hlt, hnodup⟩ := Operator.isPermutation_iff.1 hp
  have hloop : ∃ source, transposedSource perm index = .ok source ∧
      source.length = perm.length ∧ ∀ j (hj : j < perm.length), j < (perm.zip index).length →
        extent source perm[j] = extent index j := by
    refine foldlM_invariant (fun k (source : Index) => source.length = perm.length ∧
      ∀ j (hj : j < perm.length), j < k → extent source perm[j] = extent index j)
      ⟨by simp, fun j _ hj => absurd hj (Nat.not_lt_zero _)⟩ ?_
    rintro k ⟨p, i⟩ source hk ⟨hsource, hdone⟩
    obtain ⟨hpk, hik⟩ := getElem?_zip_eq_some.1 hk
    obtain ⟨hkp, rfl⟩ := List.getElem?_eq_some_iff.1 hpk
    have hpl : perm[k] < source.length := by grind [getElem_mem]
    refine ⟨source.set perm[k] i, replace_ok hpl i, by rw [length_set, hsource], ?_⟩
    intro j hj hjk
    rw [extent_set hpl]
    split_ifs with heq
    · have hkj : k = j := (List.Nodup.getElem_inj_iff hnodup).1 heq
      subst hkj
      exact (extent_eq hik).symm
    · grind
  obtain ⟨source, hsource, hlength, hall⟩ := hloop
  rw [hsource]
  refine congrArg Except.ok (ext_extent (hlength.trans length_sourceIndex.symm) fun p hpl => ?_)
  grind [mem_of_isPermutation, extent_sourceIndex]

theorem within_sourceIndex (hp : isPermutation perm s.length = true)
    (hj : Shape.Within (perm.map s.extent) j) : s.Within (sourceIndex perm j) := by
  obtain ⟨hlen, hlt, -⟩ := Operator.isPermutation_iff.1 hp
  refine within_iff.2 ⟨by rw [length_sourceIndex, hlen], fun p hps => ?_⟩
  have hpp : p < perm.length := hlen ▸ hps
  have hidx : perm.idxOf p < perm.length :=
    idxOf_lt_length_of_mem (mem_of_isPermutation hp hps)
  have h := (within_iff.1 hj).2 (perm.idxOf p) (by rwa [length_map])
  rw [extent_sourceIndex hpp]
  refine lt_of_lt_of_eq h (extent_eq ?_)
  grind

/-- Each element of a transposed value comes from its source. -/
theorem transpose_ok (hx : x.Full) (hp : isPermutation perm x.shape.length = true) :
    transpose .unbounded perm x (perm.map x.shape.extent) =
      .ok (ofFn (perm.map x.shape.extent) fun j => x.cell (sourceIndex perm j)).data := by
  unfold transpose
  rw [strides_ok, bind_ok]
  refine tabulate_ok fun j hj => ?_
  grind [length_map, Operator.isPermutation_iff, transposedSource_ok, bind_ok, readAt_ok,
    within_sourceIndex, Within.length_eq]

variable {m m' : AxisMap} {n c : Nat} {y : Pair Nat} (hm : m.Valid) (hm' : m'.Valid)
  (hlen : perm.length = 4) (h : m.permuted perm = some m')

include hm hm' hlen h

/-- The roles of the axes move with a transposition. -/
theorem sourceIndex_arrange : sourceIndex perm (m'.arrange n c y) = m.arrange n c y := by
  obtain ⟨hb, hc, hf⟩ := permuted_eq_some.1 h
  have hidx : ∀ {a i : Nat}, perm.idxOf? a = some i → perm.idxOf a = i := fun hi => by
    grind
  refine ext_roles hm (length_sourceIndex.trans hlen) length_arrange ?_ ?_ fun d => ?_
  · rw [extent_sourceIndex (hlen ▸ hm.batch_lt), hidx hb, arrange_batch hm',
      arrange_batch hm]
  · rw [extent_sourceIndex (hlen ▸ hm.channel_lt), hidx hc, arrange_channel hm',
      arrange_channel hm]
  · rw [extent_sourceIndex (hlen ▸ hm.fuse_lt d), hidx (hf d), arrange_fuse hm',
      arrange_fuse hm]

theorem map_extent_arrange : perm.map (extent (m.arrange n c y)) = m'.arrange n c y := by
  obtain ⟨hb, hc, hf⟩ := permuted_eq_some.1 h
  have hget : ∀ {a i : Nat}, perm.idxOf? a = some i →
      extent (perm.map (extent (m.arrange n c y))) i =
        extent (m.arrange n c y) a := fun hi => by
    refine extent_eq ?_
    rw [getElem?_map, getElem?_of_idxOf? hi]
    rfl
  grind [ext_roles, length_map, length_arrange, arrange_batch, arrange_channel, arrange_fuse]

end Cells

/-! ## Concatenating -/

/-- Where the block of an input begins along the axis of a concatenation. -/
def blockStart (axis : Nat) (inputs : List (Value α)) (k : Nat) : Nat :=
  ((inputs.take k).map fun x => x.shape.extent axis).sum

theorem blockStart_cons_succ (k : Nat) :
    blockStart axis (x :: inputs) (k + 1) = x.shape.extent axis + blockStart axis inputs k := by
  simp [blockStart]

theorem blockStart_succ (hk : inputs[k]? = some x) :
    blockStart axis inputs (k + 1) = blockStart axis inputs k + x.shape.extent axis := by
  unfold blockStart
  rw [take_add_one, hk, map_append, sum_append]
  simp

theorem blockStart_mono (axis : Nat) (inputs : List (Value α)) {l : Nat} (h : k ≤ l) :
    blockStart axis inputs k ≤ blockStart axis inputs l := by
  unfold blockStart
  obtain ⟨m, rfl⟩ := Nat.exists_eq_add_of_le h
  grind

theorem blockStart_le (axis : Nat) (inputs : List (Value α)) (k : Nat) :
    blockStart axis inputs k ≤ (inputs.map fun x => x.shape.extent axis).sum := by
  unfold blockStart
  conv => rhs; rw [← take_append_drop k inputs]
  grind

/-- Every place along the axis lies in a block. -/
theorem exists_block {e : Nat} (h : e < (inputs.map fun x => x.shape.extent axis).sum) :
    ∃ k x e', inputs[k]? = some x ∧ e' < x.shape.extent axis ∧
      e = e' + blockStart axis inputs k := by
  induction inputs generalizing e with
  | nil => cases h
  | cons x rest ih =>
    by_cases he : e < x.shape.extent axis
    · exact ⟨0, x, e, rfl, he, rfl⟩
    · rw [map_cons, sum_cons] at h
      obtain ⟨k, z, e', hk, he', heq⟩ := ih (e := e - x.shape.extent axis) (by omega)
      refine ⟨k + 1, z, e', hk, he', ?_⟩
      grind [blockStart]

/-- The index in a concatenation of an element of a block. -/
def inBlock (axis start : Nat) (i : Index) : Index := i.set axis (extent i axis + start)

theorem extent_inBlock {i : Nat} (h : axis < index.length) :
    extent (inBlock axis start index) i = extent index i + if axis = i then start else 0 := by
  rw [inBlock, extent_set h]
  split_ifs with heq
  · rw [heq]
  · rfl

theorem inBlock_inj (hi : axis < i.length)
    (h : inBlock axis start i = inBlock axis start j) : i = j := by
  have hlen : i.length = j.length := by simpa [inBlock] using congrArg length h
  refine ext_extent hlen fun k hk => ?_
  have he := congrArg (extent · k) h
  grind [inBlock, extent_set]

/-- The writes of a concatenation, block by block. The first block begins at `start`. -/
def blockWrites (axis : Nat) : Nat → List (Value α) → List (Index × α)
  | _, [] => []
  | start, x :: rest =>
    x.carried (inBlock axis start) ++ blockWrites axis (start + x.shape.extent axis) rest

/-- Every element is written in the block of its input. -/
theorem mem_blockWrites {a : α} (hfull : ∀ x ∈ inputs, x.Full) :
    (j, a) ∈ blockWrites axis start inputs ↔ ∃ k x i, inputs[k]? = some x ∧ x.element? i = some a ∧
      inBlock axis (start + blockStart axis inputs k) i = j := by
  induction inputs generalizing start with
  | nil => simp [blockWrites]
  | cons x rest ih =>
    rw [forall_mem_cons] at hfull
    rw [blockWrites, mem_append, mem_carried hfull.1, ih hfull.2]
    constructor
    · rintro (⟨i, hi, hj⟩ | ⟨k, y, i, hk, hi, hj⟩)
      · exact ⟨0, x, i, rfl, hi, hj⟩
      · refine ⟨k + 1, y, i, hk, hi, ?_⟩
        rwa [blockStart_cons_succ, ← Nat.add_assoc]
    · rintro ⟨k, y, i, hk, hi, hj⟩
      cases k with
      | zero =>
        cases hk
        exact .inl ⟨i, hi, hj⟩
      | succ k =>
        rw [blockStart_cons_succ, ← Nat.add_assoc] at hj
        exact .inr ⟨k, y, i, hk, hi, hj⟩

theorem mem_blockWrites_of_element {a : α} (hfull : ∀ x ∈ inputs, x.Full)
    (hk : inputs[k]? = some x) (ha : x.element? i = some a) :
    (inBlock axis (blockStart axis inputs k) i, a) ∈ blockWrites axis 0 inputs :=
  (mem_blockWrites hfull).2 ⟨k, x, i, hk, ha, by rw [Nat.zero_add]⟩

/-- Blocks lie one behind the other, so no place is written twice. -/
theorem nodup_blockWrites (start : Nat) (hfull : ∀ x ∈ inputs, x.Full)
    (haxis : ∀ x ∈ inputs, axis < x.shape.length) :
    ((blockWrites axis start inputs).map (·.1)).Nodup := by
  induction inputs generalizing start with
  | nil => exact nodup_nil
  | cons x rest ih =>
    rw [forall_mem_cons] at hfull haxis
    rw [blockWrites, map_append, nodup_append]
    refine ⟨nodup_carried hfull.1 fun i j hi _ => inBlock_inj (hi.length_eq ▸ haxis.1),
      ih _ hfull.2 haxis.2, fun j hj j' hj' heq => ?_⟩
    obtain ⟨i, hi, rfl⟩ := (mem_places_carried hfull.1).1 hj
    obtain ⟨⟨j', a⟩, hmem, rfl⟩ := mem_map.1 hj'
    obtain ⟨k, y, i', hk, hi', rfl⟩ := (mem_blockWrites hfull.2).1 hmem
    have hy := within_of_element? hi'
    have hlt := (within_iff.1 hi).2 axis haxis.1
    have he := congrArg (extent · axis) heq
    simp only [inBlock, extent_set_self (hi.length_eq ▸ haxis.1),
      extent_set_self (hy.length_eq ▸ haxis.2 y (mem_of_getElem? hk))] at he
    omega

section Concatenating

variable (hshape : Operator.ConcatShape axis s (inputs.map (·.shape)) out)

include hshape

theorem Operator.ConcatShape.length_eq (hx : x ∈ inputs) : x.shape.length = out.length := by
  rw [(hshape.agree _ (mem_map_of_mem hx)).1, hshape.shape_eq, length_set]

theorem Operator.ConcatShape.axis_lt_out : axis < out.length := by
  rw [hshape.shape_eq, length_set]
  exact hshape.axis_lt

/-- A block lies within the concatenation. -/
theorem Operator.ConcatShape.block_fits {k i : Nat} (hk : inputs[k]? = some x)
    (hi : i < out.length) :
    x.shape.extent i + (if axis = i then blockStart axis inputs k else 0) ≤ out.extent i := by
  have hmem := mem_of_getElem? hk
  have hagree := (hshape.agree _ (mem_map_of_mem hmem)).2 i (hshape.length_eq hmem ▸ hi)
  rw [hshape.shape_eq, extent_set hshape.axis_lt]
  split_ifs with h
  · subst h
    have hle := blockStart_le axis inputs (k + 1)
    rw [blockStart_succ hk] at hle
    rw [map_map, Nat.add_comm]
    exact hle
  · exact Nat.le_of_eq (hagree.resolve_left (Ne.symm h))

theorem Operator.ConcatShape.within_inBlock {k : Nat} {i : Index} (hk : inputs[k]? = some x)
    (hi : x.shape.Within i) : out.Within (inBlock axis (blockStart axis inputs k) i) := by
  have hlen := hshape.length_eq (mem_of_getElem? hk)
  have hlt : axis < i.length := by rw [hi.length_eq, hlen]; exact hshape.axis_lt_out
  refine within_iff.2 ⟨by rw [inBlock, length_set, hi.length_eq, hlen], fun j hj => ?_⟩
  have hfits := hshape.block_fits hk hj
  have hij := (within_iff.1 hi).2 j (hlen ▸ hj)
  rw [extent_inBlock hlt]
  omega

/-- Every place of a concatenation belongs to an element of an input. -/
theorem Operator.ConcatShape.exists_source (hj : out.Within j) : ∃ k x i, inputs[k]? = some x ∧
    x.shape.Within i ∧ j = inBlock axis (blockStart axis inputs k) i := by
  have haxis : axis < j.length := hj.length_eq ▸ hshape.axis_lt_out
  have hlt := (within_iff.1 hj).2 axis hshape.axis_lt_out
  rw [hshape.shape_eq, extent_set_self hshape.axis_lt, map_map] at hlt
  obtain ⟨k, x, e, hk, he, heq⟩ := exists_block hlt
  have hmem := mem_of_getElem? hk
  have hlen := hshape.length_eq hmem
  refine ⟨k, x, j.set axis e, hk, within_iff.2 ⟨?_, fun i hi => ?_⟩, ?_⟩
  · rw [length_set, hj.length_eq, hlen]
  · rw [extent_set haxis]
    split_ifs with haxis'
    · exact haxis' ▸ he
    · have hlt' := (within_iff.1 hj).2 i (hlen ▸ hi)
      rw [hshape.shape_eq, extent_set_ne haxis'] at hlt'
      have hagree := (hshape.agree _ (mem_map_of_mem hmem)).2 i hi
      grind
  · rw [inBlock, extent_set_self haxis, set_set, ← heq]
    exact (set_of_extent_eq rfl).symm

variable (hfull : ∀ x ∈ inputs, x.Full)

include hfull

/-- Concatenation writes the elements of each input in its block. -/
theorem concatenate_eq (blank : α) :
    concatenate .unbounded axis blank inputs out =
      scatter out (blockWrites axis 0 inputs) (ofFn out fun _ => blank).data := by
  have haxis := hshape.axis_lt_out
  have hlen : ∀ x ∈ inputs, x.shape.length = out.length := fun x hx => hshape.length_eq hx
  unfold concatenate
  rw [filled_ok, bind_ok, strides_ok, bind_ok]
  generalize (ofFn out fun _ => blank).data = data, 0 = start
  clear hshape
  induction inputs generalizing data start with
  | nil => rfl
  | cons x rest ih =>
    rw [forall_mem_cons] at hfull hlen
    have hx : axis < x.shape.length := hlen.1.symm ▸ haxis
    have hplace : placeBlock .unbounded axis start out.steps data x =
        scatter out (x.carried (inBlock axis start)) data := by
      refine foldIndexed_eq_scatter hfull.1 (fun data i a hi => ?_) data
      have hlt : axis < i.length := hi.length_eq ▸ hx
      rw [entry_ok hlt, bind_ok, Limit.add_unbounded, bind_ok, replace_ok hlt, bind_ok,
        ravel_ok (by rw [length_set, hi.length_eq, hlen.1]), bind_ok]
      rfl
    simp only [foldlM_cons, blockWrites, hplace, scatter_append, bind_assoc, entry_ok hx, bind_ok,
      Limit.add_unbounded]
    exact bind_congr fun data => ih hfull.2 hlen.2 data _

/-- Concatenation writes every place. -/
theorem Operator.ConcatShape.mem_places :
    j ∈ (blockWrites axis 0 inputs).map (·.1) ↔ out.Within j := by
  constructor
  · intro hj
    obtain ⟨⟨j, a⟩, hw, rfl⟩ := mem_map.1 hj
    obtain ⟨k, x, i, hk, hi, rfl⟩ := (mem_blockWrites hfull).1 hw
    rw [Nat.zero_add]
    exact hshape.within_inBlock hk (within_of_element? hi)
  · intro hj
    obtain ⟨k, x, i, hk, hi, rfl⟩ := hshape.exists_source hj
    obtain ⟨a, ha⟩ := (hfull x (mem_of_getElem? hk)).exists_element hi
    exact mem_map.2 ⟨_, mem_blockWrites_of_element hfull hk ha, rfl⟩

theorem Operator.ConcatShape.nodup_places : ((blockWrites axis 0 inputs).map (·.1)).Nodup :=
  nodup_blockWrites 0 hfull fun _ hx => (hshape.length_eq hx).symm ▸ hshape.axis_lt_out

/-- A concatenation has the elements of each input in its block. -/
theorem concatenate_ok (blank : α) :
    ∃ data, concatenate .unbounded axis blank inputs out = .ok data ∧ (mk out data).Full ∧
      ∀ k x, inputs[k]? = some x → ∀ i, x.shape.Within i →
        (mk out data).element? (inBlock axis (blockStart axis inputs k) i) = x.element? i := by
  obtain ⟨data, hdata, hfull', hwritten, -⟩ := scatter_ok (full_ofFn out fun _ => blank)
    (fun w hw => (hshape.mem_places hfull).1 (mem_map_of_mem hw)) (hshape.nodup_places hfull)
  refine ⟨data, (concatenate_eq hshape hfull blank).trans hdata, hfull', fun k x hk i hi => ?_⟩
  obtain ⟨a, ha⟩ := (hfull x (mem_of_getElem? hk)).exists_element hi
  rw [ha]
  exact hwritten (_, a) (mem_blockWrites_of_element hfull hk ha)

end Concatenating

end CanvasFusion
