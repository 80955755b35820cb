import CanvasFusion.Proofs.Eval.Arrangement
import CanvasFusion.Proofs.Eval.Limits
import CanvasFusion.Proofs.Operator.Inferred

/-!
# Kernels that write each place once

Concatenation and padding write into a buffer that is filled beforehand. Concatenation writes all of
it, so nothing is left of what it was filled with. Padding writes a box of the shape of its input,
and the fill is the border.

**Theorem (kernels_write_once).** Neither writes a place twice, whatever the rank, the axis and the
extents, zero included. Each place has the element that was carried there, or the fill, and a slice
gives each input back.
-/

namespace CanvasFusion

open List Shape Value

variable {α : Type} {x y : Value α} {out s : Shape} {index j : Index} {axis k n : Nat}
  {inputs : List (Value α)} {p : ConstantPad} {start front : List Nat}

/-! ## Slicing back -/

/-- A slice of `y` gives `x` back. Inference accepts it unless an extent of `x` is zero. -/
structure SlicesBack (start : List Nat) (y x : Value α) : Prop where
  run : sliceAt .unbounded start y x.shape = .ok x.data
  limits : ∀ lim data, sliceAt lim start y x.shape = .ok data → data = x.data
  accepted : (Operator.slice start x.shape).inferShape .unbounded [y.shape] = .ok x.shape ↔
    ∀ n ∈ x.shape, 0 < n

theorem slicesBack (hx : x.Full) (hstart : start.length = y.shape.length)
    (hrank : x.shape.length = y.shape.length)
    (hfits : ∀ i < y.shape.length, extent start i + x.shape.extent i ≤ y.shape.extent i)
    (h : ∀ i, x.shape.Within i → y.element? (moved i start) = x.element? i) :
    SlicesBack start y x where
  run := sliceAt_eq hx h
  limits lim data hdata :=
    Except.ok.inj ((conforms_sliceAt _ _ _ lim data hdata).symm.trans (sliceAt_eq hx h))
  accepted := by
    constructor
    · intro hinfer n hn
      obtain ⟨-, hshape⟩ := Operator.inferSlice_eq_ok hinfer
      obtain ⟨i, hi⟩ := mem_iff_getElem?.1 hn
      have hlt : i < y.shape.length := hrank ▸ (List.getElem?_eq_some_iff.1 hi).1
      rw [← extent_eq hi]
      exact (hshape.within i hlt).1
    · intro hpos
      refine Operator.inferSlice_ok ⟨hstart, hrank, fun i hi => ⟨?_, hfits i hi⟩⟩
      exact hpos _ (mem_of_getElem? (getElem?_extent (hrank ▸ hi)))

/-! ## Writes of a kernel -/

/-- The kernel makes some writes into a buffer that it has filled. No place is written twice, and
the places that are written are those of a region. -/
structure WritesOnce (kernel : α → Except Fault (Array α)) (out : Shape) (region : Index → Prop)
    (writes : List (Index × α)) : Prop where
  run : ∀ fill, kernel fill = filled .unbounded out fill >>= scatter out writes
  nodup : (writes.map (·.1)).Nodup
  places : ∀ j, j ∈ writes.map (·.1) ↔ out.Within j ∧ region j

/-- What a concatenation leaves in its buffer. Each place has the element of the input in whose
block it lies, at the distance from where the block begins. -/
structure Joins (axis : Nat) (inputs : List (Value α)) (out : Shape) (data : Array α) : Prop where
  run : ∀ blank, concatenate .unbounded axis blank inputs out = .ok data
  limits : ∀ lim blank data', concatenate lim axis blank inputs out = .ok data' → data' = data
  size : data.size = out.prod
  writes : WritesOnce (concatenate .unbounded axis · inputs out) out (fun _ => True)
    (blockWrites axis 0 inputs)
  source : ∀ j, out.Within j → ∃! k, ∃ x a, inputs[k]? = some x ∧
    blockStart axis inputs k ≤ extent j axis ∧
    extent j axis < blockStart axis inputs k + x.shape.extent axis ∧
    x.element? (j.set axis (extent j axis - blockStart axis inputs k)) = some a ∧
    (j, a) ∈ blockWrites axis 0 inputs ∧ (mk out data).element? j = some a
  slices : ∀ k x, inputs[k]? = some x →
    SlicesBack ((replicate out.length 0).set axis (blockStart axis inputs k)) ⟨out, data⟩ x

/-- The places behind a front, as far as a shape reaches from there. -/
def InBox (front : List Nat) (s : Shape) (j : Index) : Prop :=
  ∀ i < s.length, extent front i ≤ extent j i ∧ extent j i < extent front i + s.extent i

/-- What padding leaves in its buffer: the input in its box, and the value around it. -/
structure Frames (p : ConstantPad) (value : α) (x : Value α) (out : Shape) (data : Array α) :
    Prop where
  run : padWith .unbounded p.front value x out = .ok data
  limits : ∀ lim data', padWith lim p.front value x out = .ok data' → data' = data
  size : data.size = out.prod
  writes : WritesOnce (padWith .unbounded p.front · x out) out (InBox p.front x.shape)
    (x.carried (moved · p.front))
  inside : ∀ j, out.Within j → InBox p.front x.shape j →
    ∃ i, x.shape.Within i ∧ moved i p.front = j ∧ (mk out data).element? j = x.element? i
  outside : ∀ j, out.Within j → ¬ InBox p.front x.shape j → (mk out data).element? j = some value
  slices : SlicesBack p.front ⟨out, data⟩ x

/-! ## Concatenation -/

/-- Where a block begins, on all axes. -/
theorem extent_origin {i : Nat} (haxis : axis < n) (hi : i < n) :
    extent ((replicate n 0).set axis k) i = if axis = i then k else 0 := by
  rw [extent_set (by rwa [length_replicate])]
  exact if_congr Iff.rfl rfl (extent_eq (getElem?_replicate_of_lt hi))

theorem moved_origin (hn : index.length = n) (haxis : axis < n) :
    moved index ((replicate n 0).set axis k) = inBlock axis k index := by
  subst hn
  have hlen : index.length = ((replicate index.length 0).set axis k).length := by
    rw [length_set, length_replicate]
  refine ext_extent (by rw [length_moved hlen, inBlock, length_set]) fun i hi => ?_
  rw [length_moved hlen] at hi
  rw [extent_moved hlen hi, extent_origin haxis hi, extent_inBlock haxis]

/-- Blocks do not overlap. -/
theorem block_unique {k l e : Nat} {x y : Value α} (hk : inputs[k]? = some x)
    (hl : inputs[l]? = some y)
    (hx : blockStart axis inputs k ≤ e ∧ e < blockStart axis inputs k + x.shape.extent axis)
    (hy : blockStart axis inputs l ≤ e ∧ e < blockStart axis inputs l + y.shape.extent axis) :
    k = l := by
  have hle : ∀ {k l}, e < blockStart axis inputs (k + 1) →
      blockStart axis inputs l ≤ e → l ≤ k := by
    intro k l hend hstart
    by_contra hlt
    have hmono := blockStart_mono axis inputs (Nat.succ_le_of_lt (Nat.lt_of_not_le hlt))
    exact absurd (hmono.trans hstart) (Nat.not_le_of_lt hend)
  rw [← blockStart_succ hk] at hx
  rw [← blockStart_succ hl] at hy
  exact le_antisymm (hle hy.2 hx.1) (hle hx.2 hy.1)

theorem exists_joins (hfull : ∀ x ∈ inputs, x.Full)
    (hshape : Operator.ConcatShape axis s (inputs.map (·.shape)) out) (blank : α) :
    ∃ data, Joins axis inputs out data := by
  obtain ⟨data, hdata, hsize, hblock⟩ := concatenate_ok hshape hfull blank
  have hrun : ∀ blank, concatenate .unbounded axis blank inputs out = .ok data := by
    intro blank'
    obtain ⟨data', hdata', hsize', hblock'⟩ := concatenate_ok hshape hfull blank'
    have hsame : mk out data' = mk out data := hsize'.ext hsize rfl fun j hj => by
      obtain ⟨k, x, i, hk, hi, rfl⟩ := hshape.exists_source hj
      rw [hblock' k x hk i hi, hblock k x hk i hi]
    cases hsame
    exact hdata'
  refine ⟨data, hrun, fun lim blank data' h => ?_, hsize,
    ⟨fun blank => ?_, hshape.nodup_places hfull, fun j => ?_⟩, fun j hj => ?_, fun k x hk => ?_⟩
  · exact Except.ok.inj ((conforms_concatenate _ _ _ _ lim data' h).symm.trans (hrun blank))
  · rw [concatenate_eq hshape hfull, filled_ok, bind_ok]
  · rw [hshape.mem_places hfull, and_true]
  · obtain ⟨k, x, i, hk, hi, rfl⟩ := hshape.exists_source hj
    obtain ⟨a, ha⟩ := (hfull x (mem_of_getElem? hk)).exists_element hi
    have haxis : axis < x.shape.length :=
      (hshape.length_eq (mem_of_getElem? hk)).symm ▸ hshape.axis_lt_out
    have hlt := (within_iff.1 hi).2 axis haxis
    have hat : extent (inBlock axis (blockStart axis inputs k) i) axis =
        extent i axis + blockStart axis inputs k := extent_set_self (hi.length_eq ▸ haxis)
    refine ⟨k, ⟨x, a, hk, ?_, ?_, ?_, mem_blockWrites_of_element hfull hk ha, ?_⟩, ?_⟩
    · omega
    · omega
    · rw [hat, Nat.add_sub_cancel, inBlock, set_set, set_of_extent_eq rfl, ha]
    · rw [hblock k x hk i hi, ha]
    · rintro l ⟨y, -, hl, hstart, hend, -⟩
      exact block_unique hl hk ⟨hstart, hend⟩ ⟨by omega, by omega⟩
  · have hmem := mem_of_getElem? hk
    have hlen := hshape.length_eq hmem
    have haxis := hshape.axis_lt_out
    refine slicesBack (hfull x hmem) (by rw [length_set, length_replicate]) hlen (fun i hi => ?_)
      fun i hi => ?_
    · have hfits := hshape.block_fits hk hi
      rwa [extent_origin haxis hi, Nat.add_comm]
    · rw [moved_origin (hi.length_eq.trans hlen) haxis]
      exact hblock k x hk i hi

/-! ## Padding -/

theorem inBox_iff (hfront : front.length = s.length) (hj : j.length = s.length) :
    InBox front s j ↔ ∃ i, s.Within i ∧ moved i front = j := by
  constructor
  · intro h
    have hlen : (zipWith (· - ·) j front).length = s.length := by
      rw [length_zipWith, hfront, hj, min_self]
    have hextent : ∀ k < s.length, extent (zipWith (· - ·) j front) k =
        extent j k - extent front k := by
      intro k hk
      refine extent_eq ?_
      rw [getElem?_zipWith, getElem?_extent (hj.symm ▸ hk), getElem?_extent (hfront.symm ▸ hk)]
    refine ⟨zipWith (· - ·) j front, within_iff.2 ⟨hlen, fun k hk => ?_⟩, ?_⟩
    · have hk' := h k hk
      rw [hextent k hk]
      omega
    · have hlen' := hlen.trans hfront.symm
      refine ext_extent (by rw [length_moved hlen', hlen, hj]) fun k hk => ?_
      rw [length_moved hlen'] at hk
      have hk' := h k (hlen ▸ hk)
      rw [extent_moved hlen' hk, hextent k (hlen ▸ hk)]
      omega
  · rintro ⟨i, hi, rfl⟩ k hk
    have hlt := (within_iff.1 hi).2 k hk
    rw [extent_moved (hi.length_eq.trans hfront.symm) (hi.length_eq.symm ▸ hk)]
    omega

theorem exists_frames (hx : x.Full) (hshape : Operator.PadShape p x.shape out) (value : α) :
    ∃ data, Frames p value x out data := by
  obtain ⟨data, hdata, hsize, hinner, houter⟩ := padWith_ok hx hshape value
  have hbox : ∀ j, out.Within j →
      (InBox p.front x.shape j ↔ ∃ i, x.shape.Within i ∧ moved i p.front = j) := fun j hj =>
    inBox_iff hshape.front_rank (hj.length_eq.trans hshape.rank_eq)
  refine ⟨data, hdata, fun lim data' h => ?_, hsize,
    ⟨fun fill => ?_, hshape.nodup_places hx, fun j => ?_⟩,
    fun j hj hin => ?_, fun j hj hnot => ?_, ?_⟩
  · exact Except.ok.inj ((conforms_padWith _ _ _ _ lim data' h).symm.trans hdata)
  · rw [padWith_eq hx hshape, filled_ok, bind_ok]
  · rw [mem_places_carried hx]
    constructor
    · rintro ⟨i, hi, rfl⟩
      exact ⟨hshape.within_moved hi, (hbox _ (hshape.within_moved hi)).2 ⟨i, hi, rfl⟩⟩
    · exact fun h => (hbox j h.1).1 h.2
  · obtain ⟨i, hi, rfl⟩ := (hbox j hj).1 hin
    exact ⟨i, hi, rfl, hinner i hi⟩
  · exact houter j hj fun i hi heq => hnot ((hbox j hj).2 ⟨i, hi, heq⟩)
  · refine slicesBack hx (hshape.front_rank.trans hshape.rank_eq.symm)
      hshape.rank_eq.symm (fun i hi => ?_) hinner
    have hextent := hshape.extent_eq i (hshape.rank_eq ▸ hi)
    show extent p.front i + x.shape.extent i ≤ out.extent i
    omega

/-- **Concatenation and padding write each place once**, for elements of any type and on shapes that
inference accepts at any limit. -/
theorem kernels_write_once {α : Type} (lim : Limit) (fill : α) :
    (∀ axis (inputs : List (Value α)) out, (∀ x ∈ inputs, x.Full) →
      (Operator.concat axis).inferShape lim (inputs.map (·.shape)) = .ok out →
      ∃ data, Joins axis inputs out data) ∧
    ∀ p (x : Value α) out, x.Full → (Operator.pad p).inferShape lim [x.shape] = .ok out →
      ∃ data, Frames p fill x out data := by
  refine ⟨fun axis inputs out hfull hinfer => ?_, fun p x out hx hinfer => ?_⟩
  · obtain ⟨s, rest, hshapes, hshape⟩ :=
      Operator.inferShape_concat (Operator.inferShape_unbounded hinfer)
    rw [← hshapes] at hshape
    exact exists_joins hfull hshape fill
  · exact exists_frames hx (Operator.inferPad_eq_ok (Operator.inferShape_unbounded hinfer)) fill

/-- Three blocks, the one in the middle empty, and a matrix with a border on two sides. -/
theorem kernels_write_once_emptyBlock :
    let inputs : List (Value Nat) := [⟨[2, 1], #[1, 2]⟩, ⟨[2, 0], #[]⟩, ⟨[2, 2], #[3, 4, 5, 6]⟩]
    let x : Value Nat := ⟨[1, 2], #[7, 8]⟩
    let p : ConstantPad := ⟨[1, 0], [0, 1], .zero⟩
    (Operator.concat 1).inferShape .word64 (inputs.map (·.shape)) = .ok [2, 3] ∧
      Joins 1 inputs [2, 3] #[1, 3, 4, 2, 5, 6] ∧
      (Operator.pad p).inferShape .word64 [x.shape] = .ok [2, 3] ∧
      Frames p 9 x [2, 3] #[9, 9, 9, 7, 8, 9] := by
  intro inputs x p
  have hconcat : (Operator.concat 1).inferShape .word64 (inputs.map (·.shape)) =
      .ok [2, 3] := by decide
  have hpad : (Operator.pad p).inferShape .word64 [x.shape] = .ok [2, 3] := by decide
  have hfull : ∀ x ∈ inputs, x.Full := by
    simp only [inputs, forall_mem_cons]
    exact ⟨rfl, rfl, rfl, nofun⟩
  obtain ⟨data, hjoins⟩ := (kernels_write_once .word64 9).1 1 inputs [2, 3] hfull hconcat
  obtain ⟨data', hframes⟩ := (kernels_write_once .word64 9).2 p x [2, 3] rfl hpad
  have hdata := hjoins.limits .word64 0 #[1, 3, 4, 2, 5, 6] (by decide +kernel)
  have hdata' := hframes.limits .word64 #[9, 9, 9, 7, 8, 9] (by decide +kernel)
  exact ⟨hconcat, hdata ▸ hjoins, hpad, hdata' ▸ hframes⟩

end CanvasFusion
