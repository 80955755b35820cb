import CanvasFusion.Proofs.Eval.Yields

/-!
# Single samples of a value

If an operator treats the entries of an axis one by one, it does to each sample what it does to all
of them together: the sample of the output is the output for the sample.
-/

namespace CanvasFusion

open Operator Shape List Layout WindowFrame

open Value

variable {α : Type} [Scalar α] {b n axis : Nat} {x y y' w : Value α} {i : Index} {s : Shape}

/-- The part of a value at place `n` of an axis. One entry is left on that axis. -/
def Value.sample (b n : Nat) (x : Value α) : Value α :=
  ofFn (x.shape.set b 1) fun index => x.cell (index.set b n)

theorem Value.full_sample : (x.sample b n).Full := full_ofFn _ _

theorem Value.cell_sample (hi : (x.sample b n).shape.Within i) :
    (x.sample b n).cell i = x.cell (i.set b n) := cell_ofFn hi

theorem Value.extent_sample (h : b ≠ axis) :
    (x.sample b n).shape.extent axis = x.shape.extent axis := extent_set_ne h

theorem Shape.within_set (hn : n < s.extent b) (hi : Shape.Within (s.set b 1) i) :
    s.Within (i.set b n) := by
  grind [within_iff, extent_set_self, extent_set_ne]

theorem Shape.within_set_zero (hi : s.Within i) : Shape.Within (s.set b 1) (i.set b 0) := by
  grind [within_iff, extent_set_self, extent_set_ne]

theorem Shape.set_zero_of_within (hi : Shape.Within (s.set b 1) i) : i.set b 0 = i := by
  by_cases hb : b < s.length
  · have hlt := (within_iff.1 hi).2 b (by rwa [length_set])
    rw [extent_set_self hb] at hlt
    exact set_of_extent_eq (Nat.lt_one_iff.1 hlt)
  · rw [set_eq_of_length_le]
    rw [hi.length_eq, length_set]
    exact Nat.le_of_not_lt hb

/-- A sample is determined by its elements. -/
theorem Value.eq_sample (hy' : y'.Full) (hshape : y'.shape = y.shape.set b 1)
    (hcell : ∀ i, y'.shape.Within i → y.shape.Within (i.set b n) → y'.cell i = y.cell (i.set b n))
    (hn : n < y.shape.extent b) : y' = y.sample b n := by
  refine hy'.ext_cell full_sample hshape fun i hi => ?_
  have hi' : Shape.Within (y.shape.set b 1) i := hshape ▸ hi
  rw [cell_sample hi', hcell i hi (within_set hn hi')]

/-! ## Sliding windows -/

theorem WindowFrame.taps_set {f : WindowFrame} {m : Nat} (hb : ∀ d, b ≠ f.layout.spatial.get d) :
    f.taps (s.set b m) i = f.taps s (i.set b n) := by
  grind [taps, extent_set_ne]

theorem Layout.fill_set {l : Layout} {base : Index} {i : Pair Nat}
    (hb : ∀ d, b ≠ l.spatial.get d) : (l.fill base i).set b n = l.fill (base.set b n) i := by
  have h₁ : b ≠ l.spatial.first := hb .first
  have h₂ : b ≠ l.spatial.second := hb .second
  grind [fill, set_comm]

theorem sample_conv {p : Conv2d} {rest : List (Value α)} (hb : p.layout.batch = b)
    (hn : n < y.shape.extent b) (hfull : ∀ v ∈ x :: w :: rest, v.Full)
    (h : (conv2d p).Yields (x :: w :: rest) y)
    (h' : (conv2d p).Yields (x.sample b n :: w :: rest) y')
    (hshape : y'.shape = y.shape.set b 1) : y' = y.sample b n := by
  have hfull' : ∀ v ∈ x.sample b n :: w :: rest, v.Full := by grind [full_sample]
  obtain ⟨-, hy⟩ := yields_conv hfull h
  obtain ⟨hs', hy'⟩ := yields_conv hfull' h'
  have hv := isValid_iff.1 hs'.layout
  have hchannel : b ≠ p.layout.channel := hb ▸ hv.batch_ne_channel
  have hspatial : ∀ d, b ≠ p.layout.spatial.get d := fun d => hb ▸ hv.batch_ne_fuse d
  refine eq_sample (hy' ▸ full_ofFn _ _) hshape (fun i hi hi' => ?_) hn
  rw [hy', hy, cell_ofFn hi, cell_ofFn hi']
  unfold convolved
  rw [extent_set_ne hchannel]
  refine foldl_ext _ _ _ fun acc c hc => ?_
  rw [show (p.frame w.shape).taps (x.sample b n).shape i =
    (p.frame w.shape).taps x.shape (i.set b n) from taps_set hspatial]
  refine windowFold_congr (fun s k₀ hk₀ k₁ hk₁ => windowStep_congr_found (k := ⟨k₀, k₁⟩)
    fun j hj => ?_) acc
  have hin := conv_within (x := x.sample b n) hs' hi (mem_range.1 hc) (i := j) fun d => by
    rw [extent_sample (hspatial d)]
    exact tap_lt (hj d)
  rw [cell_sample hin, fill_set hspatial, set_comm _ _ hchannel.symm]

theorem sample_pool {p : Pool2d} (hb : p.layout.batch = b) (hn : n < y.shape.extent b) (hx : x.Full)
    (h : (pool2d p).Yields [x] y) (h' : (pool2d p).Yields [x.sample b n] y')
    (hshape : y'.shape = y.shape.set b 1) : y' = y.sample b n := by
  obtain ⟨-, hy⟩ := yields_pool hx h
  obtain ⟨hs', hy'⟩ := yields_pool full_sample h'
  have hspatial : ∀ d, b ≠ p.layout.spatial.get d := fun d =>
    hb ▸ (isValid_iff.1 hs'.layout).batch_ne_fuse d
  refine eq_sample (hy' ▸ full_ofFn _ _) hshape (fun i hi hi' => ?_) hn
  rw [hy', hy, cell_ofFn hi, cell_ofFn hi']
  suffices hstate : pooledState p (x.sample b n) i = pooledState p x (i.set b n) by
    rw [pooled, pooled, hstate]
  unfold pooledState
  rw [show p.frame.taps (x.sample b n).shape i = p.frame.taps x.shape (i.set b n) from
    taps_set hspatial]
  refine windowFold_congr (fun s k₀ _ k₁ _ => windowStep_congr_found (k := ⟨k₀, k₁⟩)
    fun j hj => ?_) _
  have hin := pool_within hs' hi (i := j) fun d => by
    rw [extent_sample (hspatial d)]
    exact tap_lt (hj d)
  rw [cell_sample hin, fill_set hspatial]

/-! ## Padding -/

theorem moved_set {offset : List Nat} (hlen : i.length = offset.length) (hb : extent offset b = 0) :
    moved (i.set b n) offset = (moved i offset).set b n := by
  have hlen' : (i.set b n).length = offset.length := by rw [length_set, hlen]
  refine ext_extent ?_ fun k hk => ?_
  · rw [length_moved hlen', length_set, length_set, length_moved hlen]
  · grind [length_moved, extent_moved, extent_set_self, extent_set_ne]

theorem sample_pad {p : ConstantPad} (hfront : p.front[b]? = some 0) (hnx : n < x.shape.extent b)
    (hn : n < y.shape.extent b) (hx : x.Full) (h : (pad p).Yields [x] y)
    (h' : (pad p).Yields [x.sample b n] y') (hshape : y'.shape = y.shape.set b 1) :
    y' = y.sample b n := by
  have hy := yields_pad hx h
  have hy' := yields_pad full_sample h'
  have hzero : extent p.front b = 0 := extent_eq hfront
  have hlen : ∀ {j}, x.shape.Within j → j.length = p.front.length := fun hj =>
    hj.length_eq.trans hy.shape.front_rank.symm
  have hlen' : ∀ {j}, (x.sample b n).shape.Within j → j.length = p.front.length := fun hj =>
    hj.length_eq.trans hy'.shape.front_rank.symm
  refine eq_sample hy'.full hshape (fun i hi hi' => ?_) hn
  by_cases hold : ∃ j, (x.sample b n).shape.Within j ∧ moved j p.front = i
  · obtain ⟨j, hj, rfl⟩ := hold
    rw [hy'.inner j hj, cell_sample hj, ← moved_set (hlen' hj) hzero,
      hy.inner _ (within_set hnx hj)]
  · rw [hy'.outer i hi fun j hj heq => hold ⟨j, hj, heq⟩]
    refine (hy.outer _ hi' fun j hj heq => hold ⟨j.set b 0, ?_, ?_⟩).symm
    · exact within_set_zero hj
    · grind [moved_set, set_set, set_zero_of_within]

/-! ## One and two arguments -/

theorem sample_activation {f : Activation} (hn : n < x.shape.extent b) (hx : x.Full)
    (h : (activation f).Yields [x] y)
    (h' : (activation f).Yields [x.sample b n] y') : y' = y.sample b n := by
  obtain rfl := yields_activation h
  obtain rfl := yields_activation h'
  refine eq_sample (full_map full_sample _) rfl (fun i hi hi' => ?_) hn
  rw [cell_map full_sample _ hi, cell_map hx _ hi', cell_sample hi]

section Binary

variable {a c a' c' : Value α} {out : Shape}

/-- An operand with samples is read at the place of the sample. -/
theorem spreadIndex_set {s : Shape} (hlen : s.length = i.length) (hn : n < s.extent b) :
    (spreadIndex (s.set b 1) i).set b n = spreadIndex s (i.set b n) := by
  have hlen' : (s.set b 1).length = i.length := by rw [length_set, hlen]
  have hlen'' : s.length = (i.set b n).length := by rw [length_set, hlen]
  refine ext_extent ?_ fun k hk => ?_
  · rw [length_set, length_spreadIndex hlen'.le, length_spreadIndex hlen''.le, length_set]
  · rw [length_set, length_spreadIndex hlen'.le, length_set] at hk
    rw [extent_spreadIndex hlen''.le hk, hlen'', Nat.sub_self, Nat.add_zero]
    by_cases hk' : b = k
    · grind [extent_set_self, length_spreadIndex]
    · rw [extent_set_ne hk', extent_spreadIndex hlen'.le (by rwa [length_set]), hlen',
        Nat.sub_self, Nat.add_zero, extent_set_ne hk', extent_set_ne hk']

/-- An operand that spreads over all samples is read at the same place for each. -/
theorem spreadIndex_set_of_one {s : Shape} (hlen : s.length ≤ i.length)
    (hone : extent (aligned i.length s) b = 1) : spreadIndex s (i.set b n) = spreadIndex s i := by
  have hlen' : s.length ≤ (i.set b n).length := by rwa [length_set]
  refine ext_extent ?_ fun k hk => ?_
  · rw [length_spreadIndex hlen', length_spreadIndex hlen]
  · rw [length_spreadIndex hlen'] at hk
    rw [extent_spreadIndex hlen' hk, extent_spreadIndex hlen hk, length_set]
    by_cases hk' : b = k + (i.length - s.length)
    · rw [hk', extent_aligned hk] at hone
      rw [if_pos hone, if_pos hone]
    · rw [extent_set_ne hk']

/-- What an operand of a binary operator is for a single sample. -/
inductive OperandSample (b n rank : Nat) (a : Value α) : Value α → Prop
  | sample (hrank : a.shape.length = rank) (hn : n < a.shape.extent b) :
    OperandSample b n rank a (a.sample b n)
  | fixed (hrank : a.shape.length ≤ rank)
    (hone : extent (aligned rank a.shape) b = 1) : OperandSample b n rank a a

theorem OperandSample.cell_spread (h : OperandSample b n i.length a a') (hs : a'.shape.Spreads out)
    (hi : out.Within i) :
    a'.cell (spreadIndex a'.shape i) = a.cell (spreadIndex a.shape (i.set b n)) := by
  cases h with
  | sample hrank hn =>
    rw [cell_sample (within_spreadIndex hs hi)]
    exact congrArg a.cell (spreadIndex_set hrank hn)
  | fixed hrank hone => rw [spreadIndex_set_of_one hrank hone]

theorem OperandSample.full {rank : Nat} (h : OperandSample b n rank a a') (ha : a.Full) :
    a'.Full := by
  cases h with
  | sample => exact full_sample
  | fixed => exact ha

theorem sample_binary {kind : BinaryKind} (hn : n < y.shape.extent b) (ha : a.Full) (hc : c.Full)
    (ha' : OperandSample b n y.shape.length a a') (hc' : OperandSample b n y.shape.length c c')
    (h : (binary kind).Yields [a, c] y) (h' : (binary kind).Yields [a', c'] y')
    (hshape : y'.shape = y.shape.set b 1) : y' = y.sample b n := by
  obtain ⟨-, hy⟩ := yields_binary ha hc h
  obtain ⟨hs', hy'⟩ := yields_binary (ha'.full ha) (hc'.full hc) h'
  obtain ⟨hsa, hsc⟩ := spreads_of_broadcast hs'
  grind [eq_sample, full_ofFn, length_set, cell_ofFn, Within.length_eq, OperandSample.cell_spread]

end Binary

/-! ## Concatenation -/

theorem inBlock_set {start : Nat} (haxis : b ≠ axis) :
    inBlock axis start (i.set b n) = (inBlock axis start i).set b n := by
  rw [inBlock, inBlock, extent_set_ne haxis, set_comm _ _ haxis]

theorem sample_concat {vs : List (Value α)} (haxis : b ≠ axis) (hn : n < y.shape.extent b)
    (hfull : ∀ v ∈ vs, v.Full) (hvs : ∀ v ∈ vs, n < v.shape.extent b)
    (h : (concat axis).Yields vs y) (h' : (concat axis).Yields (vs.map (sample b n)) y')
    (hshape : y'.shape = y.shape.set b 1) : y' = y.sample b n := by
  have hy := yields_concat hfull h
  have hy' := yields_concat (by
    grind [full_sample]) h'
  refine eq_sample hy'.full hshape (fun i hi _ => ?_) hn
  obtain ⟨k, v', j, hk, hj, rfl⟩ := hy'.exists_source hi
  obtain ⟨v, hv, rfl⟩ := Option.map_eq_some_iff.1 (getElem?_map ▸ hk)
  have hstart : blockStart axis (vs.map (sample b n)) k = blockStart axis vs k := by
    grind [blockStart, map_take, map_congr_left, extent_sample]
  rw [hy'.block k _ hk j hj, cell_sample hj, hstart, ← inBlock_set haxis,
    hy.block k v hv _ (within_set (hvs v (mem_of_getElem? hv)) hj)]

end CanvasFusion
