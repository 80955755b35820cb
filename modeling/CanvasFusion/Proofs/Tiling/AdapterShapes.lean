import CanvasFusion.Fusion.Adapter
import CanvasFusion.Proofs.Eval.Arrangement
import CanvasFusion.Proofs.Graph.Runnable
import CanvasFusion.Proofs.Operator.Inferred
import CanvasFusion.Proofs.Tiling.Canvas

/-!
# Shapes of adapters

The operators that tile a batch onto a canvas (`Canvas.tiling`), the blocks that de-fusing slices
out of it (`Canvas.origin`), and the mask that has ones on its tiles (`Canvas.mask`), with the shape
that each of their operators gives.
-/

namespace CanvasFusion

open Operator Shape Size Pair AxisMap Limit

/-! ## Axes -/

namespace AxisMap

variable {m : AxisMap} {n c N C : Nat} {y S : Pair Nat}

theorem arrange_const (m : AxisMap) (n : Nat) : m.arrange n n (.both n) = [n, n, n, n] := by
  have hcoord : m.coordinate n n (.both n) = fun _ => n := by
    funext axis
    unfold coordinate
    split_ifs <;> rfl
  rw [arrange, hcoord]
  rfl

/-- The permutation that brings the axes back from the canonical order. -/
def restoring (m : AxisMap) : List Nat := m.arrange 0 1 ⟨2, 3⟩

theorem idxOf?_of_getElem? {l : List Nat} (hl : l.Nodup) {a i : Nat} (h : l[i]? = some a) :
    l.idxOf? a = some i := by
  grind [List.idxOf?_eq_some_iff, List.Nodup.getElem_inj_iff]

variable (hm : m.Valid)

include hm

theorem replace_batch (k : Nat) : replace (m.arrange n c y) m.batch k = .ok (m.arrange k c y) := by
  rw [replace_ok (by rw [length_arrange]; exact hm.batch_lt), set_batch hm]

theorem replace_channel (k : Nat) :
    replace (m.arrange n c y) m.channel k = .ok (m.arrange n k y) := by
  rw [replace_ok (by rw [length_arrange]; exact hm.channel_lt), set_channel hm]

theorem replace_fuse (d : Dim) (k : Nat) :
    replace (m.arrange n c y) (m.fuse.get d) k = .ok (m.arrange n c (y.set d k)) := by
  rw [replace_ok (by rw [length_arrange]; exact hm.fuse_lt d), set_fuse hm]

/-- Both entries along the canvas replaced, one after the other. -/
theorem foldlM_replace (f : Dim → Nat) :
    Dim.all.foldlM (fun s d => replace s (m.fuse.get d) (f d)) (m.arrange n c y) =
      .ok (m.arrange n c (.ofFn f)) := by
  rw [Dim.all, List.foldlM_cons, replace_fuse hm, bind_ok, List.foldlM_cons,
    replace_fuse hm, bind_ok, List.foldlM_nil]
  refine congrArg (fun y => Except.ok (m.arrange n c y)) (ext_get fun d => ?_)
  cases d <;> rfl

theorem sampleExtent_ok : m.sampleExtent (m.arrange N C S) = .ok S := by
  refine ofFnM_eq_ok.2 fun d => ?_
  rw [entry_ok (by rw [length_arrange]; exact hm.fuse_lt d), arrange_fuse hm]

theorem fromCanonicalPerm_ok : m.fromCanonicalPerm = .ok m.restoring := by
  rw [fromCanonicalPerm, canonicalPerm, ← arrange_const m 0]
  simp only [List.zipIdx_cons, List.zipIdx_nil, List.foldlM_cons, List.foldlM_nil, replace_batch hm,
    replace_channel hm, bind_ok]
  rw [← get_first m.fuse, replace_fuse hm, bind_ok, ← get_second m.fuse, replace_fuse hm,
    bind_ok]
  rfl

theorem isPermutation_canonicalPerm : isPermutation m.canonicalPerm 4 = true :=
  isPermutation_iff.2 ⟨rfl, hm.lt, hm.nodup⟩

/-- Bringing the axes into canonical order gives them the canonical roles. -/
theorem permuted_canonicalPerm : m.permuted m.canonicalPerm = some nchw := by
  have hbc := hm.batch_ne_channel
  have hb₁ : m.batch ≠ m.fuse.first := hm.batch_ne_fuse .first
  have hb₂ : m.batch ≠ m.fuse.second := hm.batch_ne_fuse .second
  have hc₁ : m.channel ≠ m.fuse.first := hm.channel_ne_fuse .first
  have hc₂ : m.channel ≠ m.fuse.second := hm.channel_ne_fuse .second
  have hf := hm.fuse_ne
  simp [permuted, canonicalPerm, nchw, List.idxOf?_cons, hbc, hb₁, hb₂, hc₁, hc₂, hf]

/-- The entries of the permutation back, by the role of the axis. -/
theorem restoring_cases {axis : Nat} (h : axis < 4) :
    axis = m.batch ∧ extent m.restoring axis = 0 ∨
      axis = m.channel ∧ extent m.restoring axis = 1 ∨
      axis = m.fuse.first ∧ extent m.restoring axis = 2 ∨
      axis = m.fuse.second ∧ extent m.restoring axis = 3 := by
  rcases hm.axis_cases h with rfl | rfl | ⟨d, rfl⟩
  · exact .inl ⟨rfl, arrange_batch hm⟩
  · exact .inr (.inl ⟨rfl, arrange_channel hm⟩)
  · cases d with
    | first => exact .inr (.inr (.inl ⟨rfl, arrange_fuse hm .first⟩))
    | second => exact .inr (.inr (.inr ⟨rfl, arrange_fuse hm .second⟩))

theorem isPermutation_restoring : isPermutation m.restoring 4 = true := by
  refine isPermutation_iff.2 ⟨length_arrange, fun a ha => ?_, ?_⟩
  · obtain ⟨axis, haxis, rfl⟩ := List.mem_iff_getElem.1 ha
    have hlt : axis < 4 := Nat.lt_of_lt_of_eq haxis length_arrange
    have hcases := restoring_cases hm hlt
    rw [extent_eq (List.getElem?_eq_getElem haxis)] at hcases
    omega
  · refine List.nodup_iff_injective_get.2 fun i j hij => Fin.ext ?_
    have hi : i.val < 4 := Nat.lt_of_lt_of_eq i.isLt length_arrange
    have hj : j.val < 4 := Nat.lt_of_lt_of_eq j.isLt length_arrange
    have hcases := restoring_cases hm hi
    have hcases' := restoring_cases hm hj
    rw [extent_eq (List.getElem?_eq_getElem i.isLt)] at hcases
    rw [extent_eq (List.getElem?_eq_getElem j.isLt)] at hcases'
    rw [List.get_eq_getElem, List.get_eq_getElem] at hij
    omega

/-- Bringing the axes back gives them their roles. -/
theorem permuted_restoring : nchw.permuted m.restoring = some m := by
  have hnodup := (isPermutation_iff.1 (isPermutation_restoring hm)).2.2
  have hget : ∀ {axis a}, axis < 4 → extent m.restoring axis = a →
      m.restoring.idxOf? a = some axis := by
    intro axis a haxis ha
    refine idxOf?_of_getElem? hnodup ?_
    rw [← ha]
    exact getElem?_extent (Nat.lt_of_lt_of_eq haxis length_arrange.symm)
  refine permuted_eq_some.2 ⟨hget hm.batch_lt (arrange_batch hm),
    hget hm.channel_lt (arrange_channel hm), fun d => ?_⟩
  refine hget (hm.fuse_lt d) ((arrange_fuse hm d).trans ?_)
  cases d <;> rfl

end AxisMap

/-- A slice gives its size, if it fits. -/
theorem Operator.gives_slice {P : Prop} {start size x : Shape} (hP : P → SliceShape start size x) :
    Gives P (inferShape .unbounded (.slice start size) [x]) size where
  eq {b} hb := by
    have hb' : inferSlice .unbounded start size x = .ok b := hb
    exact (inferSlice_eq_ok hb').1
  ok hp := inferSlice_ok (hP hp)

/-! ## Tiling -/

/-- A transposition, unless nothing would move. -/
def transposing (perm : List Nat) : List Operator :=
  if isIdentity perm then [] else [.transpose perm]

namespace Canvas

variable {K : Canvas} {m m' : AxisMap} {N C pos : Nat} {g : Grid} {lim : Limit}

/-- The extents of a tile with its gap. -/
def pitches (K : Canvas) : Pair Nat := .ofFn K.pitch

/-- Padding every sample with its gap at the end. -/
def gapPad (K : Canvas) (m : AxisMap) : ConstantPad :=
  ⟨[0, 0, 0, 0], m.arrange 0 0 K.gap, .zero⟩

/-- Samples on the grid: the second dimension first, since the first one varies fastest. -/
def gridShape (K : Canvas) (C : Nat) : Shape :=
  [K.tiles.second, K.tiles.first, C, K.pitch .first, K.pitch .second]

/-- The grid with each of its dimensions next to the one of the tiles. -/
def wovenShape (K : Canvas) (C : Nat) : Shape :=
  [C, K.tiles.first, K.pitch .first, K.tiles.second, K.pitch .second]

/-- The canvas with a gap behind its last tiles. -/
def fullShape (K : Canvas) (C : Nat) : Shape :=
  [1, C, K.tiles.first * K.pitch .first, K.tiles.second * K.pitch .second]

/-- The operators that tile a batch onto the canvas. -/
def tiling (K : Canvas) (m : AxisMap) (C : Nat) : List Operator :=
  (if K.gap = .both 0 then [] else [.pad (K.gapPad m)]) ++ transposing m.canonicalPerm ++
    [.reshape (K.gridShape C), .transpose [2, 1, 3, 0, 4], .reshape (K.fullShape C)] ++
    (if K.gap = .both 0 then [] else [.slice [0, 0, 0, 0] (nchw.arrange 1 C K.size)]) ++
    transposing m.restoring

theorem gapPad_shape (hm : m.Valid) : Operator.PadShape (K.gapPad m) (m.arrange N C K.extent)
    (m.arrange N C K.pitches) := by
  refine ⟨by rw [length_arrange]; rfl,
    by rw [length_arrange]; exact length_arrange,
    by rw [length_arrange, length_arrange], fun i hi => ?_⟩
  rw [length_arrange] at hi
  have hfront : Shape.extent (K.gapPad m).front i = 0 := by
    show Shape.extent [0, 0, 0, 0] i = 0
    interval_cases i <;> rfl
  rw [hfront, Nat.add_zero]
  show _ = _ + Shape.extent (m.arrange 0 0 K.gap) i
  grind [arrange_batch, arrange_channel, arrange_fuse, pitches, pitch, Valid.axis_cases, ofFn_get]

theorem inferShape_gapPad (hm : m.Valid) : inferShape .unbounded (.pad (K.gapPad m))
    [m.arrange N C K.extent] = .ok (m.arrange N C K.pitches) :=
  inferPad_ok (gapPad_shape hm)

theorem inferShape_permuted {perm : List Nat} (hm : m.Valid) (hm' : m'.Valid)
    (hperm : isPermutation perm 4 = true) (h : m.permuted perm = some m') (S : Pair Nat) :
    inferShape .unbounded (.transpose perm) [m.arrange N C S] = .ok (m'.arrange N C S) := by
  have hlen : isPermutation perm (m.arrange N C S).length = true := by rwa [length_arrange]
  refine (inferTranspose_ok hlen).trans (congrArg _ ?_)
  exact map_extent_arrange hm hm' (isPermutation_iff.1 hperm).1 h

theorem inferShape_canonicalPerm (hm : m.Valid) (S : Pair Nat) :
    inferShape .unbounded (.transpose m.canonicalPerm) [m.arrange N C S] =
      .ok (nchw.arrange N C S) :=
  inferShape_permuted hm valid_nchw (isPermutation_canonicalPerm hm) (permuted_canonicalPerm hm) S

theorem inferShape_restoring (hm : m.Valid) (S : Pair Nat) :
    inferShape .unbounded (.transpose m.restoring) [nchw.arrange N C S] =
      .ok (m.arrange N C S) :=
  inferShape_permuted valid_nchw hm (isPermutation_restoring hm) (permuted_restoring hm) S

theorem inferShape_grid : inferShape .unbounded (.reshape (K.gridShape C))
    [AxisMap.nchw.arrange K.count C K.pitches] = .ok (K.gridShape C) := by
  refine inferReshape_ok ?_
  simp only [arrange_nchw, gridShape, count, pitches, ofFn, List.prod_cons, List.prod_nil]
  ring

theorem inferShape_woven : inferShape .unbounded (.transpose [2, 1, 3, 0, 4])
    [K.gridShape C] = .ok (K.wovenShape C) := rfl

theorem inferShape_full : inferShape .unbounded (.reshape (K.fullShape C))
    [K.wovenShape C] = .ok (K.fullShape C) := by
  refine inferReshape_ok ?_
  simp only [fullShape, wovenShape, List.prod_cons, List.prod_nil]
  ring

theorem pitches_of_gapless (h : K.gap = .both 0) : K.pitches = K.extent :=
  ext_get fun d => by rw [pitches, ofFn_get, pitch, h, both_get, Nat.add_zero]

/-- Without gaps there is nothing to drop at the end. -/
theorem fullShape_of_gapless (h : K.gap = .both 0) : K.fullShape C = nchw.arrange 1 C K.size := by
  have hlen : ∀ d, K.tiles.get d * K.pitch d = K.length d := fun d => by
    rw [length, pitch, h, both_get, Nat.add_zero, Nat.mul_zero, Nat.add_zero]
  rw [fullShape, arrange_nchw]
  simp only [size, ofFn, ← hlen]
  rfl

/-- The slice that drops the gap at the end fits, if anything is left. -/
theorem Tiled.trimShape (hK : K.Tiled) (hC : 0 < C) (hextent : ∀ d, 0 < K.extent.get d) :
    Operator.SliceShape [0, 0, 0, 0] (AxisMap.nchw.arrange 1 C K.size) (K.fullShape C) := by
  have hlen : ∀ d, 0 < K.length d := fun d => by
    have := hK.length_eq d
    have := hextent d
    omega
  refine ⟨rfl, rfl, fun i hi => ?_⟩
  have h₁ := hK.length_le .first
  have h₂ := hK.length_le .second
  have hl₁ := hlen .first
  have hl₂ := hlen .second
  change i < 4 at hi
  interval_cases i
  · exact ⟨Nat.zero_lt_one, Nat.le_refl _⟩
  · exact ⟨hC, Nat.le_of_eq (Nat.zero_add _)⟩
  · exact ⟨hl₁, (Nat.zero_add _).trans_le h₁⟩
  · exact ⟨hl₂, (Nat.zero_add _).trans_le h₂⟩

/-! ## De-fusing -/

/-- The index where the tile of a sample begins. -/
def origin (K : Canvas) (m : AxisMap) (n : Nat) : Index :=
  m.arrange 0 0 (K.place (K.spot n) (.both 0))

/-- The extents of one sample. -/
def block (K : Canvas) (m : AxisMap) (C : Nat) : Shape := m.arrange 1 C K.extent

theorem tileOrigin_of_steps {gap : Pair Nat} (hK : K.Tiled) (htiles : K.tiles = g.tiles)
    (n : Nat) (h : ∀ d, (K.spot n).get d * (K.extent.get d + gap.get d) =
      (K.spot n).get d * K.pitch d) :
    g.tileOrigin .unbounded n K.extent gap = .ok (K.place (K.spot n) (.both 0)) := by
  have hpos : g.tiles.first ≠ 0 := by
    rw [← htiles]
    exact Nat.ne_of_gt (hK.tiles_pos .first)
  have hposition : g.position n = .ok (K.spot n) := by
    simp only [Grid.position, mod, div, hpos, if_false, bind_ok, spot, htiles]
    rfl
  rw [Grid.tileOrigin, hposition, bind_ok]
  refine ofFnM_eq_ok.2 fun d => ?_
  rw [add_unbounded, bind_ok, mul_unbounded, place_get, both_get, Nat.add_zero, h]

theorem tileOrigin_ok (hK : K.Tiled) (htiles : K.tiles = g.tiles) (n : Nat) :
    g.tileOrigin .unbounded n K.extent K.gap = .ok (K.place (K.spot n) (.both 0)) :=
  tileOrigin_of_steps hK htiles n fun _ => rfl

/-- The place of a tile at any limit. -/
theorem gives_tileOrigin {P : Prop} (hK : K.Tiled) (htiles : K.tiles = g.tiles)
    (n : Nat) (hlim : P → lim = .unbounded) :
    Gives P (g.tileOrigin lim n K.extent K.gap) (K.place (K.spot n) (.both 0)) := by
  have hconforms : Conforms fun lim => g.tileOrigin lim n K.extent K.gap :=
    .bind (.const _) fun place => (HasPeak.ofFnM fun d => .bind (hasPeak_add _ _) fun step =>
      hasPeak_mul _ _).conforms
  exact .of_conforms hconforms (.of_ok (tileOrigin_ok hK htiles n)) hlim

theorem Tiled.blockShape (hK : K.Tiled) (hm : m.Valid) {n : Nat} (hn : n < K.count) (hC : 0 < C)
    (hextent : ∀ d, 0 < K.extent.get d) :
    Operator.SliceShape (K.origin m n) (K.block m C) (m.arrange 1 C K.size) := by
  refine ⟨by rw [origin, length_arrange, length_arrange],
    by rw [block, length_arrange, length_arrange], fun i hi => ?_⟩
  rw [length_arrange] at hi
  rcases hm.axis_cases hi with rfl | rfl | ⟨d, rfl⟩
  · simp [origin, block, arrange_batch hm]
  · simpa [origin, block, arrange_channel hm] using hC
  · have hlt := hK.place_lt (y := .ofFn fun d => K.extent.get d - 1) (hK.spot_lt hn d)
      (by rw [ofFn_get]; exact Nat.sub_lt (hextent d) Nat.zero_lt_one)
    grind [place_get, ofFn_get, origin, block, arrange_fuse, both_get, size_get]

theorem Tiled.count_pos (hK : K.Tiled) : 0 < K.count :=
  Nat.mul_pos (hK.tiles_pos .first) (hK.tiles_pos .second)

/-- The tiles of a canvas make up a batch. -/
theorem concatShape_blocks (hm : m.Valid) :
    Operator.ConcatShape m.batch (K.block m C) (List.replicate N (K.block m C))
      (m.arrange N C K.extent) := by
  refine ⟨by rw [block, length_arrange]; exact hm.batch_lt, fun y hy => ?_, ?_⟩
  · grind
  · rw [List.map_replicate, List.sum_replicate, block, arrange_batch hm, set_batch hm,
      smul_eq_mul, Nat.mul_one]

theorem inferShape_blocks (hm : m.Valid) (hN : 0 < N) : inferShape .unbounded
    (.concat m.batch) (List.replicate N (K.block m C)) = .ok (m.arrange N C K.extent) := by
  have hshape := concatShape_blocks (K := K) (C := C) (N := N) hm
  obtain ⟨k, rfl⟩ := Nat.exists_eq_succ_of_ne_zero (Nat.ne_of_gt hN)
  rw [List.replicate_succ] at hshape ⊢
  exact inferConcat_ok hshape

/-! ## Masking -/

/-- Whether a position along a dimension lies in a tile. -/
def isTile (K : Canvas) (d : Dim) (pos : Nat) : Bool := pos % K.pitch d < K.extent.get d

/-- The dimension of the canvas along the earlier axis. -/
def outer (m : AxisMap) : Dim := if m.fuse.first < m.fuse.second then .first else .second

/-- The dimension of the canvas along the later axis. -/
def inner (m : AxisMap) : Dim := if m.fuse.first < m.fuse.second then .second else .first

/-- The values of the mask: one on tiles and zero on gaps. -/
def mask (K : Canvas) (m : AxisMap) : List Single :=
  (List.range (K.length (outer m))).flatMap fun a => (List.range (K.length (inner m))).map fun b =>
    if K.isTile (outer m) a && K.isTile (inner m) b then .one else .zero

theorem length_mask (K : Canvas) (m : AxisMap) :
    (K.mask m).length = K.length (outer m) * K.length (inner m) := by
  simp [mask]

theorem pitch_pos_of_lt (hK : K.Tiled) {d : Dim} (h : pos < K.length d) : 0 < K.pitch d := by
  have hle := hK.length_le d
  exact Nat.pos_of_mul_pos_left (Nat.lt_of_lt_of_le (Nat.zero_lt_of_lt h) hle)

/-- What a mask asks about a position along a dimension. -/
def inside (lim : Limit) (extent gap : Pair Nat) (d : Dim) (pos : Nat) : Except Fault Bool := do
  let step ← lim.add (extent.get d) (gap.get d)
  let rest ← mod pos step
  pure (decide (rest < extent.get d))

theorem inside_ok (hK : K.Tiled) {d : Dim} (hpos : pos < K.length d) :
    inside .unbounded K.extent K.gap d pos = .ok (K.isTile d pos) := by
  have hne : K.extent.get d + K.gap.get d ≠ 0 := Nat.ne_of_gt (pitch_pos_of_lt hK hpos)
  simp only [inside, add_unbounded, bind_ok, mod, hne, if_false]
  rfl

theorem tileMask_ok (hK : K.Tiled) (hm : m.Valid) :
    tileMask .unbounded (m.arrange 1 C K.size) m K.extent K.gap = .ok (K.mask m) := by
  have hentry : ∀ d, entry (m.arrange 1 C K.size) (m.fuse.get d) = .ok (K.length d) := by
    grind [entry_ok, length_arrange, arrange_fuse, size_get, Valid.fuse_lt]
  have hdims : (if m.fuse.first < m.fuse.second then (Dim.first, Dim.second)
      else (Dim.second, Dim.first)) = (outer m, inner m) := by
    unfold outer inner
    split_ifs <;> rfl
  have hcells : ((List.range (K.length (outer m))).mapM fun a =>
      (List.range (K.length (inner m))).mapM fun b => (do
        if !(← inside .unbounded K.extent K.gap (outer m) a) then pure Single.zero
        else if ← inside .unbounded K.extent K.gap (inner m) b then pure Single.one
        else pure Single.zero)) =
      (.ok ((List.range (K.length (outer m))).map fun a =>
        (List.range (K.length (inner m))).map fun b =>
        if K.isTile (outer m) a && K.isTile (inner m) b then .one else .zero) :
          Except Fault (List (List Single))) := by
    refine mapM_ok fun a ha => mapM_ok fun b hb => ?_
    rw [inside_ok hK (List.mem_range.1 ha), inside_ok hK (List.mem_range.1 hb)]
    cases K.isTile (outer m) a <;> cases K.isTile (inner m) b <;> rfl
  unfold tileMask
  rw [hdims]
  simp only [hentry, bind_ok, mul_unbounded, room_unbounded]
  refine bind_eq_ok.2 ⟨_, hcells, ?_⟩
  rw [mask, List.flatMap_def]
  rfl

theorem conforms_tileMask (canvas : Shape) (m : AxisMap) (extent gap : Pair Nat) :
    Conforms fun lim => tileMask lim canvas m extent gap := by
  have hinside : ∀ d pos, Conforms fun lim => inside lim extent gap d pos := fun d pos =>
    .bind (hasPeak_add _ _).conforms fun step => .const _
  unfold tileMask
  split
  refine .bind (.const _) fun rows => .bind (.const _) fun columns => ?_
  refine .bind (hasPeak_mul _ _).conforms fun cells => .bind (conforms_room _ _) fun _ => ?_
  refine .bind (.mapM (fun a => .mapM (fun b => ?_) _) _) fun _ => .const _
  refine .bind (hinside _ a) fun inside => .ite (.const _) ?_
  exact .bind (hinside _ b) fun inside => .const _

/-- The mask at any limit. -/
theorem gives_tileMask {P : Prop} (hK : K.Tiled) (hm : m.Valid) (hlim : P → lim = .unbounded) :
    Gives P (tileMask lim (m.arrange 1 C K.size) m K.extent K.gap) (K.mask m) :=
  .of_conforms (conforms_tileMask _ _ _ _) (.of_ok (tileMask_ok hK hm)) hlim

/-! ### The shape of a mask -/

theorem outer_lt_inner (hm : m.Valid) : m.fuse.get (outer m) < m.fuse.get (inner m) := by
  unfold outer inner
  by_cases hlt : m.fuse.first < m.fuse.second
  · rw [if_pos hlt, if_pos hlt]
    exact hlt
  · rw [if_neg hlt, if_neg hlt]
    exact Nat.lt_of_le_of_ne (Nat.le_of_not_lt hlt) hm.fuse_ne.symm

theorem eq_outer_or_inner (m : AxisMap) (d : Dim) : d = outer m ∨ d = inner m := by
  unfold outer inner
  by_cases hlt : m.fuse.first < m.fuse.second <;> cases d <;> simp [hlt]

/-- Numbers of a kind everywhere but along the canvas, by the order of its two axes. -/
theorem arrange_plane (hm : m.Valid) (n : Nat) (S : Pair Nat) : m.arrange n n S =
    (List.range 4).map fun axis =>
      if axis = m.fuse.get (outer m) then S.get (outer m)
      else if axis = m.fuse.get (inner m) then S.get (inner m) else n := by
  have hget : ∀ {axis}, axis < 4 → ∀ f : Nat → Nat, Shape.extent ((List.range 4).map f) axis =
      f axis := by
    intro axis haxis f
    exact extent_eq (by rw [List.getElem?_map, List.getElem?_range haxis]; rfl)
  have hne := Nat.ne_of_gt (outer_lt_inner hm)
  refine ext_roles hm length_arrange (by simp) ?_ ?_ fun d => ?_
  · rw [arrange_batch hm, hget hm.batch_lt, if_neg (hm.batch_ne_fuse _),
      if_neg (hm.batch_ne_fuse _)]
  · rw [arrange_channel hm, hget hm.channel_lt, if_neg (hm.channel_ne_fuse _),
      if_neg (hm.channel_ne_fuse _)]
  · rw [arrange_fuse hm, hget (hm.fuse_lt d)]
    rcases eq_outer_or_inner m d with rfl | rfl
    · rw [if_pos rfl]
    · rw [if_neg hne, if_pos rfl]

theorem prod_plane (hm : m.Valid) (S : Pair Nat) :
    (m.arrange 1 1 S).prod = S.get (outer m) * S.get (inner m) := by
  rw [arrange_plane hm]
  have hlt := outer_lt_inner hm
  have hlt' := hm.fuse_lt (inner m)
  generalize m.fuse.get (outer m) = i at hlt
  generalize m.fuse.get (inner m) = j at hlt hlt'
  interval_cases j <;> interval_cases i <;> simp [List.range_succ]

/-- A mask is stored row by row along the canvas. -/
theorem position_plane (hm : m.Valid) (S Y : Pair Nat) : position (m.arrange 1 1 S)
    (m.arrange 0 0 Y) = Y.get (outer m) * S.get (inner m) + Y.get (inner m) := by
  rw [arrange_plane hm, arrange_plane hm]
  have hlt := outer_lt_inner hm
  have hlt' := hm.fuse_lt (inner m)
  generalize m.fuse.get (outer m) = i at hlt
  generalize m.fuse.get (inner m) = j at hlt hlt'
  interval_cases j <;> interval_cases i <;> simp [List.range_succ, position]

theorem foldlM_withDim (hm : m.Valid) : (Dim.all.foldlM (fun (s : Shape) d => do
      let e ← entry (m.arrange 1 C K.size) (m.fuse.get d)
      s.withDim (m.fuse.get d) e) [1, 1, 1, 1] : Except Fault Shape) =
    .ok (m.arrange 1 1 K.size) := by
  have hstep : (fun (s : Shape) d => do
      let e ← entry (m.arrange 1 C K.size) (m.fuse.get d)
      s.withDim (m.fuse.get d) e : Shape → Dim → Except Fault Shape) =
      fun s d => replace s (m.fuse.get d) (K.size.get d) := by
    funext s d
    rw [entry_ok (by rw [length_arrange]; exact hm.fuse_lt d), arrange_fuse hm]
    rfl
  rw [hstep, ← arrange_const m 1, foldlM_replace hm]
  rfl

theorem inferShape_masked (hm : m.Valid) : inferShape .unbounded (.binary .mul)
    [m.arrange 1 C K.size, m.arrange 1 1 K.size] = .ok (m.arrange 1 C K.size) := by
  have hspreads : ∀ C' : Nat, C' = 1 ∨ C' = C →
      Spreads (m.arrange 1 C' K.size) (m.arrange 1 C K.size) := by
    intro C' hC'
    refine ⟨by rw [length_arrange, length_arrange], fun i hi => ?_⟩
    rw [length_arrange] at hi
    rw [length_arrange, length_arrange, Nat.sub_self, Nat.add_zero]
    grind [arrange_batch, arrange_channel, arrange_fuse, Valid.axis_cases]
  exact broadcast_of_spreads (hspreads C (.inr rfl)) (hspreads 1 (.inl rfl)) (.inl rfl)

/-- The data of a mask fill its shape. -/
theorem byteSize_mask (hm : m.Valid) (element : ElementType) (role : Role)
    (quant : Option Quantization) :
    TensorSpec.byteSize .unbounded ⟨element, m.arrange 1 1 K.size, role, quant⟩ =
      .ok (element.encode (K.mask m)).length := by
  have hone : ∀ x, (element.encodeOne x).length = element.width := by
    intro x
    cases element <;> rfl
  have hlen : (element.encode (K.mask m)).length = (K.mask m).length * element.width := by
    rw [ElementType.encode, List.length_flatMap]
    simp [hone]
  rw [TensorSpec.byteSize, count_unbounded, bind_ok, mul_unbounded, prod_plane hm, hlen,
    length_mask, size_get, size_get]

end Canvas

end CanvasFusion
