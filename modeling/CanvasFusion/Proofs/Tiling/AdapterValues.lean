import CanvasFusion.Proofs.Element
import CanvasFusion.Proofs.Tiling.AdapterShapes
import CanvasFusion.Proofs.Tiling.CanvasValues

/-!
# What adapters do to values

Tiling takes a batch to its canvas with zeros in the gaps (`tiling_onCanvas`), de-fusing takes a
canvas back to its batch (`defusing_eq`), and masking keeps the tiles of a canvas and clears its
gaps (`masking_onCanvas`).

Tiling is a sequence of operators that moves cells around. Between them, a value is known by the
function of batch, channel and place that it holds (`Arranged`), whatever the order of its axes is.
-/

namespace CanvasFusion

open AxisMap Operator List Pair Shape Scalar

open Value

variable {α : Type} [Scalar α] {K : Canvas} {m m' : AxisMap} {N C : Nat} {S : Pair Nat}
  {x X y v w u : Value α} {perm : List Nat}

/-! ## Sequences of operators -/

/-- Operators of one input take a value to another, one after the other. -/
def Operator.Pipes : List Operator → Value α → Value α → Prop
  | [], v, w => w = v
  | kind :: kinds, v, w => ∃ u : Value α, kind.Yields [v] u ∧ u.Full ∧ Pipes kinds u w

theorem Operator.pipes_append {ks ls : List Operator} (h : Operator.Pipes (ks ++ ls) v w) :
    ∃ u, Operator.Pipes ks v u ∧ Operator.Pipes ls u w := by
  induction ks generalizing v with
  | nil => exact ⟨v, rfl, h⟩
  | cons kind ks ih =>
    obtain ⟨u, hu, hfull, hrest⟩ := h
    obtain ⟨z, hz, hw⟩ := ih hrest
    exact ⟨z, ⟨u, hu, hfull, hz⟩, hw⟩

theorem Operator.pipes_snoc {ks : List Operator} {kind : Operator} (h : Operator.Pipes ks v u)
    (hw : kind.Yields [u] w) (hfull : w.Full) : Operator.Pipes (ks ++ [kind]) v w := by
  induction ks generalizing v with
  | nil =>
    obtain rfl : u = v := h
    exact ⟨w, hw, hfull, rfl⟩
  | cons k ks ih =>
    obtain ⟨z, hz, hzfull, hrest⟩ := h
    exact ⟨z, hz, hzfull, ih hrest⟩

/-! ## Values by roles -/

/-- The value holds `f` at each batch, channel and place. -/
structure Arranged (m : AxisMap) (N C : Nat) (S : Pair Nat) (v : Value α)
    (f : Nat → Nat → Pair Nat → α) : Prop where
  full : v.Full
  shape : v.shape = m.arrange N C S
  cell : ∀ {n c u}, n < N → c < C → (∀ d, u.get d < S.get d) → v.cell (m.arrange n c u) = f n c u

variable {f : Nat → Nat → Pair Nat → α}

theorem arranged_self (hv : v.Full) (hshape : v.shape = m.arrange N C S) :
    Arranged m N C S v fun n c u => v.cell (m.arrange n c u) := ⟨hv, hshape, fun _ _ _ => rfl⟩

/-- A permutation that moves nothing leaves the roles where they are. -/
theorem AxisMap.eq_of_isIdentity (hm : m.Valid) (hlen : perm.length = 4)
    (hid : isIdentity perm = true) (hp : m.permuted perm = some m') : m' = m := by
  have hperm : perm = range 4 := by
    rw [isIdentity, beq_iff_eq, hlen] at hid
    exact hid
  have hidx : ∀ {a b}, a < 4 → perm.idxOf? a = some b → b = a := by
    intro a b ha hab
    have hget := getElem?_of_idxOf? hab
    grind
  obtain ⟨hbatch, hchannel, hfuse⟩ := permuted_eq_some.1 hp
  obtain ⟨b, c, ⟨r, s⟩⟩ := m'
  have hb := hidx hm.batch_lt hbatch
  have hc := hidx hm.channel_lt hchannel
  have hr := hidx (hm.fuse_lt .first) (hfuse .first)
  have hs := hidx (hm.fuse_lt .second) (hfuse .second)
  simp only [get_first, get_second] at hb hc hr hs
  subst hb hc hr hs
  rfl

section Transposed

variable (h : Arranged m N C S v f) (hm : m.Valid) (hm' : m'.Valid) (hlen : perm.length = 4)
  (hp : m.permuted perm = some m')

include h hm hm' hlen hp

theorem Arranged.transpose (hw : (Operator.transpose perm).Yields [v] w) :
    Arranged m' N C S w f := by
  obtain ⟨hperm, hw⟩ := yields_transpose h.full hw
  rw [h.shape, map_extent_arrange hm hm' hlen hp] at hw
  subst hw
  refine ⟨full_ofFn _ _, rfl, fun hn hc hu => ?_⟩
  rw [cell_ofFn ((within_arrange hm').2 ⟨hn, hc, hu⟩), sourceIndex_arrange hm hm' hlen hp]
  exact h.cell hn hc hu

theorem Arranged.transposing (hw : Operator.Pipes (transposing perm) v w) :
    Arranged m' N C S w f := by
  unfold CanvasFusion.transposing at hw
  by_cases hid : isIdentity perm = true
  · rw [if_pos hid] at hw
    obtain rfl : w = v := hw
    rwa [eq_of_isIdentity hm hlen hid hp]
  · rw [if_neg hid] at hw
    obtain ⟨u, hu, -, rfl⟩ := hw
    exact h.transpose hm hm' hlen hp hu

end Transposed

/-! ## Tiling -/

instance {p : Dim → Prop} [DecidablePred p] : Decidable (∀ d, p d) :=
  decidable_of_iff (p .first ∧ p .second)
    ⟨fun h d => by cases d; exacts [h.1, h.2], fun h => ⟨h .first, h .second⟩⟩

/-- The same elements under another shape are found at the same position. -/
theorem cell_reshape {s : Shape} {i j : Index} (hx : x.Full) (hi : x.shape.Within i)
    (hj : s.Within j)
    (hpos : s.position j = x.shape.position i) : (mk s x.data).cell j = x.cell i := by
  refine cell_eq_of_getElem? hj ?_
  have hcell := hx.element?_eq hi
  rw [element?, if_pos hi] at hcell
  rw [hpos, hcell]

namespace Canvas

variable {Y : Pair Nat}

theorem arranged_gapPad (hm : m.Valid) (h : Arranged m N C K.extent v f)
    (hw : Operator.Pipes (if K.gap = .both 0 then [] else [.pad (K.gapPad m)]) v w) :
    Arranged m N C K.pitches w fun n c u =>
      if ∀ d, u.get d < K.extent.get d then f n c u else zero := by
  by_cases hgap : K.gap = .both 0
  · rw [if_pos hgap] at hw
    obtain rfl : w = v := hw
    rw [pitches_of_gapless hgap]
    exact ⟨h.full, h.shape, fun hn hc hu => (h.cell hn hc hu).trans (if_pos hu).symm⟩
  · rw [if_neg hgap] at hw
    obtain ⟨u, hu, -, rfl⟩ := hw
    have hpadded := yields_pad h.full hu
    have hshape : w.shape = m.arrange N C K.pitches := by
      have hinfer := hu.shape
      rw [map_singleton, h.shape, inferShape_gapPad hm] at hinfer
      exact (Except.ok.inj hinfer).symm
    have hfront : ∀ axis, Shape.extent (K.gapPad m).front axis = 0 := fun axis => by
      show Shape.extent [0, 0, 0, 0] axis = 0
      rcases Nat.lt_or_ge axis 4 with hlt | hge
      · interval_cases axis <;> rfl
      · exact extent_of_length_le hge
    have hmoved : ∀ {n c : Nat} {p : Pair Nat}, moved (m.arrange n c p) (K.gapPad m).front =
        m.arrange n c p := fun {n c p} => by
      rw [moved_arrange hm rfl, hfront, hfront, Nat.add_zero, Nat.add_zero]
      refine congrArg _ (ext_get fun d => ?_)
      rw [Pair.ofFn_get, hfront, Nat.add_zero]
    refine ⟨hpadded.full, hshape, fun {n c p} hn hc hp => ?_⟩
    by_cases hin : ∀ d, p.get d < K.extent.get d
    · have hwithin : v.shape.Within (m.arrange n c p) := by
        rw [h.shape, within_arrange hm]
        exact ⟨hn, hc, hin⟩
      have hcell := hpadded.inner _ hwithin
      rw [hmoved] at hcell
      rw [hcell, h.cell hn hc hin, if_pos hin]
    · rw [if_neg hin]
      refine hpadded.outer _ ?_ fun i hi heq => hin ?_
      · rw [hshape, within_arrange hm]
        exact ⟨hn, hc, hp⟩
      · rw [h.shape] at hi
        grind [exists_arrange, arrange_inj]

/-! ### Weaving

Samples come side by side: the first dimension of the grid becomes part of the first dimension of
the canvas, and the second part of the second. -/

section Weaving

variable {a b : Value α} {i p : Pair Nat} {c : Nat} (hi : ∀ d, i.get d < K.tiles.get d) (hc : c < C)
  (hp : ∀ d, p.get d < K.pitch d)

include hi hc hp

theorem within_grid : (K.gridShape C).Within [i.second, i.first, c, p.first, p.second] :=
  .cons (hi .second) (.cons (hi .first) (.cons hc (.cons (hp .first) (.cons (hp .second) .nil))))

theorem within_woven : (K.wovenShape C).Within [c, i.first, p.first, i.second, p.second] :=
  .cons hc (.cons (hi .first) (.cons (hp .first) (.cons (hi .second) (.cons (hp .second) .nil))))

/-- The samples on the grid. -/
theorem cell_grid (h : Arranged nchw K.count C K.pitches v f)
    (ha : (reshape (K.gridShape C)).Yields [v] a) :
    a.cell [i.second, i.first, c, p.first, p.second] = f
      (i.second * K.tiles.first + i.first) c p := by
  obtain ⟨-, rfl⟩ := yields_reshape ha
  have hn : i.second * K.tiles.first + i.first < K.count :=
    calc i.second * K.tiles.first + i.first < (i.second + 1) * K.tiles.first := by
          rw [Nat.succ_mul]
          exact Nat.add_lt_add_left (hi .first) _
      _ ≤ K.tiles.second * K.tiles.first := Nat.mul_le_mul_right _ (hi .second)
      _ = K.count := Nat.mul_comm _ _
  have hp' : ∀ d, p.get d < K.pitches.get d := fun d => by
    rw [pitches, Pair.ofFn_get]
    exact hp d
  have hin : v.shape.Within (nchw.arrange (i.second * K.tiles.first + i.first) c p) := by
    rw [h.shape, within_arrange valid_nchw]
    exact ⟨hn, hc, hp'⟩
  rw [cell_reshape h.full hin (within_grid hi hc hp), h.cell hn hc hp']
  rw [h.shape]
  simp only [arrange_nchw, gridShape, position, prod_cons, prod_nil, pitches,
    Pair.ofFn]
  ring

/-- The grid with each of its dimensions next to the one of the tiles. -/
theorem cell_woven (ha : a.Full) (hs : a.shape = K.gridShape C)
    (hb : (Operator.transpose [2, 1, 3, 0, 4]).Yields [a] b) :
    b.cell [c, i.first, p.first, i.second, p.second] =
      a.cell [i.second, i.first, c, p.first, p.second] := by
  obtain ⟨-, hb⟩ := yields_transpose ha hb
  rw [hs] at hb
  subst hb
  exact cell_ofFn (s := K.wovenShape C) (within_woven hi hc hp)

/-- The canvas with a gap behind its last tiles. -/
theorem cell_full (hb : b.Full) (hs : b.shape = K.wovenShape C)
    (hw : (reshape (K.fullShape C)).Yields [b] w) :
    w.cell [0, c, i.first * K.pitch .first + p.first, i.second * K.pitch .second + p.second] =
      b.cell [c, i.first, p.first, i.second, p.second] := by
  obtain ⟨-, rfl⟩ := yields_reshape hw
  have hlt : ∀ d, i.get d * K.pitch d + p.get d < K.tiles.get d * K.pitch d := fun d =>
    calc i.get d * K.pitch d + p.get d < (i.get d + 1) * K.pitch d := by
          rw [Nat.succ_mul]
          exact Nat.add_lt_add_left (hp d) _
      _ ≤ _ := Nat.mul_le_mul_right _ (hi d)
  refine cell_reshape hb (hs ▸ within_woven hi hc hp)
    (.cons Nat.one_pos (.cons hc (.cons (hlt .first) (.cons (hlt .second) .nil)))) ?_
  rw [hs]
  simp only [fullShape, wovenShape, position, prod_cons, prod_nil]
  ring

end Weaving

/-- The extents of the canvas with a gap behind its last tiles. -/
def fullSize (K : Canvas) : Pair Nat := .ofFn fun d => K.tiles.get d * K.pitch d

/-- The sample whose tile or gap a cell lies in. -/
def sampleAt (K : Canvas) (Y : Pair Nat) : Nat :=
  Y.second / K.pitch .second * K.tiles.first + Y.first / K.pitch .first

/-- The place of a cell within its tile and gap. -/
def offsetAt (K : Canvas) (Y : Pair Nat) : Pair Nat := .ofFn fun d => Y.get d % K.pitch d

theorem sampleAt_place {n : Nat} {y : Pair Nat} (hy : ∀ d, y.get d < K.extent.get d) :
    K.sampleAt (K.place (K.spot n) y) = n := by
  have hdiv : ∀ d, (K.place (K.spot n) y).get d / K.pitch d = (K.spot n).get d := fun d => by
    have hlt : y.get d < K.pitch d := Nat.lt_of_lt_of_le (hy d) (Nat.le_add_right _ _)
    rw [place_get, Nat.mul_comm, Nat.mul_add_div (Nat.zero_lt_of_lt hlt), Nat.div_eq_of_lt hlt,
      Nat.add_zero]
  show (K.place (K.spot n) y).get .second / _ * _ + (K.place (K.spot n) y).get .first / _ = n
  rw [hdiv, hdiv]
  exact Nat.div_add_mod' n K.tiles.first

theorem offsetAt_place {i y : Pair Nat} (hy : ∀ d, y.get d < K.extent.get d) :
    K.offsetAt (K.place i y) = y := ext_get fun d => by
  rw [offsetAt, Pair.ofFn_get, place_mod (hy d)]

theorem arranged_weave (h : Arranged nchw K.count C K.pitches v f)
    (hw : Operator.Pipes
      [.reshape (K.gridShape C), .transpose [2, 1, 3, 0, 4], .reshape (K.fullShape C)] v w) :
    Arranged AxisMap.nchw 1 C K.fullSize w fun _ c Y => f (K.sampleAt Y) c (K.offsetAt Y) := by
  obtain ⟨a, ha, hafull, b, hb, hbfull, e, he, hfull, rfl⟩ := hw
  have hashape : a.shape = K.gridShape C := by rw [(yields_reshape ha).2]
  have hbshape : b.shape = K.wovenShape C := by
    rw [(yields_transpose hafull hb).2, ofFn_shape, hashape]
    rfl
  refine ⟨hfull, by rw [(yields_reshape he).2]; rfl, fun {n c Y} hn hc hY => ?_⟩
  obtain rfl : n = 0 := Nat.lt_one_iff.1 hn
  have hY' : ∀ d, Y.get d < K.tiles.get d * K.pitch d := fun d => by
    have hd := hY d
    rwa [fullSize, Pair.ofFn_get] at hd
  have hpos : ∀ d, 0 < K.pitch d := fun d =>
    Nat.pos_of_mul_pos_left (Nat.lt_of_le_of_lt (Nat.zero_le _) (hY' d))
  have hi : ∀ d, (ofFn fun d => Y.get d / K.pitch d).get d < K.tiles.get d := fun d => by
    rw [Pair.ofFn_get]
    exact Nat.div_lt_of_lt_mul (by rw [Nat.mul_comm]; exact hY' d)
  have hp : ∀ d, (K.offsetAt Y).get d < K.pitch d := fun d => by
    rw [offsetAt, Pair.ofFn_get]
    exact Nat.mod_lt _ (hpos d)
  have hcell := cell_full hi hc hp hbfull hbshape he
  rw [cell_woven hi hc hp hafull hashape hb, cell_grid hi hc hp h ha] at hcell
  have hsplit : ∀ d, Y.get d = (ofFn fun d => Y.get d / K.pitch d).get d * K.pitch d +
      (K.offsetAt Y).get d := fun d => by
    rw [offsetAt, Pair.ofFn_get, Pair.ofFn_get, Nat.div_add_mod']
  refine (congrArg w.cell ?_).trans hcell
  rw [arrange_nchw]
  exact congrArg₂ (fun a b => [0, c, a, b]) (hsplit .first) (hsplit .second)

/-- What lies behind the last tiles is cut off. -/
theorem arranged_trim (hK : K.Tiled) (h : Arranged nchw 1 C K.fullSize v f)
    (hw : Operator.Pipes (if K.gap = .both 0 then []
      else [.slice [0, 0, 0, 0] (nchw.arrange 1 C K.size)]) v w) :
    Arranged nchw 1 C K.size w f := by
  by_cases hgap : K.gap = .both 0
  · rw [if_pos hgap] at hw
    obtain rfl : w = v := hw
    have hsize : K.fullSize = K.size := ext_get fun d => by
      rw [fullSize, Pair.ofFn_get, size_get, length, pitch, hgap, both_get, Nat.add_zero,
        Nat.mul_zero, Nat.add_zero]
    rwa [← hsize]
  · rw [if_neg hgap] at hw
    obtain ⟨u, hu, -, rfl⟩ := hw
    obtain ⟨-, rfl⟩ := yields_slice h.full hu
    refine ⟨full_ofFn _ _, rfl, fun {n c Y} hn hc hY => ?_⟩
    rw [cell_ofFn ((within_arrange valid_nchw).2 ⟨hn, hc, hY⟩)]
    refine h.cell hn hc fun d => ?_
    have hd := hY d
    rw [size_get] at hd
    rw [fullSize, Pair.ofFn_get]
    exact Nat.lt_of_lt_of_le hd (hK.length_le d)

/-- **Tiling** puts each sample on its tile, and zeros into the gaps. -/
theorem tiling_onCanvas (hK : K.Tiled) (hm : m.Valid) (hv : v.Full)
    (hshape : v.shape = m.arrange K.count C K.extent) (hw : Operator.Pipes (K.tiling m C) v w) :
    OnCanvas K m C v w ∧ ZeroGaps K m w := by
  unfold tiling at hw
  obtain ⟨u₄, hw, h₅⟩ := pipes_append hw
  obtain ⟨u₃, hw, h₄⟩ := pipes_append hw
  obtain ⟨u₂, hw, h₃⟩ := pipes_append hw
  obtain ⟨u₁, h₁, h₂⟩ := pipes_append hw
  have harranged := arranged_trim hK (arranged_weave
    ((arranged_gapPad hm (arranged_self hv hshape) h₁).transposing hm valid_nchw rfl
      (permuted_canonicalPerm hm) h₂) h₃) h₄
  replace harranged := harranged.transposing valid_nchw hm length_arrange
    (permuted_restoring hm) h₅
  refine ⟨⟨hv, hshape, harranged.full, harranged.shape, fun {n c y} hn hc hy => ?_⟩, ?_⟩
  · have hplace : ∀ d, (K.place (K.spot n) y).get d < K.size.get d := fun d => by
      rw [size_get]
      exact hK.place_lt (hK.spot_lt hn d) (hy d)
    rw [harranged.cell Nat.one_pos hc hplace, sampleAt_place hy, offsetAt_place hy, if_pos hy]
  · rintro c Y hin ⟨d, hd⟩
    rw [harranged.shape, within_arrange hm] at hin
    rw [harranged.cell hin.1 hin.2.1 hin.2.2, if_neg fun hall => ?_]
    grind [Canvas.offsetAt, Pair.ofFn_get]

/-! ## De-fusing -/

/-- The tile of a sample, cut out of the canvas. -/
def tileOf (K : Canvas) (m : AxisMap) (C : Nat) (X : Value α) (n : Nat) : Value α :=
  ofFn (K.block m C) fun j => X.cell (moved j (K.origin m n))

theorem cell_tileOf (hm : m.Valid) {n c : Nat} {p : Pair Nat} (hc : c < C)
    (hp : ∀ d, p.get d < K.extent.get d) :
    (K.tileOf m C X n).cell (m.arrange 0 c p) = X.cell (m.arrange 0 c (K.place (K.spot n) p)) := by
  have hin : (K.block m C).Within (m.arrange 0 c p) :=
    (within_arrange hm).2 ⟨Nat.one_pos, hc, hp⟩
  rw [tileOf, cell_ofFn hin, origin, moved_arrange hm length_arrange, arrange_batch hm,
    arrange_channel hm, Nat.add_zero, Nat.add_zero]
  refine congrArg (fun Y => X.cell (m.arrange 0 c Y)) (ext_get fun d => ?_)
  rw [Pair.ofFn_get, arrange_fuse hm, place_get, place_get, both_get, Nat.add_zero,
    Nat.add_comm]

/-- **De-fusing** gives the batch back. -/
theorem defusing_eq (hm : m.Valid) (hx : OnCanvas K m C x X)
    (hy : Concatenated m.batch ((List.range K.count).map (K.tileOf m C X)) y)
    (hshape : y.shape = x.shape) : y = x := by
  have hstart : ∀ n < K.count,
      blockStart m.batch ((range K.count).map (K.tileOf m C X)) n = n := by
    intro n hn
    have hone : ∀ k, (K.tileOf m C X k).shape.extent m.batch = 1 := fun k =>
      arrange_batch hm
    rw [blockStart, ← map_take, map_map, take_range, Nat.min_eq_left (Nat.le_of_lt hn)]
    simp [Function.comp_def, hone]
  refine hy.full.ext_cell hx.full hshape fun index hin => ?_
  rw [hshape, hx.shape] at hin
  obtain ⟨n, c, p, rfl, hn, hc, hp⟩ := exists_arrange hm hin
  have hget : ((range K.count).map (K.tileOf m C X))[n]? = some (K.tileOf m C X n) := by
    rw [getElem?_map, getElem?_range hn]
    rfl
  have hblock := hy.block n _ hget (m.arrange 0 c p)
    ((within_arrange hm).2 ⟨Nat.one_pos, hc, hp⟩)
  rw [inBlock, arrange_batch hm, set_batch hm, hstart n hn, Nat.zero_add,
    cell_tileOf hm hc hp, hx.tile hn hc hp] at hblock
  exact hblock

/-! ## Masking -/

theorem getElem?_rows {β : Type} {rows columns : Nat} {f : Nat → Nat → β} {a b : Nat}
    (ha : a < rows) (hb : b < columns) :
    ((List.range rows).flatMap fun a => (List.range columns).map (f a))[a * columns + b]? =
      some (f a b) := by
  induction rows with
  | zero => cases ha
  | succ rows ih =>
    have hlen : ((range rows).flatMap fun a => (range columns).map (f a)).length =
        rows * columns := by simp
    rw [range_succ, flatMap_append]
    rcases Nat.lt_succ_iff_lt_or_eq.1 ha with hlt | rfl
    · grind
    · rw [getElem?_append_right (by rw [hlen]; exact Nat.le_add_right _ _), hlen,
        Nat.add_sub_cancel_left]
      simp [hb]

theorem mask_zero_or_one (K : Canvas) (m : AxisMap) : ∀ s ∈ K.mask m, s = .zero ∨ s = .one := by
  grind [mask]

/-- The mask lists the cells of the canvas row by row, with ones on the tiles and zeros on the
gaps. -/
theorem getElem?_mask (hY : ∀ d, Y.get d < K.length d) :
    (K.mask m)[Y.get (outer m) * K.length (inner m) + Y.get (inner m)]? =
      some (if ∀ d, K.isTile d (Y.get d) = true then .one else .zero) := by
  have hall : (∀ d, K.isTile d (Y.get d) = true) ↔
      (K.isTile (outer m) (Y.get (outer m)) && K.isTile (inner m) (Y.get (inner m))) = true := by
    rw [Bool.and_eq_true]
    refine ⟨fun h => ⟨h _, h _⟩, fun h d => ?_⟩
    rcases eq_outer_or_inner m d with rfl | rfl
    · exact h.1
    · exact h.2
  rw [mask, getElem?_rows (hY _) (hY _)]
  grind

theorem cell_mask (hm : m.Valid) (hY : ∀ d, Y.get d < K.length d) :
    (Value.mk (m.arrange 1 1 K.size) ((K.mask m).map (Scalar.ofSingle (α := α))).toArray).cell
      (m.arrange 0 0 Y) = if ∀ d, K.isTile d (Y.get d) = true then one else zero := by
  have hin : Within (m.arrange 1 1 K.size) (m.arrange 0 0 Y) :=
    (within_arrange hm).2 ⟨Nat.one_pos, Nat.one_pos, fun d => by rw [size_get]; exact hY d⟩
  refine cell_eq_of_getElem? hin ?_
  rw [position_plane hm, getElem?_toArray, getElem?_map, size_get, getElem?_mask hY]
  split_ifs <;> rfl

/-- A mask is read at the place of the canvas, for every channel. -/
theorem spreadIndex_mask (hm : m.Valid) {c : Nat} (hY : ∀ d, Y.get d < K.length d) :
    spreadIndex (m.arrange 1 1 K.size) (m.arrange 0 c Y) = m.arrange 0 0 Y := by
  have hle : (m.arrange 1 1 K.size).length ≤ (m.arrange 0 c Y).length := by
    rw [length_arrange, length_arrange]
  have hget : ∀ {axis}, axis < 4 →
      Shape.extent (spreadIndex (m.arrange 1 1 K.size) (m.arrange 0 c Y))
      axis = if Shape.extent (m.arrange 1 1 K.size) axis = 1 then 0
        else Shape.extent (m.arrange 0 c Y) axis := fun haxis => by
    rw [extent_spreadIndex hle (by rw [length_arrange]; exact haxis), length_arrange,
      length_arrange, Nat.sub_self, Nat.add_zero]
  refine ext_roles hm (by rw [length_spreadIndex hle, length_arrange])
    length_arrange ?_ ?_ fun d => ?_
  · rw [hget hm.batch_lt, arrange_batch hm, if_pos rfl, arrange_batch hm]
  · rw [hget hm.channel_lt, arrange_channel hm, if_pos rfl, arrange_channel hm]
  · grind [arrange_fuse, size_get, Valid.fuse_lt]

/-- **Masking** keeps the tiles and clears the gaps. -/
theorem masking_onCanvas [LawfulScalar α] (hK : K.Tiled) (hm : m.Valid) (hX : X.Full)
    (hshape : X.shape = m.arrange 1 C K.size) (hu : u.Full)
    (hmask : u = ⟨m.arrange 1 1 K.size, ((K.mask m).map ofSingle).toArray⟩)
    (hw : (binary .mul).Yields [X, u] w) (hws : w.shape = m.arrange 1 C K.size) :
    (∀ x, OnCanvas K m C x X → OnCanvas K m C x w) ∧ ZeroGaps K m w := by
  obtain ⟨-, hw⟩ := yields_binary hX hu hw
  rw [hws] at hw
  have hcell : ∀ {c Y}, c < C → (∀ d, Y.get d < K.length d) → w.cell (m.arrange 0 c Y) =
      mul (X.cell (m.arrange 0 c Y))
        (if ∀ d, K.isTile d (Y.get d) = true then one else zero) := by
    intro c Y hc hY
    have hin : Within (m.arrange 1 C K.size) (m.arrange 0 c Y) :=
      (within_arrange hm).2 ⟨Nat.one_pos, hc, fun d => by rw [size_get]; exact hY d⟩
    rw [hw, cell_ofFn hin, hshape, spreadIndex_self hin, hmask]
    dsimp only
    rw [spreadIndex_mask hm hY, cell_mask hm hY]
    rfl
  have hwfull : w.Full := by
    rw [hw]
    exact full_ofFn _ _
  refine ⟨fun x hx => ⟨hx.full, hx.shape, hwfull, hws, fun {n c p} hn hc hp => ?_⟩, ?_⟩
  · have hlt : ∀ d, (K.place (K.spot n) p).get d < K.length d := fun d =>
      hK.place_lt (hK.spot_lt hn d) (hp d)
    rw [hcell hc hlt, if_pos fun d => ?_, LawfulScalar.mul_one, hx.tile hn hc hp]
    rw [isTile, place_mod (hp d)]
    exact decide_eq_true (hp d)
  · rintro c Y hin ⟨d, hd⟩
    rw [hws, within_arrange hm] at hin
    rw [hcell hin.2.1 fun d => by simpa only [size_get] using hin.2.2 d, if_neg fun hall => ?_,
      LawfulScalar.mul_zero]
    exact Nat.not_le_of_lt (of_decide_eq_true (hall d)) hd

end Canvas

end CanvasFusion
