import CanvasFusion.Proofs.Eval.Roles
import CanvasFusion.Proofs.Eval.Window

/-!
# Canvases

Along one dimension a canvas is a row of tiles of one extent, a fixed gap apart. Tile and gap
together are the *pitch*: the cell `y` of tile `i` is the cell `i · pitch + y` of the canvas, and a
cell whose remainder by the pitch is past the extent lies in a gap.

`OnCanvas` relates a batch to a canvas: the tile of each sample holds the elements of the sample.
What the gaps hold is left open; `ZeroGaps` says that they hold zeros.

A sliding window on a canvas, at a cell of a tile, either finds the cell it would find in the
sample, or a gap cell, or nothing (`tap_of_some`, `tap_of_none`).
-/

namespace CanvasFusion

open Pair

/-- The tiles of a canvas along both dimensions, their extents and the gaps between them. -/
structure Canvas where
  tiles : Pair Nat
  extent : Pair Nat
  gap : Pair Nat

namespace Canvas

/-- Tile and gap together. -/
def pitch (K : Canvas) (d : Dim) : Nat := K.extent.get d + K.gap.get d

/-- The cells of the canvas along a dimension. -/
def length (K : Canvas) (d : Dim) : Nat :=
  K.tiles.get d * K.extent.get d + (K.tiles.get d - 1) * K.gap.get d

def size (K : Canvas) : Pair Nat := .ofFn K.length

/-- The number of tiles. -/
def count (K : Canvas) : Nat := K.tiles.first * K.tiles.second

/-- The tile of a sample. The first dimension varies fastest. -/
def spot (K : Canvas) (n : Nat) : Pair Nat := ⟨n % K.tiles.first, n / K.tiles.first⟩

/-- The cell of the canvas that a cell of a tile is. -/
def place (K : Canvas) (i y : Pair Nat) : Pair Nat :=
  .ofFn fun d => i.get d * K.pitch d + y.get d

/-- The cell lies in a gap, along some dimension. -/
def InGap (K : Canvas) (Y : Pair Nat) : Prop := ∃ d, K.extent.get d ≤ Y.get d % K.pitch d

/-- There are tiles. -/
structure Tiled (K : Canvas) : Prop where
  tiles_pos : ∀ d, 0 < K.tiles.get d

/-- There are tiles, and a single tile has no gap. -/
structure Valid (K : Canvas) : Prop extends Tiled K where
  untiled : ∀ d, K.tiles.get d = 1 → K.gap.get d = 0

variable {K : Canvas} {i y Y : Pair Nat} {n : Nat} {d : Dim}

@[simp] theorem size_get (K : Canvas) (d : Dim) : K.size.get d = K.length d := ofFn_get _ d

@[simp] theorem place_get (K : Canvas) (i y : Pair Nat) (d : Dim) :
    (K.place i y).get d = i.get d * K.pitch d + y.get d := ofFn_get _ d

theorem Tiled.length_eq (hK : K.Tiled) (d : Dim) :
    K.length d = (K.tiles.get d - 1) * K.pitch d + K.extent.get d := by
  obtain ⟨t, ht⟩ := Nat.exists_eq_succ_of_ne_zero (Nat.pos_iff_ne_zero.1 (hK.tiles_pos d))
  rw [length, pitch, ht, Nat.succ_eq_add_one, Nat.add_sub_cancel]
  ring

theorem Tiled.length_le (hK : K.Tiled) (d : Dim) : K.length d ≤ K.tiles.get d * K.pitch d := by
  have hpos := hK.tiles_pos d
  have hle : (K.tiles.get d - 1) * K.gap.get d ≤ K.tiles.get d * K.gap.get d :=
    Nat.mul_le_mul_right _ (Nat.sub_le _ _)
  rw [length, pitch, Nat.mul_add]
  omega

theorem Tiled.spot_lt (hK : K.Tiled) (hn : n < K.count) (d : Dim) :
    (K.spot n).get d < K.tiles.get d := by
  have hpos : 0 < K.tiles.first := hK.tiles_pos .first
  cases d with
  | first => exact Nat.mod_lt n hpos
  | second => exact Nat.div_lt_of_lt_mul hn

theorem Tiled.place_lt (hK : K.Tiled) (hi : i.get d < K.tiles.get d)
    (hy : y.get d < K.extent.get d) : (K.place i y).get d < K.length d := by
  have hle : i.get d * K.pitch d ≤ (K.tiles.get d - 1) * K.pitch d :=
    Nat.mul_le_mul_right _ (Nat.le_sub_one_of_lt hi)
  rw [place_get, hK.length_eq]
  omega

/-- The cells of a tile do not lie in a gap. -/
theorem place_mod (hy : y.get d < K.extent.get d) : (K.place i y).get d % K.pitch d = y.get d := by
  have hlt : y.get d < K.pitch d := Nat.lt_of_lt_of_le hy (Nat.le_add_right _ _)
  rw [place_get, Nat.add_comm, Nat.add_mul_mod_self_right, Nat.mod_eq_of_lt hlt]

/-- A dimension without a gap has no gap cells. -/
theorem gap_pos_of_mod (hK : K.Valid) (hY : Y.get d < K.length d)
    (h : K.extent.get d ≤ Y.get d % K.pitch d) : 0 < K.gap.get d := by
  by_contra h0
  have hpitch : K.pitch d = K.extent.get d := by
    unfold pitch
    omega
  rcases Nat.eq_zero_or_pos (K.extent.get d) with he | he
  · rw [hK.length_eq, hpitch, he] at hY
    omega
  · rw [hpitch] at h
    exact Nat.not_le_of_lt (Nat.mod_lt _ he) h

theorem spot_add_mul (hi : i.first < K.tiles.first) :
    K.spot (i.first + K.tiles.first * i.second) = i := by
  rw [spot, Nat.add_mul_mod_self_left, Nat.mod_eq_of_lt hi,
    Nat.add_mul_div_left _ _ (Nat.zero_lt_of_lt hi), Nat.div_eq_of_lt hi, Nat.zero_add]

/-- Every place on the grid is the tile of a sample. -/
theorem exists_spot (hi : ∀ d, i.get d < K.tiles.get d) : ∃ n < K.count, K.spot n = i := by
  have hfirst : i.first < K.tiles.first := hi .first
  have hle : K.tiles.first * (i.second + 1) ≤ K.tiles.first * K.tiles.second :=
    Nat.mul_le_mul_left _ (hi .second)
  refine ⟨_, ?_, spot_add_mul hfirst⟩
  rw [Nat.mul_succ] at hle
  rw [count]
  omega

/-- A cell that lies in no gap lies in a tile. -/
theorem Tiled.exists_tile (hK : K.Tiled) (hY : ∀ d, Y.get d < K.length d) (hgap : ¬ K.InGap Y) :
    ∃ n < K.count, ∃ y : Pair Nat, (∀ d, y.get d < K.extent.get d) ∧ Y = K.place (K.spot n) y := by
  obtain ⟨n, hn, hspot⟩ :=
    exists_spot (K := K) (i := .ofFn fun d => Y.get d / K.pitch d) fun d => by
    rw [ofFn_get]
    refine Nat.div_lt_of_lt_mul (Nat.lt_of_lt_of_le (hY d) ?_)
    rw [Nat.mul_comm]
    exact hK.length_le d
  refine ⟨n, hn, .ofFn fun d => Y.get d % K.pitch d, fun d => ?_, ext_get fun d => ?_⟩
  · rw [ofFn_get]
    exact Nat.lt_of_not_le fun hd => hgap ⟨d, hd⟩
  · rw [hspot, place_get, ofFn_get, ofFn_get, Nat.div_add_mod']

/-! ## Windows on a canvas -/

/-- A window slides from the canvas `K` to the canvas `K'`, along a dimension with more than one
tile: a tile and its gap are a whole number of strides, and the windows of a tile stay inside it and
the gaps at its sides. -/
structure Slides (K K' : Canvas) (d : Dim) (kernel stride dilation front : Nat) : Prop where
  pitch : K'.pitch d * stride = K.pitch d
  front_le : front ≤ K.gap.get d
  back_le : (K'.extent.get d - 1) * stride + (kernel - 1) * dilation < front + K.pitch d

/-- Some window of a tile reaches into a gap. -/
def Reaches (K K' : Canvas) (d : Dim) (kernel stride dilation front : Nat) : Prop :=
  0 < front ∨ front + K.extent.get d ≤ (K'.extent.get d - 1) * stride + (kernel - 1) * dilation

/-- Where a window reaches into a gap, there is one. -/
theorem Slides.gap_pos {K' : Canvas} {kernel stride dilation front : Nat}
    (h : Slides K K' d kernel stride dilation front)
    (hr : Reaches K K' d kernel stride dilation front) : 0 < K.gap.get d := by
  have hpitch : K.pitch d = K.extent.get d + K.gap.get d := rfl
  have hfront := h.front_le
  have hback := h.back_le
  rcases hr with hr | hr <;> omega

section Taps

variable {K' : Canvas} {kernel stride dilation front i y k r Y : Nat}
  (h : K.tiles.get d ≠ 1 → Slides K K' d kernel stride dilation front) (hi : i < K.tiles.get d)

include h hi

/-- The cell under a window moves with the tile. -/
theorem tap_shift : (i * K'.pitch d + y) * stride + k * dilation =
      i * K.pitch d + (y * stride + k * dilation) := by
  grind [Slides.pitch]

/-- A window position that falls on the sample falls on the same cell of its tile. -/
theorem tap_of_some (hK : K.Valid) (ht : tap y k stride dilation front (K.extent.get d) = some r) :
    tap (i * K'.pitch d + y) k stride dilation front (K.length d) = some (i * K.pitch d + r) := by
  have hle : i * K.pitch d ≤ (K.tiles.get d - 1) * K.pitch d :=
    Nat.mul_le_mul_right _ (Nat.le_sub_one_of_lt hi)
  have hlength := hK.length_eq d
  unfold tap at ht ⊢
  rw [tap_shift h hi]
  grind

/-- A window position that falls beside the sample falls into a gap, if on anything. -/
theorem tap_of_none (hK : K.Valid) (hy : y < K'.extent.get d) (hk : k < kernel)
    (ht : tap y k stride dilation front (K.extent.get d) = none)
    (hT : tap (i * K'.pitch d + y) k stride dilation front (K.length d) = some Y) :
    K.extent.get d ≤ Y % K.pitch d ∧ K.tiles.get d ≠ 1 ∧
      Reaches K K' d kernel stride dilation front := by
  have hlength := hK.length_eq d
  unfold tap at ht hT
  rw [tap_shift h hi] at hT
  split_ifs at ht with hin
  split_ifs at hT with hIn
  cases hT
  -- With one tile the canvas is the sample.
  have htiled : K.tiles.get d ≠ 1 := fun h1 => by
    grind
  obtain ⟨-, hfront, hback⟩ := h htiled
  have hlast : y * stride + k * dilation ≤ (K'.extent.get d - 1) * stride +
      (kernel - 1) * dilation :=
    Nat.add_le_add (Nat.mul_le_mul_right _ (Nat.le_sub_one_of_lt hy))
      (Nat.mul_le_mul_right _ (Nat.le_sub_one_of_lt hk))
  have hpitch : K.pitch d = K.extent.get d + K.gap.get d := rfl
  by_cases hbefore : y * stride + k * dilation < front
  · -- In front of the tile: the gap behind the tile before.
    obtain ⟨j, rfl⟩ : ∃ j, i = j + 1 := Nat.exists_eq_succ_of_ne_zero (by
      rintro rfl
      omega)
    have hcell : (j + 1) * K.pitch d + (y * stride + k * dilation) - front =
        (K.pitch d + (y * stride + k * dilation) - front) + j * K.pitch d := by
      rw [Nat.add_mul]
      omega
    rw [hcell, Nat.add_mul_mod_self_right, Nat.mod_eq_of_lt (by omega)]
    exact ⟨by omega, htiled, .inl (by omega)⟩
  · -- Behind the tile: the gap behind it.
    have hcell : i * K.pitch d + (y * stride + k * dilation) - front =
        (y * stride + k * dilation - front) + i * K.pitch d := by omega
    rw [hcell, Nat.add_mul_mod_self_right, Nat.mod_eq_of_lt (by omega)]
    exact ⟨by omega, htiled, .inr (by omega)⟩

end Taps

end Canvas

/-! ## Batches on a canvas -/

section OnCanvas

variable {α : Type} [Scalar α] {K : Canvas} {m : AxisMap} {C : Nat} {x X : Value α}

/-- The canvas `X` holds the samples of the batch `x` as its tiles. -/
structure OnCanvas (K : Canvas) (m : AxisMap) (C : Nat) (x X : Value α) : Prop where
  full : x.Full
  shape : x.shape = m.arrange K.count C K.extent
  canvas_full : X.Full
  canvas_shape : X.shape = m.arrange 1 C K.size
  tile : ∀ {n c y}, n < K.count → c < C → (∀ d, y.get d < K.extent.get d) →
    X.cell (m.arrange 0 c (K.place (K.spot n) y)) = x.cell (m.arrange n c y)

/-- The gap cells of a canvas hold zeros. -/
def ZeroGaps (K : Canvas) (m : AxisMap) (X : Value α) : Prop :=
  ∀ c Y, X.shape.Within (m.arrange 0 c Y) → K.InGap Y → X.cell (m.arrange 0 c Y) = Scalar.zero

theorem OnCanvas.within (h : OnCanvas K m C x X) (hK : K.Tiled) (hm : m.Valid) {n c : Nat}
    {y : Pair Nat} (hn : n < K.count) (hc : c < C) (hy : ∀ d, y.get d < K.extent.get d) :
    X.shape.Within (m.arrange 0 c (K.place (K.spot n) y)) := by
  rw [h.canvas_shape, AxisMap.within_arrange hm]
  refine ⟨Nat.one_pos, hc, fun d => ?_⟩
  rw [Canvas.size_get]
  exact hK.place_lt (hK.spot_lt hn d) (hy d)

/-- Without gaps, there are no gap cells. -/
theorem zeroGaps_of_gapless (hK : K.Valid) (hm : m.Valid) (hX : X.shape = m.arrange 1 C K.size)
    (hgap : ∀ d, K.gap.get d = 0) : ZeroGaps K m X := by
  rintro c Y hin ⟨d, hd⟩
  rw [hX, AxisMap.within_arrange hm] at hin
  have hlt := hin.2.2 d
  rw [Canvas.size_get] at hlt
  exact absurd (hgap d) (Nat.pos_iff_ne_zero.1 (Canvas.gap_pos_of_mod hK hlt hd))

end OnCanvas

end CanvasFusion
