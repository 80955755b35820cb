import CanvasFusion.Proofs.Tiling.CanvasBatch

/-!
# Tiles as a partition

The grid of a number of samples gives each sample a place, and each place a tile. Nothing of the
canvas is given out twice, and what is left over is told by the remainders of a cell by the pitches.

**Theorem (tiles_partition_canvas).** Samples and places determine each other. The tiles lie apart,
in a canvas that ends where the last one does, and a cell lies in one exactly if both remainders are
below the extents. The cells of the gaps are as many as the cells of the canvas less those of the
samples.
-/

namespace CanvasFusion

open Canvas Pair

/-! ## Places -/

namespace Canvas

variable {K : Canvas} {i : Pair Nat} {m n : Nat}

theorem spot_injective (h : K.spot m = K.spot n) : m = n := by
  have hmod : m % K.tiles.first = n % K.tiles.first := congrArg Pair.first h
  have hdiv : m / K.tiles.first = n / K.tiles.first := congrArg Pair.second h
  rw [← Nat.div_add_mod m K.tiles.first, ← Nat.div_add_mod n K.tiles.first, hmod, hdiv]

/-- The last sample is at the far end of both dimensions. -/
theorem Tiled.spot_last (hK : K.Tiled) (d : Dim) :
    (K.spot (K.count - 1)).get d = K.tiles.get d - 1 := by
  have hfirst : 0 < K.tiles.first := hK.tiles_pos .first
  have hsecond : 0 < K.tiles.second := hK.tiles_pos .second
  have hlast : K.count - 1 = (K.tiles.first - 1) + K.tiles.first * (K.tiles.second - 1) := by
    have hcount : K.count = K.tiles.first * (K.tiles.second - 1) + K.tiles.first := by
      rw [count, ← Nat.mul_succ, Nat.succ_eq_add_one, Nat.sub_add_cancel hsecond]
    omega
  have hspot := spot_add_mul (K := K) (i := ⟨K.tiles.first - 1, K.tiles.second - 1⟩)
    (Nat.sub_lt hfirst Nat.one_pos)
  rw [hlast, hspot]
  cases d <;> rfl

/-- The samples take every place, each its own. -/
theorem Tiled.bijOn_spot (hK : K.Tiled) :
    Set.BijOn K.spot (Set.Iio K.count) {i | ∀ d, i.get d < K.tiles.get d} :=
  ⟨fun _ hn d => hK.spot_lt hn d, fun _ _ _ _ h => spot_injective h, fun _ hi => exists_spot hi⟩

end Canvas

/-! ## Cells -/

/-- The cells of a rectangle. -/
def cellsFrom (origin extent : Pair Nat) : Finset (Nat × Nat) :=
  Finset.Ico origin.first (origin.first + extent.first) ×ˢ
    Finset.Ico origin.second (origin.second + extent.second)

theorem mem_cellsFrom {origin extent : Pair Nat} {a b : Nat} : (a, b) ∈ cellsFrom origin extent ↔
    ∀ d, origin.get d ≤ Pair.get ⟨a, b⟩ d ∧ Pair.get ⟨a, b⟩ d < origin.get d + extent.get d := by
  rw [cellsFrom, Finset.mem_product, Finset.mem_Ico, Finset.mem_Ico]
  exact ⟨fun h d => by cases d; exacts [h.1, h.2], fun h => ⟨h .first, h .second⟩⟩

theorem card_cellsFrom (origin extent : Pair Nat) :
    (cellsFrom origin extent).card = extent.first * extent.second := by
  simp [cellsFrom]

theorem cellsFrom_subset {origin extent size : Pair Nat}
    (h : ∀ d, origin.get d + extent.get d ≤ size.get d) :
    cellsFrom origin extent ⊆ cellsFrom (.both 0) size := by
  rintro ⟨a, b⟩ hp
  rw [mem_cellsFrom] at hp ⊢
  intro d
  have hd := h d
  have hin := hp d
  rw [both_get]
  omega

/-- The pitch tells the tile of a cell. -/
theorem Canvas.spot_of_mem {K : Canvas} {i : Pair Nat} {a b : Nat}
    (h : (a, b) ∈ cellsFrom (K.place i (.both 0)) K.extent) (d : Dim) :
    Pair.get ⟨a, b⟩ d / K.pitch d = i.get d := by
  have hin := mem_cellsFrom.1 h d
  rw [place_get, both_get, Nat.add_zero] at hin
  have hpitch : K.pitch d = K.extent.get d + K.gap.get d := rfl
  refine Nat.div_eq_of_lt_le hin.1 ?_
  rw [Nat.succ_mul]
  omega

/-! ## The grid -/

namespace Grid

variable {lim : Limit} {N : Nat} {extent gap size : Pair Nat} {g : Grid}
  {place origin : Nat → Pair Nat}

/-- What a grid gives for `N` samples within a limit: the canvas, and a place and an origin for
every sample. -/
structure LaysOut (lim : Limit) (N : Nat) (extent gap : Pair Nat) (g : Grid) (size : Pair Nat)
    (place origin : Nat → Pair Nat) : Prop where
  grid : ofCount lim N = .ok g
  size_ok : ∀ d, g.canvasExtent lim d (extent.get d) (gap.get d) = .ok (size.get d)
  place_ok : ∀ n < N, g.position n = .ok (place n)
  origin_ok : ∀ n < N, g.tileOrigin lim n extent gap = .ok (origin n)

/-- The tiles share the canvas out among the samples, gaps apart. -/
structure Partitions (N : Nat) (extent gap : Pair Nat) (g : Grid) (size : Pair Nat)
    (place origin : Nat → Pair Nat) : Prop where
  places : Set.BijOn place (Set.Iio N) {i | ∀ d, i.get d < g.tiles.get d}
  inside : ∀ n < N, ∀ d, (origin n).get d + extent.get d ≤ size.get d
  last : ∀ d, (origin (N - 1)).get d + extent.get d = size.get d
  apart : (Set.Iio N).PairwiseDisjoint fun n => cellsFrom (origin n) extent
  tiled : ∀ a < size.first, ∀ b < size.second, (∃ n < N, (a, b) ∈ cellsFrom (origin n) extent) ↔
    a % (extent.first + gap.first) < extent.first ∧ b % (extent.second + gap.second) < extent.second
  gaps : (cellsFrom (.both 0) size \ (Finset.range N).biUnion fun n => cellsFrom (origin n)
    extent).card + N * (extent.first * extent.second) = size.first * size.second

/-- At any limit, a grid gives what it gives in plain arithmetic. -/
theorem LaysOut.spaced (h : LaysOut lim N extent gap g size place origin) :
    (g.spaced extent gap).Tiled ∧ (g.spaced extent gap).count = max N 1 ∧ size =
      (g.spaced extent gap).size ∧ ∀ n < N, place n = (g.spaced extent gap).spot n ∧
        origin n = (g.spaced extent gap).place ((g.spaced extent gap).spot n) (.both 0) := by
  obtain ⟨hcount, hpos, hslots⟩ := ofCount_spec h.grid
  have hK : (g.spaced extent gap).Tiled := ⟨hpos⟩
  refine ⟨hK, hslots.trans hcount, ext_get fun d => ?_, fun n hn => ⟨?_, ?_⟩⟩
  · have hsize := (g.hasPeak_canvasExtent d _ _).conforms _ _ (h.size_ok d)
    rw [canvasExtent_unbounded (hpos d)] at hsize
    rw [size_get]
    exact (Except.ok.inj hsize).symm
  · have hne : g.tiles.first ≠ 0 := Nat.ne_of_gt (hpos .first)
    have hplace := h.place_ok n hn
    simp only [position, Size.mod, Size.div, hne, if_false, bind_ok] at hplace
    exact (Except.ok.inj hplace).symm
  · exact (gives_tileOrigin (P := False) hK rfl n False.elim).eq (h.origin_ok n hn)

theorem exists_laysOut (N : Nat) (extent gap : Pair Nat) :
    ∃ g size place origin, LaysOut .unbounded N extent gap g size place origin := by
  obtain ⟨g, hg⟩ : ∃ g, ofCount .unbounded N = .ok g := ⟨_, rfl⟩
  have hplaces := places_spaced (packed_of_ofCount hg) extent gap
  have hne : g.tiles.first ≠ 0 := Nat.ne_of_gt (hplaces.tiles_pos .first)
  refine ⟨g, (g.spaced extent gap).size, (g.spaced extent gap).spot, _, hg, fun d => ?_,
    fun n _ => ?_, fun n _ => tileOrigin_ok (K := g.spaced extent gap) hplaces.toTiled rfl n⟩
  · rw [hplaces.length_ok d, size_get]
  · simp only [position, Size.mod, Size.div, hne, if_false, bind_ok]
    rfl

/-- A cell lies in the tile of a sample exactly if it lies in no gap. -/
theorem Places.mem_cellsFrom_iff {K : Canvas} (h : g.Places extent gap K) {a b : Nat}
    (ha : a < K.length .first) (hb : b < K.length .second) :
    (∃ n < K.count, (a, b) ∈ cellsFrom (K.place (K.spot n) (.both 0)) extent) ↔
      a % K.pitch .first < K.extent.first ∧ b % K.pitch .second < K.extent.second := by
  have hin : ∀ d, Pair.get ⟨a, b⟩ d < K.length d := fun d => by cases d <;> assumption
  have htile : (∃ n < K.count, (a, b) ∈ cellsFrom (K.place (K.spot n) (.both 0)) extent) ↔
      g.InTile extent gap ⟨a, b⟩ := by
    simp only [InTile, ← h.count_eq, mem_cellsFrom]
    refine exists_congr fun n => and_congr_right fun hn => ?_
    rw [h.origin_ok n (h.count_eq ▸ hn)]
    simp
  rw [htile, h.inTile_iff hin, InGap]
  push Not
  exact ⟨fun h => ⟨h .first, h .second⟩, fun h d => by cases d; exacts [h.1, h.2]⟩

/-- Cells of the canvas are in tiles or in gaps. -/
theorem card_gaps_add {tile : Nat → Finset (Nat × Nat)} {canvas : Finset (Nat × Nat)} {c : Nat}
    (hsub : ∀ n < N, tile n ⊆ canvas) (happart : (Set.Iio N).PairwiseDisjoint tile)
    (hcard : ∀ n < N, (tile n).card = c) :
    (canvas \ (Finset.range N).biUnion tile).card + N * c = canvas.card := by
  have htiles : ((Finset.range N).biUnion tile).card = N * c := by
    rw [Finset.card_biUnion (by simpa [Set.Iio_def] using happart),
      Finset.sum_congr rfl fun n hn => hcard n (Finset.mem_range.1 hn)]
    simp
  rw [← htiles]
  refine Finset.card_sdiff_add_card_eq_card (Finset.biUnion_subset.2 fun n hn => ?_)
  exact hsub n (Finset.mem_range.1 hn)

/-- What a grid lays out is a partition of the canvas. -/
theorem LaysOut.partitions (h : LaysOut lim N extent gap g size place origin) (hN : 1 ≤ N) :
    Partitions N extent gap g size place origin := by
  obtain ⟨hK, hcount, rfl, hspot⟩ := h.spaced
  rw [Nat.max_eq_left hN] at hcount
  have hplaces := places_spaced (packed_of_ofCount h.grid) extent gap
  generalize hKdef : g.spaced extent gap = K at hK hcount hspot hplaces
  have horigin : ∀ n < N, ∀ d, (origin n).get d = (K.spot n).get d * K.pitch d := fun n hn d => by
    rw [(hspot n hn).2, place_get, both_get, Nat.add_zero]
  have hlength : ∀ d, K.size.get d = (K.tiles.get d - 1) * K.pitch d + extent.get d := fun d => by
    rw [size_get, hK.length_eq, hplaces.extent_eq]
  have hinside : ∀ n < N, ∀ d, (origin n).get d + extent.get d ≤ K.size.get d := fun n hn d => by
    have hlt := hK.spot_lt (hcount.symm ▸ hn) d
    rw [horigin n hn, hlength]
    exact Nat.add_le_add_right (Nat.mul_le_mul_right _ (Nat.le_sub_one_of_lt hlt)) _
  have happart : (Set.Iio N).PairwiseDisjoint fun n => cellsFrom (origin n) extent := by
    -- A cell in two tiles would give two samples the same place.
    refine fun m hm n hn hne => Finset.disjoint_left.2 fun ⟨a, b⟩ ha hb => hne ?_
    simp only [(hspot m hm).2, (hspot n hn).2, ← hplaces.extent_eq] at ha hb
    exact spot_injective (ext_get fun d => (spot_of_mem ha d).symm.trans (spot_of_mem hb d))
  refine ⟨?_, hinside, fun d => ?_, happart, fun a ha b hb => ?_, ?_⟩
  · have htiles : g.tiles = K.tiles := hKdef ▸ rfl
    rw [← hcount, htiles]
    exact hK.bijOn_spot.congr fun n hn => ((hspot n (hcount ▸ hn)).1).symm
  · rw [horigin _ (Nat.sub_lt hN Nat.one_pos), hlength, ← hcount, hK.spot_last]
  · have htile : ∀ n, (n < N ∧ (a, b) ∈ cellsFrom (origin n) extent ↔
        n < K.count ∧ (a, b) ∈ cellsFrom (K.place (K.spot n) (.both 0)) extent) := fun n => by
      rw [hcount]
      exact and_congr_right fun hn => by rw [(hspot n hn).2]
    simp only [htile]
    rw [hplaces.mem_cellsFrom_iff ha hb]
    subst hKdef
    rfl
  · have hgaps := card_gaps_add
      (fun n hn => cellsFrom_subset (hinside n hn)) happart fun n _ => card_cellsFrom _ _
    rwa [card_cellsFrom] at hgaps

/-- **The tiles of a grid partition its canvas**, at every limit at which the grid gives one, and it
does in plain arithmetic. -/
theorem tiles_partition_canvas (hN : 1 ≤ N) (extent gap : Pair Nat) :
    (∃ g size place origin, LaysOut .unbounded N extent gap g size place origin) ∧
      ∀ lim g size place origin, LaysOut lim N extent gap g size place origin →
        Partitions N extent gap g size place origin :=
  ⟨exists_laysOut N extent gap, fun _ _ _ _ _ h => h.partitions hN⟩

/-- Six samples of extent `1 x 2` on a grid of `2 x 3` tiles. -/
theorem tiles_partition_canvas_six : 1 ≤ 6 ∧
    Partitions 6 ⟨1, 2⟩ ⟨2, 1⟩ ⟨6, ⟨2, 3⟩⟩ ⟨4, 8⟩ (fun n => ⟨n % 2, n / 2⟩)
      fun n => ⟨n % 2 * 3, n / 2 * 3⟩ := by
  have hN : 1 ≤ 6 := by decide
  refine ⟨hN, (tiles_partition_canvas hN ⟨1, 2⟩ ⟨2, 1⟩).2 .word64 _ _ _ _ ⟨?_, ?_, ?_, ?_⟩⟩
  · decide +kernel
  · intro d
    cases d <;> decide
  · exact fun n _ => rfl
  · decide

end Grid

end CanvasFusion
