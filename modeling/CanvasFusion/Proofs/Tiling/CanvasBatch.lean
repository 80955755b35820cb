import CanvasFusion.Proofs.Tiling.CanvasSamples

/-!
# Batches on a canvas

A canvas of a grid holds a batch: the element of sample `n` at a place is the element of the canvas
at that place from the origin of tile `n` on (`HoldsBatch`). Gaps are taken as they are given, also
beside a single tile, where they do nothing.

**Theorem (binary_broadcast_on_canvas).** An operand that is the same for all samples can be
combined with a canvas as it is. On the tiles this gives what it gives on the batch, on either side
of any binary operator.
-/

namespace CanvasFusion

open AxisMap Canvas Pair Shape Operator Grid

open Value

/-! ## Grids -/

namespace Grid

variable {g : Grid} {extent gap : Pair Nat}

/-- There are tiles, one for each sample. -/
structure Packed (g : Grid) : Prop where
  tiles_pos : ∀ d, 0 < g.tiles.get d
  slots_eq : g.slots = g.count

theorem packed_of_ofCount {lim : Limit} {N : Nat} (h : ofCount lim N = .ok g) : g.Packed :=
  ⟨(ofCount_spec h).2.1, (ofCount_spec h).2.2⟩

/-- The canvas of a grid with the gaps as they are given. -/
def spaced (g : Grid) (extent gap : Pair Nat) : Canvas := ⟨g.tiles, extent, gap⟩

theorem places_spaced (hg : g.Packed) (extent gap : Pair Nat) :
    g.Places extent gap (g.spaced extent gap) where
  tiles_pos := hg.tiles_pos
  count_eq := rfl
  extent_eq := rfl
  length_ok d := canvasExtent_unbounded (hg.tiles_pos d) _ _
  origin_ok n _ := tileOrigin_ok (K := g.spaced extent gap) ⟨hg.tiles_pos⟩ rfl n

end Grid

/-! ## Batches -/

section Batches

variable {α : Type} [Scalar α] {g : Grid} {m : AxisMap} {C N : Nat} {extent gap S : Pair Nat}
  {x X b W a : Value α} {s : Shape}

/-- The canvas `X` holds the batch `x`, each sample in its tile. -/
structure HoldsBatch (g : Grid) (m : AxisMap) (C : Nat) (extent gap : Pair Nat) (x X : Value α) :
    Prop where
  full : x.Full
  shape : x.shape = m.arrange g.count C extent
  canvas_full : X.Full
  canvas_shape : ∃ size : Pair Nat, X.shape = m.arrange 1 C size ∧
    ∀ d, g.canvasExtent .unbounded d (extent.get d) (gap.get d) = .ok (size.get d)
  tile : ∀ n < g.count, ∃ origin, g.tileOrigin .unbounded n extent gap = .ok origin ∧
    ∀ c < C, ∀ y : Pair Nat, (∀ d, y.get d < extent.get d) →
      X.cell (m.arrange 0 c (.ofFn fun d => origin.get d + y.get d)) = x.cell (m.arrange n c y)

/-- The cell of a tile, counted from its origin. -/
theorem Canvas.origin_add (K : Canvas) (i y : Pair Nat) :
    (ofFn fun d => (K.place i (.both 0)).get d + y.get d) = K.place i y := by
  refine ext_get fun d => ?_
  simp

theorem HoldsBatch.onCanvas (h : HoldsBatch g m C extent gap x X) (hg : g.Packed) :
    OnCanvas (g.spaced extent gap) m C x X := by
  have hplaces := places_spaced hg extent gap
  obtain ⟨size, hshape, hsize⟩ := h.canvas_shape
  have hsize' : size = (g.spaced extent gap).size := by
    refine ext_get fun d => ?_
    grind [size_get, Places.length_ok]
  refine ⟨h.full, ?_, h.canvas_full, hsize' ▸ hshape, ?_⟩
  · rw [h.shape, ← hg.slots_eq]
    rfl
  · intro n c y hn hc hy
    have hn' : n < g.slots := hn
    obtain ⟨origin, horigin, htile⟩ := h.tile n (hg.slots_eq ▸ hn')
    cases (hplaces.origin_ok n hn').symm.trans horigin
    rw [← htile c hc y hy, origin_add]

theorem OnCanvas.holdsBatch (h : OnCanvas (g.spaced extent gap) m C x X) (hg : g.Packed) :
    HoldsBatch g m C extent gap x X := by
  have hplaces := places_spaced hg extent gap
  refine ⟨h.full, ?_, h.canvas_full, ⟨_, h.canvas_shape, ?_⟩, ?_⟩
  · rw [h.shape, ← hg.slots_eq]
    rfl
  · intro d
    rw [size_get]
    exact hplaces.length_ok d
  · intro n hn
    rw [← hg.slots_eq] at hn
    refine ⟨_, hplaces.origin_ok n hn, ?_⟩
    intro c hc y hy
    rw [origin_add]
    exact h.tile hn hc hy

/-- A canvas that holds the samples of a batch holds the batch. -/
theorem HoldsSamples.holdsBatch (h : HoldsSamples g m C extent gap (fun n => x.sample m.batch n) X)
    (hg : g.Packed) (hm : m.Valid) (hx : x.Full) (hshape : x.shape = m.arrange g.count C extent) :
    HoldsBatch g m C extent gap x X := by
  refine ⟨hx, hshape, h.full, h.shape, ?_⟩
  intro n hn
  obtain ⟨origin, horigin, htile⟩ := h.tile n (hg.slots_eq ▸ hn)
  refine ⟨origin, horigin, ?_⟩
  intro c hc y hy
  have hsample : (x.sample m.batch n).shape = m.arrange 1 C extent := by
    show x.shape.set m.batch 1 = _
    rw [hshape, set_batch hm]
  have hin : (x.sample m.batch n).shape.Within (m.arrange 0 c y) := by grind [within_arrange]
  rw [htile c hc y hy, cell_sample hin, set_batch hm]

/-- Any batch can be laid out, with zeros between its tiles. -/
theorem exists_holdsBatch (gap : Pair Nat) (hg : g.Packed) (hm : m.Valid) (hx : x.Full)
    (hshape : x.shape = m.arrange g.count C extent) :
    ∃ X, HoldsBatch g m C extent gap x X ∧ ZeroBetween g m extent gap X := by
  have hsamples : ∀ n < g.slots, (x.sample m.batch n).Full ∧
      (x.sample m.batch n).shape = m.arrange 1 C extent := by
    intro n _
    refine ⟨full_sample, ?_⟩
    show x.shape.set m.batch 1 = _
    rw [hshape, set_batch hm]
  obtain ⟨X, hX, hzero⟩ := exists_holdsSamples gap hg.tiles_pos hm hsamples
  exact ⟨X, hX.holdsBatch hg hm hx hshape, hzero⟩

/-- Whatever its gaps hold, a canvas holds some batch. -/
theorem Canvas.exists_onCanvas {K : Canvas} (hm : m.Valid) (hX : X.Full)
    (hshape : X.shape = m.arrange 1 C K.size) : ∃ x, OnCanvas K m C x X := by
  refine ⟨ofFn (m.arrange K.count C K.extent) fun index =>
    X.cell (m.arrange 0 (Shape.extent index m.channel)
      (K.place (K.spot (Shape.extent index m.batch))
      (.ofFn fun d => Shape.extent index (m.fuse.get d)))), full_ofFn _ _, rfl, hX, hshape, ?_⟩
  intro n c y hn hc hy
  have hcells : (ofFn fun d => Shape.extent (m.arrange n c y) (m.fuse.get d)) = y := by
    refine ext_get fun d => ?_
    rw [ofFn_get, arrange_fuse hm]
  rw [cell_ofFn ((within_arrange hm).2 ⟨hn, hc, hy⟩), arrange_batch hm,
    arrange_channel hm, hcells]

/-! ## Gaps that are cleared -/

/-- The canvas `W` is the canvas `X` with zeros at the cells that lie in no tile. -/
structure Cleared (g : Grid) (m : AxisMap) (extent gap : Pair Nat) (X W : Value α) : Prop where
  full : W.Full
  shape : W.shape = X.shape
  tile : ∀ c Y, X.shape.Within (m.arrange 0 c Y) → g.InTile extent gap Y →
    W.cell (m.arrange 0 c Y) = X.cell (m.arrange 0 c Y)
  zero : ZeroBetween g m extent gap W

/-- Canvases that hold one batch differ in their gaps only. -/
theorem HoldsBatch.cleared (hX : HoldsBatch g m C extent gap x X)
    (hW : HoldsBatch g m C extent gap x W) (hg : g.Packed) (hm : m.Valid)
    (hzero : ZeroBetween g m extent gap W) : Cleared g m extent gap X W where
  full := hW.canvas_full
  shape := (hW.onCanvas hg).canvas_shape.trans (hX.onCanvas hg).canvas_shape.symm
  zero := hzero
  tile := by
    rintro c Y hin ⟨n, hn, origin, horigin, hcell⟩
    have hc : c < C := by
      rw [(hX.onCanvas hg).canvas_shape, within_arrange hm] at hin
      exact hin.2.1
    -- The place of the cell in its tile.
    have hplace : Y =
        .ofFn fun d => origin.get d + (ofFn fun d => Y.get d - origin.get d).get d := by
      refine ext_get fun d => ?_
      rw [ofFn_get, ofFn_get, Nat.add_sub_cancel' (hcell d).1]
    have hinside : ∀ d, (ofFn fun d => Y.get d - origin.get d).get d < extent.get d := by
      grind [ofFn_get]
    rw [hg.slots_eq] at hn
    obtain ⟨o, ho, htile⟩ := hX.tile n hn
    obtain ⟨o', ho', htile'⟩ := hW.tile n hn
    cases horigin.symm.trans ho
    cases horigin.symm.trans ho'
    rw [hplace, htile c hc _ hinside, htile' c hc _ hinside]

/-- The place of a cell in a list of the cells of a canvas, row by row in the order of the axes. -/
def AxisMap.rowMajor (m : AxisMap) (size Y : Pair Nat) : Nat :=
  if m.fuse.first < m.fuse.second then Y.first * size.second + Y.second
  else Y.second * size.first + Y.first

theorem Canvas.rowMajor_eq (m : AxisMap) (size Y : Pair Nat) :
    m.rowMajor size Y = Y.get (outer m) * size.get (inner m) + Y.get (inner m) := by
  unfold rowMajor outer inner
  by_cases h : m.fuse.first < m.fuse.second
  · rw [if_pos h, if_pos h, if_pos h]
    rfl
  · rw [if_neg h, if_neg h, if_neg h]
    rfl

/-- The list has an entry for each cell of a canvas: one if the cell lies in a tile, and zero if it
does not. -/
structure MarksTiles (g : Grid) (m : AxisMap) (extent gap size : Pair Nat) (values : List Single) :
    Prop where
  length : values.length = size.first * size.second
  tile : ∀ Y : Pair Nat, (∀ d, Y.get d < size.get d) → g.InTile extent gap Y →
    values[m.rowMajor size Y]? = some .one
  gap : ∀ Y : Pair Nat, (∀ d, Y.get d < size.get d) → ¬ g.InTile extent gap Y →
    values[m.rowMajor size Y]? = some .zero

theorem Canvas.marksTiles_mask (hg : g.Packed) (extent gap : Pair Nat) (m : AxisMap) :
    MarksTiles g m extent gap (g.spaced extent gap).size ((g.spaced extent gap).mask m) := by
  have hplaces := places_spaced hg extent gap
  have hentry : ∀ Y : Pair Nat, (∀ d, Y.get d < (g.spaced extent gap).size.get d) →
      (¬ (g.spaced extent gap).InGap Y ↔ g.InTile extent gap Y) ∧
      ((g.spaced extent gap).mask m)[m.rowMajor (g.spaced extent gap).size Y]? =
        some (if ∀ d, (g.spaced extent gap).isTile d (Y.get d) = true then .one else .zero) := by
    intro Y hY
    simp only [size_get] at hY
    refine ⟨(hplaces.inTile_iff hY).symm, ?_⟩
    rw [rowMajor_eq, size_get, getElem?_mask hY]
  have htile : ∀ Y : Pair Nat, (∀ d, (g.spaced extent gap).isTile d (Y.get d) = true) ↔
      ¬ (g.spaced extent gap).InGap Y := by
    intro Y
    simp [isTile, InGap]
  refine ⟨?_, ?_, ?_⟩
  · rw [length_mask]
    unfold outer inner
    by_cases h : m.fuse.first < m.fuse.second
    · rw [if_pos h, if_pos h]
      rfl
    · rw [if_neg h, if_neg h]
      exact Nat.mul_comm _ _
  · grind
  · intro Y hY hout
    obtain ⟨hiff, hget⟩ := hentry Y hY
    rw [hget, if_neg fun hall => hout (hiff.1 ((htile Y).1 hall))]

/-! ## Operands that are the same for all samples -/

theorem yields_combined {kind : BinaryKind} (ha : a.Full) (hb : b.Full)
    (h : broadcast a.shape b.shape = .ok s) :
    (binary kind).Yields [a, b] (ofFn s fun index =>
      kind.apply (a.cell (spreadIndex a.shape index)) (b.cell (spreadIndex b.shape index))) :=
  ⟨h, combine_ok ha hb h⟩

/-- What spreads over a batch and is the same for all samples can be combined with the batch and
with its canvas, on either side. -/
theorem Shape.Invariant.broadcasts (hs : s.Invariant m) (hm : m.Valid)
    (h : broadcast (m.arrange N C S) s = .ok (m.arrange N C S)) (N' : Nat) (S' : Pair Nat) :
    broadcast (m.arrange N' C S') s = .ok (m.arrange N' C S') ∧
      broadcast s (m.arrange N' C S') = .ok (m.arrange N' C S') := by
  have hspreads : s.Spreads (m.arrange N' C S') := hs.spreads hm (spreads_of_broadcast h).2
  have hself : Spreads (m.arrange N' C S') (m.arrange N' C S') :=
    ⟨Nat.le_refl _, fun i _ => .inr (by rw [Nat.sub_self, Nat.add_zero])⟩
  exact ⟨broadcast_of_spreads hself hspreads (.inl rfl),
    broadcast_of_spreads hspreads hself (.inr rfl)⟩

/-- **Operands that are the same for all samples act on a canvas as on the batch.** -/
theorem binary_broadcast_on_canvas (hgrid : Grid.ofCount .unbounded N = .ok g) (hm : m.Valid)
    (hX : HoldsBatch g m C extent gap x X) (hb : b.Full)
    (hspread : Operator.broadcast x.shape b.shape = .ok x.shape)
    (hinvariant : m.isSampleInvariant b.shape = .ok true) (kind : BinaryKind) :
    (∃ y Y, (Operator.binary kind).Yields [x, b] y ∧ (Operator.binary kind).Yields [X, b] Y ∧
      Y.shape = X.shape ∧ HoldsBatch g m C extent gap y Y) ∧
    ∃ y Y, (Operator.binary kind).Yields [b, x] y ∧ (Operator.binary kind).Yields [b, X] Y ∧
      Y.shape = X.shape ∧ HoldsBatch g m C extent gap y Y := by
  have hg := Grid.packed_of_ofCount hgrid
  have hK : (g.spaced extent gap).Tiled := ⟨hg.tiles_pos⟩
  have hs := Shape.invariant_of_check hinvariant
  have hon := hX.onCanvas hg
  have hx : Operand (g.spaced extent gap) m C x X := .canvas hon
  have hb' : Operand (g.spaced extent gap) m C b b := .spread rfl hs
  rw [hon.shape] at hspread
  obtain ⟨hbatch, hbatch'⟩ := hs.broadcasts hm hspread (g.spaced extent gap).count extent
  obtain ⟨hcanvas, hcanvas'⟩ := hs.broadcasts hm hspread 1 (g.spaced extent gap).size
  have hleft := binary_onCanvas hx hb' hK hm kind
  have hright := binary_onCanvas hb' hx hK hm kind
  constructor
  · refine ⟨_, _, yields_combined hX.full hb ?_, yields_combined hX.canvas_full hb ?_,
      hon.canvas_shape.symm, hleft.holdsBatch hg⟩
    · rw [hon.shape]
      exact hbatch
    · rw [hon.canvas_shape]
      exact hcanvas
  · refine ⟨_, _, yields_combined hb hX.full ?_, yields_combined hb hX.canvas_full ?_,
      hon.canvas_shape.symm, hright.holdsBatch hg⟩
    · rw [hon.shape]
      exact hbatch'
    · rw [hon.canvas_shape]
      exact hcanvas'

end Batches

/-! ## Six samples -/

/-- Roles of axes in an unusual order. The second dimension of the canvas lies along the first
axis. -/
def AxisMap.crossed : AxisMap := ⟨1, 3, ⟨2, 0⟩⟩

theorem AxisMap.valid_crossed : crossed.Valid := ⟨by decide, by decide⟩

theorem ofCount_six : ofCount .unbounded 6 = .ok ⟨6, ⟨2, 3⟩⟩ := by decide +kernel

/-- Six samples of two channels, all elements of which are different. -/
def sixSamples : Value (Exact default) :=
  ofFn (crossed.arrange 6 2 ⟨1, 2⟩) fun index => ⟨position [2, 6, 1, 2] index⟩

theorem binary_broadcast_on_canvas_six : ∃ X y Y y' Y' : Value (Exact default),
    HoldsBatch ⟨6, ⟨2, 3⟩⟩ .crossed 2 ⟨1, 2⟩ ⟨2, 1⟩ sixSamples X ∧
    AxisMap.crossed.isSampleInvariant [1, 2] = .ok true ∧
    (Operator.binary .sub).Yields [sixSamples, ⟨[1, 2], #[⟨10⟩, ⟨20⟩]⟩] y ∧
    (Operator.binary .sub).Yields [X, ⟨[1, 2], #[⟨10⟩, ⟨20⟩]⟩] Y ∧
    Y.shape = [8, 1, 4, 2] ∧ HoldsBatch ⟨6, ⟨2, 3⟩⟩ .crossed 2 ⟨1, 2⟩ ⟨2, 1⟩ y Y ∧
    (Operator.binary .sub).Yields [⟨[1, 2], #[⟨10⟩, ⟨20⟩]⟩, sixSamples] y' ∧
    (Operator.binary .sub).Yields [⟨[1, 2], #[⟨10⟩, ⟨20⟩]⟩, X] Y' ∧
    HoldsBatch ⟨6, ⟨2, 3⟩⟩ .crossed 2 ⟨1, 2⟩ ⟨2, 1⟩ y' Y' := by
  have hg := Grid.packed_of_ofCount ofCount_six
  have hsamples : sixSamples.shape = AxisMap.crossed.arrange 6 2 ⟨1, 2⟩ := rfl
  obtain ⟨X, hX, -⟩ := exists_holdsBatch ⟨2, 1⟩ hg AxisMap.valid_crossed (full_ofFn _ _) hsamples
  have hinvariant : AxisMap.crossed.isSampleInvariant [1, 2] = .ok true := by decide
  obtain ⟨⟨y, Y, hy, hY, hshape, hon⟩, y', Y', hy', hY', -, hon'⟩ := binary_broadcast_on_canvas
    ofCount_six AxisMap.valid_crossed hX (b := ⟨[1, 2], #[⟨10⟩, ⟨20⟩]⟩) rfl (by decide)
    hinvariant .sub
  have hcanvas : Y.shape = [8, 1, 4, 2] := hshape.trans (hX.onCanvas hg).canvas_shape
  exact ⟨X, y, Y, y', Y', hX, hinvariant, hy, hY, hcanvas, hon, hy', hY', hon'⟩

end CanvasFusion
