import CanvasFusion.Proofs.Eval.Sample
import CanvasFusion.Proofs.Fusion.Settled
import CanvasFusion.Proofs.Tiling.AdapterValues

/-!
# Samples on a canvas

A canvas on a grid holds single samples, each at the origin that the grid gives its tile
(`HoldsSamples`). A cell that lies in no tile is a gap cell (`ZeroBetween`).

**Theorem (window_on_canvas).** A sliding window with an admissible gap does to the tiles of a
canvas what it does to the samples: a convolution if the gap cells hold zeros, a pooling without
padding whatever they hold. The tiles of the result are the forward gap apart.

**Theorem (pad_on_canvas).** Padding with zeros does to the tiles what it does to the samples if the
gaps have room for it and hold zeros. What is left of the gaps holds zeros.

Both are proved by laying the samples out as a batch (`stack`), for which they are known.
-/

namespace CanvasFusion

open AxisMap Operator Canvas Pair Shape Grid GapRule

open Value

/-! ## Grids as canvases -/

/-- In a tile, the remainder by the pitch is the offset in the tile. -/
theorem Canvas.mod_lt_of_tile {K : Canvas} {d : Dim} {i Y : Nat} (hle : i * K.pitch d ≤ Y)
    (hlt : Y < i * K.pitch d + K.extent.get d) : Y % K.pitch d < K.extent.get d := by
  obtain ⟨y, rfl⟩ := Nat.exists_eq_add_of_le hle
  have hy : y < K.extent.get d := by omega
  have hpitch : y < K.pitch d := Nat.lt_of_lt_of_le hy (Nat.le_add_right _ _)
  rwa [Nat.add_comm, Nat.add_mul_mod_self_right, Nat.mod_eq_of_lt hpitch]

namespace Grid

variable {g : Grid} {extent gap Y : Pair Nat} {n : Nat} {d : Dim}

/-- The number of tiles. -/
def slots (g : Grid) : Nat := g.tiles.first * g.tiles.second

/-- The cell lies in the tile of a sample. -/
def InTile (g : Grid) (extent gap Y : Pair Nat) : Prop :=
  ∃ n < g.slots, ∃ origin, g.tileOrigin .unbounded n extent gap = .ok origin ∧
    ∀ d, origin.get d ≤ Y.get d ∧ Y.get d < origin.get d + extent.get d

/-- The canvas has its tiles where the grid puts them. -/
structure Places (g : Grid) (extent gap : Pair Nat) (K : Canvas) : Prop extends K.Tiled where
  count_eq : K.count = g.slots
  extent_eq : K.extent = extent
  length_ok : ∀ d, g.canvasExtent .unbounded d (extent.get d) (gap.get d) = .ok (K.length d)
  origin_ok : ∀ n < g.slots,
    g.tileOrigin .unbounded n extent gap = .ok (K.place (K.spot n) (.both 0))

/-- A cell lies in a tile exactly if it lies in no gap. -/
theorem Places.inTile_iff {K : Canvas} (h : g.Places extent gap K)
    (hY : ∀ d, Y.get d < K.length d) : g.InTile extent gap Y ↔ ¬ K.InGap Y := by
  constructor
  · intro htile hgap
    obtain ⟨n, hn, origin, horigin, hin⟩ := htile
    obtain ⟨d, hd⟩ := hgap
    cases (h.origin_ok n hn).symm.trans horigin
    obtain ⟨hle, hlt⟩ := hin d
    rw [place_get, both_get, Nat.add_zero] at hle hlt
    rw [← h.extent_eq] at hlt
    exact Nat.not_le_of_lt (mod_lt_of_tile hle hlt) hd
  · intro hgap
    obtain ⟨n, hn, y, hy, rfl⟩ := h.exists_tile hY hgap
    rw [h.count_eq] at hn
    refine ⟨n, hn, _, h.origin_ok n hn, ?_⟩
    intro d
    rw [place_get, place_get, both_get, Nat.add_zero, ← h.extent_eq]
    exact ⟨Nat.le_add_right _ _, Nat.add_lt_add_left (hy d) _⟩

/-- The canvas of a grid. A gap beside a single tile is none. -/
def canvas (g : Grid) (extent gap : Pair Nat) : Canvas where
  tiles := g.tiles
  extent := extent
  gap := .ofFn fun d => if g.isTiled d then gap.get d else 0

theorem canvas_gap (g : Grid) (extent gap : Pair Nat) (d : Dim) :
    (g.canvas extent gap).gap.get d = if g.isTiled d then gap.get d else 0 := ofFn_get _ d

variable (hg : ∀ d, 0 < g.tiles.get d)

include hg

theorem canvas_valid : (g.canvas extent gap).Valid := by
  refine ⟨⟨hg⟩, ?_⟩
  intro d hd
  have huntiled : ¬ 1 < g.tiles.get d := by
    show ¬ 1 < (g.canvas extent gap).tiles.get d
    omega
  rw [canvas_gap, isTiled, decide_eq_false huntiled]
  rfl

theorem canvasExtent_eq (d : Dim) :
    g.canvasExtent .unbounded d (extent.get d) (gap.get d) =
      .ok ((g.canvas extent gap).length d) := by
  grind [canvasExtent_unbounded, length, canvas_gap, isTiled, canvas]

theorem tileOrigin_eq (hn : n < g.slots) :
    g.tileOrigin .unbounded n extent gap =
      .ok ((g.canvas extent gap).place ((g.canvas extent gap).spot n) (.both 0)) := by
  have hK : (g.canvas extent gap).Valid := canvas_valid hg
  refine tileOrigin_of_steps hK.toTiled rfl n fun d => ?_
  rw [pitch, canvas_gap]
  by_cases hd : 1 < g.tiles.get d
  · rw [isTiled, decide_eq_true hd]
    rfl
  · -- The only tile starts at the edge, whatever the gap.
    have hzero : ((g.canvas extent gap).spot n).get d = 0 := by
      have hlt : ((g.canvas extent gap).spot n).get d < g.tiles.get d := hK.spot_lt hn d
      omega
    rw [hzero, Nat.zero_mul, Nat.zero_mul]

theorem places_canvas : g.Places extent gap (g.canvas extent gap) where
  toTiled := (canvas_valid hg).toTiled
  count_eq := rfl
  extent_eq := rfl
  length_ok := canvasExtent_eq hg
  origin_ok _ hn := tileOrigin_eq hg hn

end Grid

/-! ## Samples -/

section Samples

variable {α : Type} {g : Grid} {m : AxisMap} {C n N : Nat} {extent gap : Pair Nat}
  {xs : Nat → Value α} {X y Y : Value α}

/-- The canvas `X` holds the samples `xs`, each in its tile. -/
structure HoldsSamples [Scalar α] (g : Grid) (m : AxisMap) (C : Nat) (extent gap : Pair Nat)
    (xs : Nat → Value α) (X : Value α) : Prop where
  sample : ∀ n < g.slots, (xs n).Full ∧ (xs n).shape = m.arrange 1 C extent
  full : X.Full
  shape : ∃ size : Pair Nat, X.shape = m.arrange 1 C size ∧
    ∀ d, g.canvasExtent .unbounded d (extent.get d) (gap.get d) = .ok (size.get d)
  tile : ∀ n < g.slots, ∃ origin, g.tileOrigin .unbounded n extent gap = .ok origin ∧
    ∀ c < C, ∀ y : Pair Nat, (∀ d, y.get d < extent.get d) →
      X.cell (m.arrange 0 c (.ofFn fun d => origin.get d + y.get d)) = (xs n).cell (m.arrange 0 c y)

/-- The cells of the canvas that lie in no tile hold zeros. -/
def ZeroBetween [Scalar α] (g : Grid) (m : AxisMap) (extent gap : Pair Nat) (X : Value α) : Prop :=
  ∀ c Y, X.shape.Within (m.arrange 0 c Y) → ¬ g.InTile extent gap Y →
    X.cell (m.arrange 0 c Y) = Scalar.zero

variable [Scalar α]

/-- The samples as a batch. -/
def stack (m : AxisMap) (N C : Nat) (extent : Pair Nat) (xs : Nat → Value α) : Value α :=
  ofFn (m.arrange N C extent) fun index => (xs (Shape.extent index m.batch)).cell
    (index.set m.batch 0)

theorem HoldsSamples.congr {ys : Nat → Value α} (h : HoldsSamples g m C extent gap xs X)
    (hys : ∀ n < g.slots, xs n = ys n) : HoldsSamples g m C extent gap ys X := by
  refine ⟨fun n hn => hys n hn ▸ h.sample n hn, h.full, h.shape, ?_⟩
  grind [tile]

section Laid

variable (hg : ∀ d, 0 < g.tiles.get d) (hm : m.Valid)

include hm

theorem cell_stack {c : Nat} {y : Pair Nat} (hn : n < N) (hc : c < C)
    (hy : ∀ d, y.get d < extent.get d) :
    (stack m N C extent xs).cell (m.arrange n c y) = (xs n).cell (m.arrange 0 c y) := by
  rw [stack, cell_ofFn ((within_arrange hm).2 ⟨hn, hc, hy⟩), arrange_batch hm,
    set_batch hm]

/-- The samples of the batch are the samples. -/
theorem sample_stack (hn : n < N) (hfull : (xs n).Full)
    (hshape : (xs n).shape = m.arrange 1 C extent) :
    (stack m N C extent xs).sample m.batch n = xs n := by
  have hbatch : (stack m N C extent xs).shape.set m.batch 1 = m.arrange 1 C extent :=
    set_batch hm
  apply Eq.symm
  apply eq_sample hfull (hshape.trans hbatch.symm)
  · intro i hi _
    rw [hshape] at hi
    obtain ⟨n', c, y, rfl, hn', hc, hy⟩ := exists_arrange hm hi
    obtain rfl : n' = 0 := Nat.lt_one_iff.1 hn'
    rw [set_batch hm, cell_stack hm hn hc hy]
  · show n < Shape.extent (m.arrange N C extent) m.batch
    rwa [arrange_batch hm]

/-- Zeros between the tiles are zeros in the gaps. -/
theorem Grid.Places.zeroBetween_iff {K : Canvas} (h : g.Places extent gap K)
    (hX : X.shape = m.arrange 1 C K.size) : ZeroBetween g m extent gap X ↔ ZeroGaps K m X := by
  have hiff : ∀ {c Z}, X.shape.Within (m.arrange 0 c Z) →
      (¬ g.InTile extent gap Z ↔ K.InGap Z) := by
    intro c Z hin
    rw [hX, within_arrange hm] at hin
    have hlt := hin.2.2
    simp only [size_get] at hlt
    rw [h.inTile_iff hlt, not_not]
  constructor
  · intro h c Z hin hgap
    exact h c Z hin ((hiff hin).2 hgap)
  · intro h c Z hin hnot
    exact h c Z hin ((hiff hin).1 hnot)

include hg

theorem HoldsSamples.onCanvas (h : HoldsSamples g m C extent gap xs X) :
    OnCanvas (g.canvas extent gap) m C (stack m g.slots C extent xs) X := by
  obtain ⟨size, hshape, hsize⟩ := h.shape
  have hsize' : size = (g.canvas extent gap).size := by
    apply ext_get
    grind [size_get, canvasExtent_eq]
  refine ⟨full_ofFn _ _, rfl, h.full, hsize' ▸ hshape, ?_⟩
  intro n c y hn hc hy
  have hn' : n < g.slots := hn
  have hy' : ∀ d, y.get d < extent.get d := hy
  obtain ⟨origin, horigin, htile⟩ := h.tile n hn'
  cases (tileOrigin_eq hg hn').symm.trans horigin
  rw [cell_stack hm hn' hc hy', ← htile c hc y hy']
  refine congrArg (fun Y => X.cell (m.arrange 0 c Y)) (ext_get fun d => ?_)
  simp

theorem OnCanvas.holdsSamples (h : OnCanvas (g.canvas extent gap) m C y Y) :
    HoldsSamples g m C extent gap (fun n => y.sample m.batch n) Y := by
  have hshape : ∀ n, (y.sample m.batch n).shape = m.arrange 1 C extent := by
    intro n
    show y.shape.set m.batch 1 = _
    rw [h.shape, set_batch hm]
    rfl
  refine ⟨fun n _ => ⟨full_sample, hshape n⟩, h.canvas_full, ?_, ?_⟩
  · refine ⟨(g.canvas extent gap).size, h.canvas_shape, ?_⟩
    grind [size_get, canvasExtent_eq]
  · intro n hn
    refine ⟨_, tileOrigin_eq hg hn, ?_⟩
    intro c hc u hu
    have hin : (y.sample m.batch n).shape.Within (m.arrange 0 c u) := by grind [within_arrange]
    rw [cell_sample hin, set_batch hm, ← h.tile hn hc hu]
    refine congrArg (fun Z => Y.cell (m.arrange 0 c Z)) (ext_get fun d => ?_)
    simp

theorem zeroBetween_iff (hX : X.shape = m.arrange 1 C (g.canvas extent gap).size) :
    ZeroBetween g m extent gap X ↔ ZeroGaps (g.canvas extent gap) m X :=
  (places_canvas hg).zeroBetween_iff hm hX

end Laid

open Classical in
/-- Any samples can be laid out, with zeros between their tiles. -/
theorem exists_holdsSamples (gap : Pair Nat) (hg : ∀ d, 0 < g.tiles.get d) (hm : m.Valid)
    (hxs : ∀ n < g.slots, (xs n).Full ∧ (xs n).shape = m.arrange 1 C extent) :
    ∃ X, HoldsSamples g m C extent gap xs X ∧ ZeroBetween g m extent gap X := by
  have hK : (g.canvas extent gap).Tiled := (canvas_valid hg).toTiled
  let cellAt : Index → Pair Nat := fun index => .ofFn fun d => Shape.extent index (m.fuse.get d)
  have hcellAt : ∀ n c Y, cellAt (m.arrange n c Y) = Y := by
    intro n c Y
    refine ext_get fun d => ?_
    rw [ofFn_get, arrange_fuse hm]
  let F : Index → α := fun index =>
    if (g.canvas extent gap).InGap (cellAt index) then Scalar.zero
    else (xs ((g.canvas extent gap).sampleAt (cellAt index))).cell
      (m.arrange 0 (Shape.extent index m.channel) ((g.canvas extent gap).offsetAt (cellAt index)))
  have hon : OnCanvas (g.canvas extent gap) m C (stack m g.slots C extent xs)
      (ofFn (m.arrange 1 C (g.canvas extent gap).size) F) := by
    refine onCanvas_ofFn hK hm ?_
    intro n c y hn hc hy
    have hnot : ¬ (g.canvas extent gap).InGap
        ((g.canvas extent gap).place ((g.canvas extent gap).spot n) y) := by
      intro hgap
      obtain ⟨d, hd⟩ := hgap
      grind [place_mod]
    simp only [F, hcellAt, if_neg hnot, sampleAt_place hy, offsetAt_place hy,
      arrange_channel hm, arrange_batch hm, set_batch hm]
  refine ⟨_, (hon.holdsSamples hg hm).congr ?_, (zeroBetween_iff hg hm hon.canvas_shape).2 ?_⟩
  · grind [sample_stack]
  · refine zeroGaps_ofFn hm ?_
    grind

end Samples

/-! ## Sliding windows -/

/-- The window along a dimension of the canvas. -/
def windowAlong (order : Pair Dim) (kernel stride dilation : Pair Nat) (pad : Pair Padding)
    (extent output : Pair Nat) (d : Dim) : Window where
  kernel := kernel.get (order.get d)
  stride := stride.get (order.get d)
  dilation := dilation.get (order.get d)
  pad := pad.get (order.get d)
  input := extent.get d
  output := output.get d

/-- A sliding window fits the samples of a grid, and admits the gaps between the tiles. A gap beside
a single tile does not matter. -/
structure Admits (g : Grid) (m : AxisMap) (l : Layout) (order : Pair Dim)
    (kernel stride dilation : Pair Nat) (pad : Pair Padding) (extent gap output : Pair Nat) :
    Prop where
  tiles_pos : ∀ d, 0 < g.tiles.get d
  map : m.Valid
  order_eq : m.spatialOrder l = some order
  fits : ∀ d, windowOutput .unbounded (extent.get d) (kernel.get (order.get d))
    (stride.get (order.get d)) (dilation.get (order.get d)) (pad.get (order.get d)) =
      .ok (some (output.get d))
  tiled : ∀ d, g.isTiled d = true →
    (windowAlong order kernel stride dilation pad extent output d).admissible .unbounded
      (gap.get d) = .ok (gap.get d)

/-- The roles stay those of four axes when the dimensions of the canvas are swapped. -/
theorem AxisMap.Valid.swap {m : AxisMap} (hm : m.Valid) :
    (AxisMap.mk m.batch m.channel ⟨m.fuse.second, m.fuse.first⟩).Valid := by
  have hperm : [m.batch, m.channel, m.fuse.second, m.fuse.first].Perm m.canonicalPerm :=
    ((List.Perm.swap _ _ _).cons _).cons _
  constructor
  · exact hperm.nodup_iff.2 hm.nodup
  · intro a ha
    exact hm.lt a (hperm.mem_iff.1 ha)

section Windows

variable {g : Grid} {m : AxisMap} {l : Layout} {order : Pair Dim}
  {kernel stride dilation : Pair Nat}
  {pad : Pair Padding} {extent gap output after : Pair Nat} {C C' N : Nat}

namespace Admits

variable (h : Admits g m l order kernel stride dilation pad extent gap output)

include h

theorem window_valid (d : Dim) :
    (windowAlong order kernel stride dilation pad extent output d).Valid :=
  windowOutput_eq_some.1 (h.fits d)

theorem batch_eq : l.batch = m.batch := (spatialOrder_eq_some.1 h.order_eq).1

/-- The axes of the layout are those of the axis map, so they are four. -/
theorem layout_valid : l.isValid = true := by
  obtain ⟨hbatch, hchannel, -⟩ := spatialOrder_eq_some.1 h.order_eq
  have hfirst := spatial_of_order h.order_eq .first
  have hsecond := spatial_of_order h.order_eq .second
  have hne := h.map.fuse_ne
  rw [Layout.isValid_iff]
  obtain ⟨batch, channel, a, b⟩ := l
  obtain ⟨d, e⟩ := order
  cases d <;> cases e <;> simp only [get_first, get_second] at hbatch hchannel hfirst hsecond
  · exact absurd (hfirst.symm.trans hsecond) hne
  · subst hbatch hchannel hfirst hsecond
    exact h.map
  · grind [Valid.swap, map]
  · exact absurd (hfirst.symm.trans hsecond) hne

theorem exists_after : ∃ after : Pair Nat, ∀ d,
    (windowAlong order kernel stride dilation pad extent output d).forward .unbounded (gap.get d) =
      .ok (after.get d) := by
  refine ⟨.ofFn fun d => (window
    (windowAlong order kernel stride dilation pad extent output d)).after (gap.get d), ?_⟩
  intro d
  rw [ofFn_get]
  exact forward_ok (r := .window _) (h.window_valid d) (gap.get d)

/-- The window slides from the canvas of the samples to that of the results. -/
theorem slidesOn (hafter : ∀ d, (windowAlong order kernel stride dilation pad extent output
      d).forward .unbounded (gap.get d) = .ok (after.get d)) :
    SlidesOn (g.canvas extent gap) (g.canvas output after) m l order kernel stride
    dilation pad := by
  refine ⟨canvas_valid h.tiles_pos, canvas_valid h.tiles_pos, rfl, h.map, h.order_eq, ?_⟩
  intro d hd
  have htiled : g.isTiled d = true := (isTiled_iff (h.tiles_pos d)).2 hd
  have hw := h.window_valid d
  have hadmitted := (admissible_ok (r := .window _) hw (gap.get d)).symm.trans (h.tiled d htiled)
  have hforward := (forward_ok (r := .window _) hw (gap.get d)).symm.trans (hafter d)
  apply slides_of_admitted hw rfl rfl
  · rw [canvas_gap, if_pos htiled]
    exact Except.ok.inj hadmitted
  · rw [canvas_gap, canvas_gap, if_pos htiled, if_pos htiled]
    exact (Except.ok.inj hforward).symm

/-- The window fits any number of samples. -/
theorem slid (N C C' : Nat) : Operator.Slid l (m.arrange N C extent) kernel stride dilation pad
    (m.arrange N C' extent) (m.arrange N C' output) where
  rank_eq := by rw [length_arrange, length_arrange]
  window d' := by
    obtain ⟨d, rfl⟩ := h.map.order_surjective h.order_eq d'
    rw [spatial_of_order h.order_eq d, arrange_fuse h.map, arrange_fuse h.map]
    exact h.window_valid d
  off _ hi := h.map.arrange_off h.order_eq hi

end Admits

theorem Admits.convShape {p : Conv2d} {b : Option Shape}
    (h : Admits g m p.layout order kernel p.stride p.dilation p.pad extent gap output)
    (hb : ∀ s, b = some s → s = [C']) (N : Nat) :
    Operator.ConvShape p (m.arrange N C extent) [C', C, kernel.first, kernel.second] b
      (m.arrange N C' output) := by
  obtain ⟨-, hchannel, -⟩ := spatialOrder_eq_some.1 h.order_eq
  refine ⟨length_arrange, h.layout_valid, rfl, ?_, hb, ?_⟩
  · rw [hchannel, arrange_channel h.map]
    rfl
  · rw [hchannel, set_channel h.map]
    exact h.slid N C C'

theorem Admits.poolShape {p : Pool2d}
    (h : Admits g m p.layout order p.kernel p.stride (.both 1) p.pad extent gap output)
    (N C : Nat) :
    Operator.PoolShape p (m.arrange N C extent) (m.arrange N C output) :=
  ⟨length_arrange, h.layout_valid, h.slid N C C⟩

variable {α : Type} [Scalar α] {x X w : Value α} {xs : Nat → Value α} {bias : Option (Value α)}
  {s : Shape}

theorem yields_convolved {p : Conv2d} (hx : x.Full)
    (hw : w.Full) (hbias : ∀ b, bias = some b → b.Full)
    (hshape : Operator.ConvShape p x.shape w.shape (bias.map (·.shape)) s) :
    (conv2d p).Yields (x :: w :: bias.toList) (ofFn s (convolved p x w bias)) := by
  have hfull : ∀ v ∈ x :: w :: bias.toList, v.Full := by grind
  cases bias with
  | none => exact ⟨inferConv_ok hshape, compute_conv (Nat.zero_le 1) hfull hshape⟩
  | some b => exact ⟨inferConv_ok hshape, compute_conv (Nat.le_refl 1) hfull hshape⟩

theorem yields_pooled {p : Pool2d} (hx : x.Full) (hshape : Operator.PoolShape p x.shape s) :
    (pool2d p).Yields [x] (ofFn s (pooled p x)) :=
  ⟨inferPool_ok hshape, pool_ok hx hshape⟩

/-- The convolution of a batch is, sample by sample, that of the samples. -/
theorem conv_alone {p : Conv2d} {n : Nat} (hm : m.Valid)
    (hbatch : p.layout.batch = m.batch) (hn : n < N) (hfull : (xs n).Full)
    (hsample : (xs n).shape = m.arrange 1 C extent) (hw : w.Full)
    (hbias : ∀ b, bias = some b → b.Full)
    (hshape : ∀ N, Operator.ConvShape p (m.arrange N C extent) w.shape (bias.map (·.shape))
      (m.arrange N C' output)) :
    (conv2d p).Yields (xs n :: w :: bias.toList)
      ((ofFn (m.arrange N C' output) (convolved p (stack m N C extent xs) w bias)).sample
        m.batch n) := by
  have halone := yields_convolved hfull hw hbias (hsample ▸ hshape 1)
  have hstack : (stack m N C extent xs).Full := full_ofFn _ _
  have hfulls : ∀ v ∈ stack m N C extent xs :: w :: bias.toList, v.Full := by grind
  have heq := sample_conv hbatch (by simpa [hm] using hn) hfulls
    (yields_convolved hstack hw hbias (hshape N))
    (by rw [sample_stack hm hn hfull hsample]; exact halone) (by simp [set_batch hm])
  rw [← heq]
  exact halone

/-- The pooling of a batch is, sample by sample, that of the samples. -/
theorem pool_alone {p : Pool2d} {n : Nat} (hm : m.Valid) (hbatch : p.layout.batch = m.batch)
    (hn : n < N) (hfull : (xs n).Full) (hsample : (xs n).shape = m.arrange 1 C extent)
    (hshape : ∀ N, Operator.PoolShape p (m.arrange N C extent) (m.arrange N C output)) :
    (pool2d p).Yields [xs n]
      ((ofFn (m.arrange N C output) (pooled p (stack m N C extent xs))).sample m.batch n) := by
  have halone := yields_pooled hfull (hsample ▸ hshape 1)
  have hstack : (stack m N C extent xs).Full := full_ofFn _ _
  have heq := sample_pool hbatch (by simpa [hm] using hn) hstack (yields_pooled hstack (hshape N))
    (by rw [sample_stack hm hn hfull hsample]; exact halone) (by simp [set_batch hm])
  rw [← heq]
  exact halone

/-- A convolution of a canvas whose gaps hold zeros. -/
theorem Admits.conv_samples [LawfulScalar α] {p : Conv2d}
    (h : Admits g m p.layout order kernel p.stride p.dilation p.pad extent gap output)
    (hafter : ∀ d, (windowAlong order kernel p.stride p.dilation p.pad extent output d).forward
      .unbounded (gap.get d) = .ok (after.get d))
    (hX : HoldsSamples g m C extent gap xs X) (hzero : ZeroBetween g m extent gap X) (hw : w.Full)
    (hwshape : w.shape = [C', C, kernel.first, kernel.second])
    (hbias : ∀ b, bias = some b → b.Full ∧ b.shape = [C']) :
    ∃ ys Y, (conv2d p).Yields (X :: w :: bias.toList) Y ∧
      (∀ n < g.slots, (conv2d p).Yields (xs n :: w :: bias.toList) (ys n)) ∧
      HoldsSamples g m C' output after ys Y := by
  have hbshape : ∀ s, bias.map (·.shape) = some s → s = [C'] := by grind [Option.map_eq_some_iff]
  have hbfull : ∀ b, bias = some b → b.Full := fun b hb => (hbias b hb).1
  have hshape : ∀ N, ConvShape p (m.arrange N C extent) w.shape (bias.map (·.shape))
      (m.arrange N C' output) := by grind [convShape]
  have hslides : SlidesOn (g.canvas extent gap) (g.canvas output after) m p.layout order
      ⟨w.shape.extent 2, w.shape.extent 3⟩ p.stride p.dilation p.pad := by
    rw [hwshape]
    exact h.slidesOn hafter
  have hx := hX.onCanvas h.tiles_pos h.map
  have hneutral := ((zeroBetween_iff h.tiles_pos h.map hx.canvas_shape).1 hzero).neutral
  have hy : OnCanvas (g.canvas output after) m C'
      (ofFn (m.arrange g.slots C' output) (convolved p (stack m g.slots C extent xs) w bias))
      (ofFn (m.arrange 1 C' (g.canvas output after).size) (convolved p X w bias)) :=
    conv_onCanvas hslides (hshape _) hx fun _ => hneutral
  have hbatch := h.batch_eq
  refine ⟨_, _, yields_convolved hX.full hw hbfull ?_, ?_, hy.holdsSamples h.tiles_pos h.map⟩
  · rw [hx.canvas_shape]
    exact hslides.convShape (hshape g.slots)
  · grind [conv_alone, HoldsSamples.sample, map]

/-- A pooling without padding, whatever the gaps hold. -/
theorem Admits.pool_samples {p : Pool2d}
    (h : Admits g m p.layout order p.kernel p.stride (.both 1) p.pad extent gap output)
    (hafter : ∀ d, (windowAlong order p.kernel p.stride (.both 1) p.pad extent output d).forward
      .unbounded (gap.get d) = .ok (after.get d))
    (hpad : p.pad = .both ⟨0, 0⟩) (hX : HoldsSamples g m C extent gap xs X) :
    ∃ ys Y, (pool2d p).Yields [X] Y ∧
      (∀ n < g.slots, (pool2d p).Yields [xs n] (ys n)) ∧
      HoldsSamples g m C output after ys Y := by
  have hslides := h.slidesOn hafter
  have hx := hX.onCanvas h.tiles_pos h.map
  have hy := pool_onCanvas hslides hpad (h.poolShape g.slots C) hx
  refine ⟨_, _, yields_pooled hX.full ?_, ?_, hy.holdsSamples h.tiles_pos h.map⟩
  · rw [hx.canvas_shape]
    exact hslides.poolShape (h.poolShape g.slots C)
  · intro n hn
    obtain ⟨hfull, hsample⟩ := hX.sample n hn
    exact pool_alone h.map h.batch_eq hn hfull hsample fun N => h.poolShape N C

/-- **Sliding windows on a canvas.** -/
theorem window_on_canvas (h : Admits g m l order kernel stride dilation pad extent gap output) :
    ∃ after : Pair Nat,
      (∀ d, (windowAlong order kernel stride dilation pad extent output d).forward .unbounded
        (gap.get d) = .ok (after.get d)) ∧
      (∀ (α : Type) [Scalar α] [LawfulScalar α] (C C' : Nat) (xs : Nat → Value α) (X w : Value α)
        (bias : Option (Value α)), HoldsSamples g m C extent gap xs X →
        ZeroBetween g m extent gap X → w.Full → w.shape = [C', C, kernel.first, kernel.second] →
        (∀ b, bias = some b → b.Full ∧ b.shape = [C']) →
        ∃ ys Y, (Operator.conv2d ⟨stride, dilation, pad, l⟩).Yields (X :: w :: bias.toList) Y ∧
          (∀ n < g.slots, (Operator.conv2d ⟨stride, dilation, pad, l⟩).Yields
            (xs n :: w :: bias.toList) (ys n)) ∧
          HoldsSamples g m C' output after ys Y) ∧
      ∀ (α : Type) [Scalar α] (kind : PoolKind) (C : Nat) (xs : Nat → Value α) (X : Value α),
        dilation = .both 1 → pad = .both ⟨0, 0⟩ → HoldsSamples g m C extent gap xs X →
        ∃ ys Y, (Operator.pool2d ⟨kind, kernel, stride, pad, l⟩).Yields [X] Y ∧
          (∀ n < g.slots, (Operator.pool2d ⟨kind, kernel, stride, pad, l⟩).Yields [xs n] (ys n)) ∧
          HoldsSamples g m C output after ys Y := by
  obtain ⟨after, hafter⟩ := h.exists_after
  refine ⟨after, hafter, ?_, ?_⟩
  · intro α _ _ C C' xs X w bias hX hzero hw hwshape hbias
    exact h.conv_samples (p := ⟨stride, dilation, pad, l⟩) hafter hX hzero hw hwshape hbias
  · intro α _ kind C xs X hdilation hpad hX
    subst hdilation
    exact h.pool_samples (p := ⟨kind, kernel, stride, pad, l⟩) hafter hpad hX

/-- Two samples above each other. -/
def stacked : Grid := ⟨2, ⟨2, 1⟩⟩

theorem stacked_pos (d : Dim) : 0 < stacked.tiles.get d := by
  cases d <;> decide

/-- A square of numbers that tells the samples apart. -/
def square (side : Nat) (n : Nat) : Value (Exact default) :=
  ofFn [1, 1, side, side] fun index => ⟨n + index.sum⟩

theorem square_sample (side n : Nat) : (square side n).Full ∧
    (square side n).shape = nchw.arrange 1 1 (.both side) := ⟨full_ofFn _ _, rfl⟩

/-- A layout with the dimensions of the canvas the other way round, a kernel higher than the sample,
and a gap above the least one. -/
theorem admits_tall : Admits stacked .nchw ⟨0, 1, ⟨3, 2⟩⟩ ⟨.second, .first⟩ ⟨2, 3⟩ ⟨1, 2⟩ (.both 1)
    ⟨⟨0, 0⟩, ⟨1, 1⟩⟩ (.both 2) ⟨4, 0⟩ (.both 1) := by
  refine ⟨stacked_pos, valid_nchw, rfl, ?_, ?_⟩
  · intro d
    cases d <;> rfl
  · intro d hd
    cases d with
    | first => rfl
    | second => cases hd

theorem admits_uneven : Admits stacked .nchw .nchw ⟨.first, .second⟩ (.both 2) (.both 2) (.both 1)
    (.both ⟨0, 0⟩) (.both 3) ⟨3, 0⟩ (.both 1) := by
  refine ⟨stacked_pos, valid_nchw, rfl, ?_, ?_⟩
  · intro d
    cases d <;> rfl
  · intro d hd
    cases d with
    | first => rfl
    | second => cases hd

theorem window_on_canvas_stacked :
    (∃ (X Y : Value (Exact default)) (ys : Nat → Value (Exact default)),
      HoldsSamples stacked .nchw 1 (.both 2) ⟨4, 0⟩ (square 2) X ∧
      (Operator.conv2d ⟨⟨1, 2⟩, .both 1, ⟨⟨0, 0⟩, ⟨1, 1⟩⟩, ⟨0, 1, ⟨3, 2⟩⟩⟩).Yields
        [X, ofFn [1, 1, 2, 3] fun index => ⟨index.sum⟩] Y ∧
      (∀ n < 2, (Operator.conv2d ⟨⟨1, 2⟩, .both 1, ⟨⟨0, 0⟩, ⟨1, 1⟩⟩, ⟨0, 1, ⟨3, 2⟩⟩⟩).Yields
        [square 2 n, ofFn [1, 1, 2, 3] fun index => ⟨index.sum⟩] (ys n)) ∧
      HoldsSamples stacked .nchw 1 (.both 1) ⟨2, 1⟩ ys Y) ∧
    ∃ (X Y : Value (Exact default)) (ys : Nat → Value (Exact default)),
      HoldsSamples stacked .nchw 1 (.both 3) ⟨3, 0⟩ (square 3) X ∧
      (Operator.pool2d ⟨.max, .both 2, .both 2, .both ⟨0, 0⟩, .nchw⟩).Yields [X] Y ∧
      (∀ n < 2, (Operator.pool2d ⟨.max, .both 2, .both 2, .both ⟨0, 0⟩, .nchw⟩).Yields
        [square 3 n] (ys n)) ∧
      HoldsSamples stacked .nchw 1 (.both 1) ⟨2, 0⟩ ys Y := by
  constructor
  · obtain ⟨X, hX, hzero⟩ := exists_holdsSamples ⟨4, 0⟩ stacked_pos AxisMap.valid_nchw
      fun n _ => square_sample 2 n
    obtain ⟨⟨after₁, after₂⟩, hafter, hconv, -⟩ := window_on_canvas admits_tall
    cases hafter .first
    cases hafter .second
    obtain ⟨ys, Y, hY, halone, hys⟩ := hconv (Exact default) 1 1 (square 2) X
      (ofFn [1, 1, 2, 3] fun index => ⟨index.sum⟩) none hX hzero (full_ofFn _ _) rfl
      fun b hb => by cases hb
    exact ⟨X, Y, ys, hX, hY, halone, hys⟩
  · obtain ⟨X, hX, -⟩ := exists_holdsSamples ⟨3, 0⟩ stacked_pos AxisMap.valid_nchw
      fun n _ => square_sample 3 n
    obtain ⟨⟨after₁, after₂⟩, hafter, -, hpool⟩ := window_on_canvas admits_uneven
    cases hafter .first
    cases hafter .second
    obtain ⟨ys, Y, hY, halone, hys⟩ := hpool (Exact default) .max 1 (square 3) X rfl rfl hX
    exact ⟨X, Y, ys, hX, hY, halone, hys⟩

end Windows

/-! ## Padding -/

/-- The cells that padding adds to an axis, on both sides. -/
def ConstantPad.total (p : ConstantPad) (axis : Nat) : Nat :=
  extent p.front axis + extent p.back axis

section Padding

variable {g : Grid} {m : AxisMap} {p : ConstantPad} {extent gap : Pair Nat} {C N : Nat}

/-- Padding a sample, or any number of them. -/
theorem padShape_arrange (hm : m.Valid) (hfront : p.front.length = 4) (hback : p.back.length = 4)
    (hbatch : p.total m.batch = 0) (N C : Nat) (extent : Pair Nat) :
    Operator.PadShape p (m.arrange N C extent) (m.arrange N (C + p.total m.channel)
      (.ofFn fun d => extent.get d + p.total (m.fuse.get d))) := by
  refine ⟨by simpa using hfront, by simpa using hback, by simp, ?_⟩
  intro i hi
  rw [length_arrange] at hi
  have htotal : p.total i = Shape.extent p.front i + Shape.extent p.back i := rfl
  grind [arrange_batch, arrange_channel, arrange_fuse, ofFn_get, Valid.axis_cases]

theorem padsOn_canvas (extent : Pair Nat) (hg : ∀ d, 0 < g.tiles.get d) (hm : m.Valid)
    (hbatch : p.total m.batch = 0)
    (hroom : ∀ d, g.isTiled d = true → p.total (m.fuse.get d) ≤ gap.get d) :
    PadsOn (g.canvas extent gap) (g.canvas (.ofFn fun d => extent.get d + p.total (m.fuse.get d))
      (.ofFn fun d => gap.get d - p.total (m.fuse.get d))) m p := by
  refine ⟨canvas_valid hg, canvas_valid hg, rfl, hm, Nat.add_eq_zero_iff.1 hbatch, ?_⟩
  intro d hd
  have htiled : g.isTiled d = true := (isTiled_iff (hg d)).2 hd
  rw [canvas_gap, canvas_gap, if_pos htiled, if_pos htiled, ofFn_get]
  exact (Nat.sub_add_cancel (hroom d htiled)).symm

variable {α : Type} [Scalar α] {xs : Nat → Value α} {x X y : Value α}

theorem exists_padded {s : Shape} (hx : x.Full) (hs : Operator.PadShape p x.shape s) :
    ∃ y, (pad p).Yields [x] y ∧ y.shape = s := by
  obtain ⟨y, hy, hshape, -⟩ : ∃ y : Value α, (pad p).Yields [x] y ∧ y.shape = s ∧ y.Full :=
    exists_yields (by simpa using hx) (inferPad_ok hs)
  exact ⟨y, hy, hshape⟩

/-- The padding of a batch is, sample by sample, that of the samples. -/
theorem pad_alone {n C' : Nat} {output : Pair Nat} (hm : m.Valid) (hfront : p.front.length = 4)
    (hbatch : p.total m.batch = 0) (hn : n < N) (hfull : (xs n).Full)
    (hsample : (xs n).shape = m.arrange 1 C extent)
    (hshape : ∀ N, Operator.PadShape p (m.arrange N C extent) (m.arrange N C' output))
    (hy : (pad p).Yields [stack m N C extent xs] y) (hys : y.shape = m.arrange N C' output) :
    (pad p).Yields [xs n] (y.sample m.batch n) := by
  obtain ⟨y', halone, hys'⟩ := exists_padded hfull (hsample ▸ hshape 1)
  have hzero : p.front[m.batch]? = some 0 := by
    rw [getElem?_extent (hfront ▸ hm.batch_lt), (Nat.add_eq_zero_iff.1 hbatch).1]
  have hstack : (stack m N C extent xs).Full := full_ofFn _ _
  have heq := sample_pad hzero (by simpa [stack, hm] using hn) (by simpa [hys, hm] using hn)
    hstack hy (by rw [sample_stack hm hn hfull hsample]; exact halone)
    (by rw [hys', hys, set_batch hm])
  rw [← heq]
  exact halone

/-- **Padding with zeros on a canvas.** -/
theorem pad_on_canvas (hg : ∀ d, 0 < g.tiles.get d) (hm : m.Valid) (hfront : p.front.length = 4)
    (hback : p.back.length = 4) (hbatch : p.total m.batch = 0)
    (hroom : ∀ d, g.isTiled d = true → p.total (m.fuse.get d) ≤ gap.get d)
    (hvalue : (Scalar.ofSingle p.value : α) = Scalar.zero)
    (hX : HoldsSamples g m C extent gap xs X) (hzero : ZeroBetween g m extent gap X) :
    ∃ ys Y, (Operator.pad p).Yields [X] Y ∧
      (∀ n < g.slots, (Operator.pad p).Yields [xs n] (ys n)) ∧
      HoldsSamples g m (C + p.total m.channel)
        (.ofFn fun d => extent.get d + p.total (m.fuse.get d))
        (.ofFn fun d => gap.get d - p.total (m.fuse.get d)) ys Y ∧
      ZeroBetween g m (.ofFn fun d => extent.get d + p.total (m.fuse.get d))
        (.ofFn fun d => gap.get d - p.total (m.fuse.get d)) Y := by
  have hpads := padsOn_canvas extent hg hm hbatch hroom
  have hshape := fun N => padShape_arrange hm hfront hback hbatch N C extent
  have hx := hX.onCanvas hg hm
  have hgaps := (zeroBetween_iff hg hm hx.canvas_shape).1 hzero
  obtain ⟨y, hy, hys⟩ := exists_padded (x := stack m g.slots C extent xs) (full_ofFn _ _)
    (hshape g.slots)
  obtain ⟨Y, hY, hYs⟩ := exists_padded hX.full (hx.canvas_shape ▸ hpads.padShape (hshape g.slots))
  have hpadded := yields_pad hX.full hY
  have hon :=
    pad_onCanvas hpads hx (yields_pad (full_ofFn _ _) hy) hpadded hys hYs fun c Z hin hgap =>
    (hgaps c Z hin hgap).trans hvalue.symm
  refine ⟨_, Y, hY, ?_, hon.holdsSamples hg hm, ?_⟩
  · intro n hn
    obtain ⟨hfull, hsample⟩ := hX.sample n hn
    exact pad_alone hm hfront hbatch hn hfull hsample hshape hy hys
  · rw [zeroBetween_iff hg hm hYs]
    exact pad_zeroGaps hpads (hshape g.slots) hx.canvas_shape hgaps hpadded hYs hvalue

/-- Padding of different width on the two sides, of one dimension of the canvas and of the channels,
that uses up the gap. -/
theorem pad_on_canvas_stacked : ∃ (X Y : Value (Exact default)) (ys : Nat → Value (Exact default)),
    HoldsSamples stacked .nchw 1 (.both 2) ⟨3, 0⟩ (square 2) X ∧
    (Operator.pad ⟨[0, 1, 1, 0], [0, 0, 2, 1], .zero⟩).Yields [X] Y ∧
    (∀ n < 2, (Operator.pad ⟨[0, 1, 1, 0], [0, 0, 2, 1], .zero⟩).Yields [square 2 n] (ys n)) ∧
    HoldsSamples stacked .nchw 2 ⟨5, 3⟩ ⟨0, 0⟩ ys Y ∧ ZeroBetween stacked .nchw ⟨5, 3⟩
      ⟨0, 0⟩ Y := by
  obtain ⟨X, hX, hzero⟩ := exists_holdsSamples ⟨3, 0⟩ stacked_pos AxisMap.valid_nchw
    fun n _ => square_sample 2 n
  have hroom : ∀ d, stacked.isTiled d = true →
      ConstantPad.total ⟨[0, 1, 1, 0], [0, 0, 2, 1], .zero⟩ (AxisMap.nchw.fuse.get d) ≤
        (Pair.mk 3 0).get d := by
    intro d hd
    cases d with
    | first => decide
    | second => cases hd
  obtain ⟨ys, Y, hY, halone, hys, hgaps⟩ := pad_on_canvas (p := ⟨[0, 1, 1, 0], [0, 0, 2, 1], .zero⟩)
    stacked_pos AxisMap.valid_nchw rfl rfl rfl hroom (LawfulScalar.ofSingle_zero _ rfl) hX hzero
  exact ⟨X, Y, ys, hX, hY, halone, hys, hgaps⟩

end Padding

end CanvasFusion
