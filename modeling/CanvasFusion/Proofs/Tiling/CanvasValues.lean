import CanvasFusion.Proofs.Eval.Yields
import CanvasFusion.Proofs.Tiling.CanvasShapes
import CanvasFusion.Proofs.Tiling.Operators

/-!
# Windows, padding and concatenation on a canvas

A window at a cell of a tile finds in the tile what it finds in the sample. Beside the tile it finds
gap cells where it finds nothing beside the sample (`SlidesOn.windowStep_eq`). So a convolution does
to tiles what it does to samples if gap cells add nothing to a sum (`NeutralGaps`), or if no window
reaches into a gap; and a pooling without padding reaches into no gap at all.

Padding makes tiles of gap cells. It does to tiles what it does to samples if the gap cells hold the
value that samples are padded with.
-/

namespace CanvasFusion

open AxisMap Shape Canvas Layout List Pair Scalar WindowFrame

open Value

variable {α : Type} [Scalar α] {K K' : Canvas} {m : AxisMap} {C C' N : Nat} {x X y Y w : Value α}
  {base : Index} {i : Pair Nat}

/-- Gap cells that add nothing to a sum of products. -/
def NeutralGaps (K : Canvas) (m : AxisMap) (X : Value α) : Prop :=
  ∀ c Y, X.shape.Within (m.arrange 0 c Y) → K.InGap Y → ∀ acc a : α,
    add acc (mul (X.cell (m.arrange 0 c Y)) a) = acc

theorem ZeroGaps.neutral [LawfulScalar α] (h : ZeroGaps K m X) : NeutralGaps K m X := by
  intro c Y hin hgap acc a
  rw [h c Y hin hgap, LawfulScalar.zero_mul, LawfulScalar.add_zero]

/-! ## Sliding windows -/

/-- The entries of an index with its spatial places filled in. -/
theorem Layout.extent_fill {l : Layout} (hl : l.isValid = true) (hlen : base.length = 4) (d : Dim) :
    extent (l.fill base i) (l.spatial.get d) = i.get d := by
  have hv := isValid_iff.1 hl
  have h₁ : l.spatial.first < base.length := hlen ▸ hv.fuse_lt .first
  have h₂ : l.spatial.second < (base.set l.spatial.first i.first).length := by
    rw [length_set, hlen]
    exact hv.fuse_lt .second
  have hne : l.spatial.second ≠ l.spatial.first := hv.fuse_ne.symm
  unfold fill
  cases d with
  | first => rw [get_first, extent_set_ne hne, extent_set_self h₁, get_first]
  | second => rw [get_second, extent_set_self h₂, get_second]

theorem Layout.extent_fill_ne {l : Layout} {axis : Nat} (h : ∀ d, l.spatial.get d ≠ axis) :
    extent (l.fill base i) axis = extent base axis := by
  have h₁ : l.spatial.first ≠ axis := h .first
  have h₂ : l.spatial.second ≠ axis := h .second
  rw [fill, extent_set_ne h₂, extent_set_ne h₁]

section Windows

variable {l : Layout} {order : Pair Dim} {kernel stride dilation : Pair Nat} {pad : Pair Padding}
  {n c : Nat} {u : Pair Nat}

namespace SlidesOn

variable (h : SlidesOn K K' m l order kernel stride dilation pad)

include h

theorem fill_arrange (hl : l.isValid = true) {i : Pair Nat} :
    l.fill (m.arrange n c u) i = m.arrange n c (.ofFn fun d => i.get (order.get d)) := by
  have hv := isValid_iff.1 hl
  obtain ⟨hbatch, hchannel⟩ := h.layout_eq
  refine ext_roles h.map (by simp [fill]) length_arrange ?_ ?_ fun d => ?_
  · rw [extent_fill_ne fun d => hbatch ▸ (hv.batch_ne_fuse d).symm,
      arrange_batch h.map, arrange_batch h.map]
  · rw [extent_fill_ne fun d => hchannel ▸ (hv.channel_ne_fuse d).symm,
      arrange_channel h.map, arrange_channel h.map]
  · rw [arrange_fuse h.map, Pair.ofFn_get, ← spatial_of_order h.order_eq d,
      extent_fill hl length_arrange]

/-- The taps of the window, by the dimensions of the canvas. -/
theorem taps_arrange {S : Pair Nat} (d : Dim) (k : Nat) :
    (WindowFrame.mk l kernel stride dilation pad).taps (m.arrange N C S) (m.arrange n c u)
        (order.get d) k =
      tap (u.get d) k (stride.get (order.get d)) (dilation.get (order.get d))
        (pad.get (order.get d)).front (S.get d) := by
  unfold taps
  rw [spatial_of_order h.order_eq d, arrange_fuse h.map, arrange_fuse h.map]

/-- A pair over the dimensions of the layout, given over those of the canvas. -/
theorem exists_reordered (f : Dim → Nat) : ∃ i : Pair Nat, ∀ d, i.get (order.get d) = f d := by
  choose inv hinv using h.map.order_surjective h.order_eq
  refine ⟨.ofFn fun d' => f (inv d'), fun d => ?_⟩
  have hinj : inv (order.get d) = d := by
    refine fuse_inj h.map ?_
    rw [← spatial_of_order h.order_eq, hinv, spatial_of_order h.order_eq]
  rw [Pair.ofFn_get, hinj]

/-- **A kernel position on a tile** does what it does on the sample, if it does the same on the cell
of the tile as on the cell of the sample, and nothing on a gap cell. -/
theorem windowStep_eq {σ : Type} {g G : σ → Nat → Nat → Pair Nat → σ} {s : σ}
    {k : Pair Nat} {c : Nat}
    (hn : n < K.count) (hu : ∀ d, u.get d < K'.extent.get d) (hk : ∀ d, k.get d < kernel.get d)
    (hcell : ∀ i I v : Pair Nat, (.ofFn fun d => i.get (order.get d)) = v →
      (∀ d, v.get d < K.extent.get d) →
      (.ofFn fun d => I.get (order.get d)) = K.place (K.spot n) v →
      G s k.first k.second I = g s k.first k.second i)
    (hgap : ∀ (d : Dim) (I : Pair Nat), (∀ e, I.get (order.get e) < K.length e) →
      K.extent.get d ≤ I.get (order.get d) % K.pitch d → K.tiles.get d ≠ 1 →
      Canvas.Reaches K K' d (kernel.get (order.get d)) (stride.get (order.get d))
        (dilation.get (order.get d)) (pad.get (order.get d)).front →
      G s k.first k.second I = s) :
    windowStep ((WindowFrame.mk l kernel stride dilation pad).taps (m.arrange 1 C K.size)
        (m.arrange 0 c (K'.place (K'.spot n) u))) G s k.first k.second =
      windowStep ((WindowFrame.mk l kernel stride dilation pad).taps (m.arrange K.count C K.extent)
        (m.arrange n c u)) g s k.first k.second := by
  have hspot : K'.spot n = K.spot n := by rw [spot, spot, h.tiles]
  have hi := h.valid.spot_lt hn
  have htile : ∀ d, (WindowFrame.mk l kernel stride dilation pad).taps (m.arrange 1 C K.size)
      (m.arrange 0 c (K'.place (K'.spot n) u)) (order.get d) (k.get (order.get d)) =
        tap ((K.spot n).get d * K'.pitch d + u.get d) (k.get (order.get d))
          (stride.get (order.get d))
          (dilation.get (order.get d)) (pad.get (order.get d)).front (K.length d) := fun d => by
    rw [h.taps_arrange, place_get, size_get, hspot]
  refine windowStep_congr (fun i hfound => ?_) fun d' I hmissed hfound => ?_
  · have hsample := fun d => (h.taps_arrange d _).symm.trans (hfound (order.get d))
    obtain ⟨I, hI⟩ := h.exists_reordered fun d =>
      (K.spot n).get d * K.pitch d + i.get (order.get d)
    refine ⟨I, fun d' => ?_, hcell i I _ rfl (fun d => ?_) (ext_get fun d => ?_)⟩
    rotate_left
    · rw [Pair.ofFn_get]
      exact tap_lt (hsample d)
    · rw [Pair.ofFn_get, place_get, Pair.ofFn_get, hI]
    obtain ⟨d, rfl⟩ := h.map.order_surjective h.order_eq d'
    rw [htile, tap_of_some (h.slides d) (hi d) h.valid (hsample d), hI]
  · obtain ⟨d, rfl⟩ := h.map.order_surjective h.order_eq d'
    have hcanvas := fun e => (htile e).symm.trans (hfound (order.get e))
    obtain ⟨hmod, htiled, hreach⟩ := tap_of_none (h.slides d) (hi d) h.valid (hu d)
      (hk (order.get d)) ((h.taps_arrange d _).symm.trans hmissed) (hcanvas d)
    exact hgap d I (fun e => tap_lt (hcanvas e)) hmod htiled hreach

end SlidesOn

/-- **Convolution on a canvas.** -/
theorem conv_onCanvas {p : Conv2d} {bias : Option (Value α)} {b : Option Shape}
    (h : SlidesOn K K' m p.layout order ⟨w.shape.extent 2, w.shape.extent 3⟩ p.stride
      p.dilation p.pad)
    (hshape : Operator.ConvShape p (m.arrange K.count C K.extent) w.shape b
      (m.arrange K.count C' K'.extent))
    (hx : OnCanvas K m C x X)
    (hclean : (∃ d, K.tiles.get d ≠ 1 ∧ Canvas.Reaches K K' d
      (get ⟨w.shape.extent 2, w.shape.extent 3⟩ (order.get d)) (p.stride.get (order.get d))
      (p.dilation.get (order.get d)) (p.pad.get (order.get d)).front) → NeutralGaps K m X) :
    OnCanvas K' m C' (ofFn (m.arrange K.count C' K'.extent) (convolved p x w bias))
      (ofFn (m.arrange 1 C' K'.size) (convolved p X w bias)) := by
  have hcount : K.count = K'.count := by rw [Canvas.count, Canvas.count, h.tiles]
  have hchannel := h.layout_eq.2
  have hin : w.shape.extent 1 = C := by rw [hshape.channels, hchannel, arrange_channel h.map]
  rw [hcount]
  refine onCanvas_ofFn h.valid'.toTiled h.map fun n c u hn _ hu => ?_
  unfold convolved
  rw [hchannel, arrange_channel h.map, arrange_channel h.map]
  refine foldl_ext _ _ _ fun acc ci hci => ?_
  have hci' : ci < C := hin ▸ mem_range.1 hci
  rw [set_channel h.map, set_channel h.map]
  refine windowFold_congr (fun s k₀ hk₀ k₁ hk₁ => ?_) acc
  rw [hx.shape, hx.canvas_shape]
  refine h.windowStep_eq (k := ⟨k₀, k₁⟩) (hcount ▸ hn) hu (fun d => by cases d <;> assumption)
    (fun i I v hi hv hI => ?_) fun d I hI hmod htiled hreach => ?_
  · rw [h.fill_arrange hshape.layout, h.fill_arrange hshape.layout, hI, hi,
      hx.tile (hcount ▸ hn) hci' hv]
  · rw [h.fill_arrange hshape.layout]
    refine hclean ⟨d, htiled, hreach⟩ _ _ ?_ ⟨d, by rw [Pair.ofFn_get]; exact hmod⟩ _ _
    rw [hx.canvas_shape, within_arrange h.map]
    grind [Pair.ofFn_get, size_get]

/-- The windows of a pooling without padding stay within the sample. -/
theorem Window.Valid.not_reaches {d : Dim} {kernel stride dilation : Nat}
    (hw : (Window.mk kernel stride dilation ⟨0, 0⟩ (K.extent.get d) (K'.extent.get d)).Valid) :
    ¬ Canvas.Reaches K K' d kernel stride dilation 0 := by
  have hfits : (kernel - 1) * dilation + 1 ≤ K.extent.get d + 0 + 0 := hw.fits
  have hout : K'.extent.get d =
      (K.extent.get d + 0 + 0 - ((kernel - 1) * dilation + 1)) / stride + 1 := hw.output_eq
  rintro (hfront | hback)
  · exact Nat.lt_irrefl 0 hfront
  · rw [hout, Nat.add_sub_cancel] at hback
    have hle := Nat.div_mul_le_self (K.extent.get d + 0 + 0 - ((kernel - 1) * dilation + 1)) stride
    omega

/-- **Pooling on a canvas.** -/
theorem pool_onCanvas {p : Pool2d}
    (h : SlidesOn K K' m p.layout order p.kernel p.stride (.both 1) p.pad)
    (hpad : p.pad = .both ⟨0, 0⟩)
    (hshape : Operator.PoolShape p (m.arrange K.count C K.extent) (m.arrange K.count C K'.extent))
    (hx : OnCanvas K m C x X) :
    OnCanvas K' m C (ofFn (m.arrange K.count C K'.extent) (pooled p x))
      (ofFn (m.arrange 1 C K'.size) (pooled p X)) := by
  have hcount : K.count = K'.count := by rw [Canvas.count, Canvas.count, h.tiles]
  rw [hcount]
  refine onCanvas_ofFn h.valid'.toTiled h.map fun n c u hn hc hu => ?_
  suffices hstate : pooledState p X (m.arrange 0 c (K'.place (K'.spot n) u)) =
      pooledState p x (m.arrange n c u) by rw [pooled, pooled, hstate]
  refine windowFold_congr (fun s k₀ hk₀ k₁ hk₁ => ?_) _
  rw [hx.shape, hx.canvas_shape]
  refine h.windowStep_eq (k := ⟨k₀, k₁⟩) (hcount ▸ hn) hu (fun d => by cases d <;> assumption)
    (fun i I v hi hv hI => ?_) fun d I _ _ _ hreach => ?_
  · rw [h.fill_arrange hshape.layout, h.fill_arrange hshape.layout, hI, hi,
      hx.tile (hcount ▸ hn) hc hv]
  · have hw := hshape.slid.window (order.get d)
    rw [spatial_of_order h.order_eq d, arrange_fuse h.map,
      arrange_fuse h.map] at hw
    grind [both_get, Window.Valid.not_reaches]

end Windows

/-! ## Padding -/

section Padding

variable {p : ConstantPad}

theorem moved_arrange (hm : m.Valid) {offset : List Nat} (hlen : offset.length = 4) {n c : Nat}
    {u : Pair Nat} : moved (m.arrange n c u) offset =
      m.arrange (n + extent offset m.batch) (c + extent offset m.channel)
        (.ofFn fun d => u.get d + extent offset (m.fuse.get d)) := by
  have hlen' : (m.arrange n c u).length = offset.length := by rw [length_arrange, hlen]
  have hget : ∀ {axis}, axis < 4 → extent (moved (m.arrange n c u) offset) axis =
      extent (m.arrange n c u) axis + extent offset axis := fun haxis =>
    extent_moved hlen' (by rw [length_arrange]; exact haxis)
  refine ext_roles hm (by rw [length_moved hlen', length_arrange])
    length_arrange ?_ ?_ fun d => ?_
  · rw [hget hm.batch_lt, arrange_batch hm, arrange_batch hm]
  · rw [hget hm.channel_lt, arrange_channel hm, arrange_channel hm]
  · rw [hget (hm.fuse_lt d), arrange_fuse hm, arrange_fuse hm, Pair.ofFn_get]

namespace PadsOn

variable (h : PadsOn K K' m p)
  (hs : Operator.PadShape p (m.arrange N C K.extent) (m.arrange N C' K'.extent)) {d : Dim}

include h hs

theorem moved_arrange {n c : Nat} {u : Pair Nat} : moved (m.arrange n c u) p.front =
    m.arrange n (c + extent p.front m.channel)
      (.ofFn fun d => u.get d + extent p.front (m.fuse.get d)) := by
  rw [CanvasFusion.moved_arrange h.map (by rw [hs.front_rank, length_arrange]), h.batch.1,
    Nat.add_zero]

/-- The tile of a sample moves with the sample. -/
theorem tile_start {i : Nat} (hi : i < K.tiles.get d) : i * K'.pitch d = i * K.pitch d := by
  by_cases ht : K.tiles.get d = 1
  · obtain rfl : i = 0 := by omega
    rw [Nat.zero_mul, Nat.zero_mul]
  · rw [h.pitch_eq hs ht]

/-- A cell of a padded tile that is beside the sample was a gap cell, if it was one at all. -/
theorem mod_of_beside {i u z : Nat} (hi : i < K.tiles.get d) (hu : u < K'.extent.get d)
    (hz : z < K.length d)
    (heq : z + extent p.front (m.fuse.get d) = i * K'.pitch d + u)
    (hbeside : u < extent p.front (m.fuse.get d) ∨
      extent p.front (m.fuse.get d) + K.extent.get d ≤ u) :
    K.extent.get d ≤ z % K.pitch d := by
  have hextent := h.extent_eq hs d
  have hlength := h.valid.length_eq d
  rw [h.tile_start hs hi] at heq
  have htiled : K.tiles.get d ≠ 1 := fun h1 => by
    grind
  have hgap := h.gap d htiled
  have hpitch : K.pitch d = K.extent.get d + K.gap.get d := rfl
  rcases hbeside with hbefore | hbehind
  · -- In front of the sample: the gap behind the tile before.
    obtain ⟨j, rfl⟩ : ∃ j, i = j + 1 := Nat.exists_eq_succ_of_ne_zero (by
      rintro rfl
      omega)
    have hcell : z = (K.pitch d + u - extent p.front (m.fuse.get d)) + j * K.pitch d := by
      rw [Nat.add_mul] at heq
      omega
    rw [hcell, Nat.add_mul_mod_self_right, Nat.mod_eq_of_lt (by omega)]
    omega
  · -- Behind the sample: the gap behind its tile.
    have hcell : z = (u - extent p.front (m.fuse.get d)) + i * K.pitch d := by omega
    rw [hcell, Nat.add_mul_mod_self_right, Nat.mod_eq_of_lt (by omega)]
    omega

/-- A gap cell of the padded canvas was a gap cell, if it was one at all. -/
theorem mod_of_gap {z : Nat} (hz : z + extent p.front (m.fuse.get d) < K'.length d)
    (hgap : K'.extent.get d ≤ (z + extent p.front (m.fuse.get d)) % K'.pitch d) :
    K.extent.get d ≤ z % K.pitch d := by
  have hextent := h.extent_eq hs d
  have htiled : K.tiles.get d ≠ 1 := fun h1 => by
    have hpos := gap_pos_of_mod (Y := .both (z + extent p.front (m.fuse.get d)))
      h.valid' (by rw [both_get]; exact hz) (by rw [both_get]; exact hgap)
    rw [h.valid'.untiled d (h.tiles ▸ h1)] at hpos
    exact Nat.lt_irrefl 0 hpos
  rw [h.pitch_eq hs htiled] at hgap
  have hpos : 0 < K.pitch d := by
    have hgap' := h.gap d htiled
    have hpitch : K.pitch d = K.extent.get d + K.gap.get d := rfl
    by_contra h0
    rw [Nat.eq_zero_of_not_pos h0, Nat.mod_zero] at hgap
    have hlength := h.length_eq hs d
    rw [h.valid.length_eq, Nat.eq_zero_of_not_pos h0] at hlength
    omega
  have hmod := Nat.mod_lt (z + extent p.front (m.fuse.get d)) hpos
  have hdiv := Nat.div_add_mod' (z + extent p.front (m.fuse.get d)) (K.pitch d)
  have hcell : z = ((z + extent p.front (m.fuse.get d)) % K.pitch d -
      extent p.front (m.fuse.get d)) +
      (z + extent p.front (m.fuse.get d)) / K.pitch d * K.pitch d := by omega
  rw [hcell, Nat.add_mul_mod_self_right, Nat.mod_eq_of_lt (by omega)]
  omega

/-- A cell of a padded canvas is new, or it was a cell of the canvas. -/
theorem cell_cases (hX : X.shape = m.arrange 1 C K.size) (hY : Padded p X Y) {c : Nat}
    {U : Pair Nat}
    (hJ : Y.shape.Within (m.arrange 0 c U)) : Y.cell (m.arrange 0 c U) = ofSingle p.value ∨
      ∃ c' Z, Y.cell (m.arrange 0 c U) = X.cell (m.arrange 0 c' Z) ∧
        X.shape.Within (m.arrange 0 c' Z) ∧ c' < C ∧ (∀ d, Z.get d < K.length d) ∧
        c = c' + extent p.front m.channel ∧
        ∀ d, U.get d = Z.get d + extent p.front (m.fuse.get d) := by
  by_cases hold : ∃ I, X.shape.Within I ∧ moved I p.front = m.arrange 0 c U
  · obtain ⟨I, hI, heq⟩ := hold
    rw [← heq, hY.inner I hI]
    have hI' := hI
    rw [hX] at hI'
    obtain ⟨n', c', Z, rfl, hn0, hc', hZ⟩ := exists_arrange h.map hI'
    obtain rfl : n' = 0 := Nat.lt_one_iff.1 hn0
    rw [h.moved_arrange hs] at heq
    obtain ⟨-, rfl, rfl⟩ := arrange_inj h.map heq
    exact .inr ⟨c', Z, rfl, hI, hc', fun d => size_get K d ▸ hZ d, rfl, fun d => ofFn_get _ d⟩
  · exact .inl (hY.outer _ hJ fun I hI heq => hold ⟨I, hI, heq⟩)

end PadsOn

/-- **Padding on a canvas.** -/
theorem pad_onCanvas (h : PadsOn K K' m p) (hx : OnCanvas K m C x X) (hy : Padded p x y)
    (hY : Padded p X Y) (hys : y.shape = m.arrange K.count C' K'.extent)
    (hYs : Y.shape = m.arrange 1 C' K'.size)
    (hgap : ∀ c Z, X.shape.Within (m.arrange 0 c Z) → K.InGap Z →
      X.cell (m.arrange 0 c Z) = ofSingle p.value) : OnCanvas K' m C' y Y := by
  have hcount : K'.count = K.count := by rw [Canvas.count, Canvas.count, h.tiles]
  have hspot : ∀ n, K'.spot n = K.spot n := fun n => by rw [spot, spot, h.tiles]
  have hs := hy.shape
  rw [hx.shape, hys] at hs
  have hchannel := hs.extent_eq m.channel (by rw [length_arrange]; exact h.map.channel_lt)
  rw [arrange_channel h.map, arrange_channel h.map] at hchannel
  refine ⟨hy.full, hcount ▸ hys, hY.full, hYs, fun {n c u} hn hc hu => ?_⟩
  have hn' : n < K.count := hcount ▸ hn
  have hi := h.valid.spot_lt hn'
  rw [hspot]
  have hJ : Y.shape.Within (m.arrange 0 c (K'.place (K.spot n) u)) := by
    rw [hYs, within_arrange h.map]
    refine ⟨Nat.one_pos, hc, fun d => ?_⟩
    rw [size_get]
    exact h.valid'.place_lt (by rw [h.tiles]; exact hi d) (hu d)
  by_cases hinside : extent p.front m.channel ≤ c ∧ c - extent p.front m.channel < C ∧
      ∀ d, extent p.front (m.fuse.get d) ≤ u.get d ∧
        u.get d - extent p.front (m.fuse.get d) < K.extent.get d
  · -- The cell holds an element of the sample.
    obtain ⟨hfc, hcC, hin⟩ := hinside
    let v : Pair Nat := .ofFn fun d => u.get d - extent p.front (m.fuse.get d)
    have hv : ∀ d, v.get d = u.get d - extent p.front (m.fuse.get d) := ofFn_get _
    have hvlt : ∀ d, v.get d < K.extent.get d := fun d => by rw [hv]; exact (hin d).2
    have hsample : moved (m.arrange n (c - extent p.front m.channel) v) p.front =
        m.arrange n c u := by
      rw [h.moved_arrange hs, Nat.sub_add_cancel hfc]
      refine congrArg _ (ext_get fun d => ?_)
      rw [Pair.ofFn_get, hv, Nat.sub_add_cancel (hin d).1]
    have hcanvas : moved (m.arrange 0 (c - extent p.front m.channel) (K.place (K.spot n) v))
        p.front = m.arrange 0 c (K'.place (K.spot n) u) := by
      rw [h.moved_arrange hs, Nat.sub_add_cancel hfc]
      refine congrArg _ (ext_get fun d => ?_)
      rw [Pair.ofFn_get, place_get, place_get, hv, h.tile_start hs (hi d), Nat.add_assoc,
        Nat.sub_add_cancel (hin d).1]
    have hwithin : x.shape.Within (m.arrange n (c - extent p.front m.channel) v) := by
      rw [hx.shape, within_arrange h.map]
      exact ⟨hn', hcC, hvlt⟩
    rw [← hsample, ← hcanvas, hY.inner _ (hx.within h.valid.toTiled h.map hn' hcC hvlt),
      hy.inner _ hwithin, hx.tile hn' hcC hvlt]
  · -- The cell is beside the sample.
    have houter : y.cell (m.arrange n c u) = ofSingle p.value := by
      refine hy.outer _ ?_ fun i hi heq => hinside ?_
      · rw [hys, within_arrange h.map]
        exact ⟨hn', hc, hu⟩
      · rw [hx.shape] at hi
        obtain ⟨n', c', v, rfl, -, hc', hv⟩ := exists_arrange h.map hi
        rw [h.moved_arrange hs] at heq
        obtain ⟨-, rfl, rfl⟩ := arrange_inj h.map heq
        refine ⟨Nat.le_add_left _ _, by rw [Nat.add_sub_cancel]; exact hc', fun d => ?_⟩
        rw [Pair.ofFn_get, Nat.add_sub_cancel]
        exact ⟨Nat.le_add_left _ _, hv d⟩
    rw [houter]
    rcases h.cell_cases hs hx.canvas_shape hY hJ with hnew | ⟨c', Z, hcell, hI, hc', hZ, rfl, hU⟩
    · exact hnew
    · refine hcell.trans (hgap c' Z hI ?_)
      by_contra hnot
      refine hinside ⟨Nat.le_add_left _ _, by rw [Nat.add_sub_cancel]; exact hc', fun d => ?_⟩
      by_contra hbeside
      have hZ' := hU d
      rw [place_get] at hZ'
      exact hnot ⟨d, h.mod_of_beside hs (hi d) (hu d) (hZ d) hZ'.symm (by omega)⟩

/-- Padding with zeros keeps zeros in the gaps. -/
theorem pad_zeroGaps (h : PadsOn K K' m p)
    (hs : Operator.PadShape p (m.arrange N C K.extent) (m.arrange N C' K'.extent))
    (hX : X.shape = m.arrange 1 C K.size) (hzero : ZeroGaps K m X) (hY : Padded p X Y)
    (hYs : Y.shape = m.arrange 1 C' K'.size)
    (hvalue : (ofSingle p.value : α) = zero) : ZeroGaps K' m Y := by
  rintro c U hJ ⟨d, hd⟩
  rcases h.cell_cases hs hX hY hJ with hnew | ⟨c', Z, hcell, hI, -, -, rfl, hU⟩
  · rw [hnew, hvalue]
  · rw [hYs, within_arrange h.map] at hJ
    have hlt := hJ.2.2 d
    rw [hU, size_get] at hlt
    rw [hU] at hd
    exact hcell.trans (hzero c' Z hI ⟨d, h.mod_of_gap hs hlt hd⟩)

end Padding

/-! ## Concatenation -/

section Concatenation

variable {vs Vs : List (Value α)} {u S : Pair Nat}

theorem inBlock_arrange (hm : m.Valid) {start n c : Nat} :
    inBlock m.channel start (m.arrange n c u) = m.arrange n (c + start) u := by
  rw [inBlock, arrange_channel hm, set_channel hm]

/-- An element of a concatenation along the channels, by roles. -/
theorem Concatenated.exists_channel (hm : m.Valid) (hy : Concatenated m.channel vs y)
    (hys : y.shape = m.arrange N C S) {n c : Nat} (hn : n < N) (hc : c < C)
    (hu : ∀ d, u.get d < S.get d) : ∃ k x c', vs[k]? = some x ∧
      x.shape.Within (m.arrange n c' u) ∧ c = c' + blockStart m.channel vs k := by
  have hj : y.shape.Within (m.arrange n c u) := by
    rw [hys, within_arrange hm]
    exact ⟨hn, hc, hu⟩
  obtain ⟨k, x, i, hk, hi, heq⟩ := hy.exists_source hj
  have hlen : i.length = 4 := by
    have hlen := congrArg List.length heq
    rwa [length_arrange, inBlock, length_set, eq_comm] at hlen
  rw [eq_arrange hm hlen] at heq hi
  grind [inBlock_arrange, arrange_inj]

/-- **Concatenation on a canvas**, along the channels. -/
theorem concat_onCanvas (hK : K.Valid) (hm : m.Valid)
    (hvs : List.Forall₂ (fun v V => ∃ c, OnCanvas K m c v V) vs Vs)
    (hy : Concatenated m.channel vs y) (hY : Concatenated m.channel Vs Y)
    (hys : y.shape = m.arrange K.count C K.extent) (hYs : Y.shape = m.arrange 1 C K.size) :
    OnCanvas K m C y Y := by
  have hextents : vs.map (fun x => x.shape.extent m.channel) =
      Vs.map fun x => x.shape.extent m.channel := by
    rw [← forall₂_eq_eq_eq, forall₂_map_left_iff, forall₂_map_right_iff]
    refine hvs.imp fun v V hv => ?_
    obtain ⟨c, hv⟩ := hv
    rw [hv.shape, hv.canvas_shape, arrange_channel hm, arrange_channel hm]
  refine ⟨hy.full, hys, hY.full, hYs, fun {n c u} hn hc hu => ?_⟩
  obtain ⟨k, x, c', hk, hin, rfl⟩ := hy.exists_channel hm hys hn hc hu
  obtain ⟨V, hV, cs, hxV⟩ := forall₂_getElem? hvs hk
  have hc' : c' < cs := by
    rw [hxV.shape, within_arrange hm] at hin
    exact hin.2.1
  have hstart : blockStart m.channel vs k = blockStart m.channel Vs k := by
    rw [blockStart, blockStart, map_take, map_take, hextents]
  have hcell := hy.block k x hk _ hin
  have hCell := hY.block k V hV _ (hxV.within hK.toTiled hm hn hc' hu)
  grind [inBlock_arrange, OnCanvas.tile]

theorem concat_zeroGaps (hm : m.Valid) (hVs : ∀ V ∈ Vs, ZeroGaps K m V)
    (hY : Concatenated m.channel Vs Y) (hYs : Y.shape = m.arrange 1 C K.size) : ZeroGaps K m Y := by
  intro c U hin hgap
  rw [hYs, within_arrange hm] at hin
  obtain ⟨k, V, c', hk, hin', rfl⟩ := hY.exists_channel hm hYs hin.1 hin.2.1 hin.2.2
  have hCell := hY.block k V hk _ hin'
  rw [inBlock_arrange hm] at hCell
  rw [hCell]
  exact hVs V (mem_of_getElem? hk) c' U hin' hgap

end Concatenation

/-! ## Two operands -/

section Binary

variable [LawfulScalar α] {A B : Value α} {kind : BinaryKind}

/-- All binary operators but division take zeros to zero. -/
theorem BinaryKind.apply_zero (hkind : kind ≠ .div) : kind.apply (zero : α) zero = zero := by
  cases kind with
  | add => exact LawfulScalar.add_zero _
  | sub => exact LawfulScalar.sub_zero _
  | mul => exact LawfulScalar.mul_zero _
  | div => exact absurd rfl hkind
  | max => exact LawfulScalar.max_self _
  | min => exact LawfulScalar.min_self _

theorem binary_zeroGaps (hm : m.Valid) (hkind : kind ≠ .div) (hA : A.shape = m.arrange 1 C K.size)
    (hB : B.shape = m.arrange 1 C K.size) (ha : ZeroGaps K m A) (hb : ZeroGaps K m B) :
    ZeroGaps K m (ofFn (m.arrange 1 C K.size) fun index => kind.apply
      (A.cell (spreadIndex A.shape index)) (B.cell (spreadIndex B.shape index))) := by
  grind [zeroGaps_ofFn, BinaryKind.apply_zero, ZeroGaps.cell_spread]

theorem mul_zeroGaps (hm : m.Valid)
    (h : A.shape = m.arrange 1 C K.size ∧ ZeroGaps K m A ∨
      B.shape = m.arrange 1 C K.size ∧ ZeroGaps K m B) :
    ZeroGaps K m (ofFn (m.arrange 1 C K.size) fun index => BinaryKind.mul.apply
      (A.cell (spreadIndex A.shape index)) (B.cell (spreadIndex B.shape index))) := by
  refine zeroGaps_ofFn hm fun c U hc hU hgap => ?_
  rcases h with ⟨hA, ha⟩ | ⟨hB, hb⟩
  · rw [ha.cell_spread hA hm hc hU hgap]
    exact LawfulScalar.zero_mul _
  · rw [hb.cell_spread hB hm hc hU hgap]
    exact LawfulScalar.mul_zero _

end Binary

end CanvasFusion
