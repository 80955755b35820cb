import CanvasFusion.Proofs.Operator.Inferred
import CanvasFusion.Proofs.Tiling.Canvas

/-!
# Shapes of operators on a canvas

An operator that fits a batch fits the canvas of the batch, and the shape it gives there is the
canvas of what it gives for the batch. For a sliding window this is the condition on pitches: the
tiles of the output are a whole number of strides apart in the input, so as many windows fit on the
canvas as its output has cells.
-/

namespace CanvasFusion

open AxisMap Shape List

variable {K K' : Canvas} {m : AxisMap} {l : Layout} {order : Pair Dim}
  {kernel stride dilation : Pair Nat} {pad : Pair Padding} {p : ConstantPad} {N C C' i : Nat}

/-! ## Sliding windows -/

/-- The dimensions of the canvas lie along all spatial dimensions of a layout. -/
theorem AxisMap.Valid.order_surjective (hm : m.Valid)
    (h : m.spatialOrder l = some order) (d' : Dim) : ∃ d, order.get d = d' := by
  have hne : order.first ≠ order.second := fun heq => by
    have h₁ := spatial_of_order h .first
    have h₂ := spatial_of_order h .second
    grind [Pair.get_first, Pair.get_second, fuse_ne]
  by_cases h₁ : order.get .first = d'
  · exact ⟨.first, h₁⟩
  · refine ⟨.second, ?_⟩
    rw [Pair.get_first] at h₁
    rw [Pair.get_second]
    revert hne h₁
    cases order.first <;> cases order.second <;> cases d' <;> simp

/-- A sliding window with a layout takes the canvas `K` to the canvas `K'`. -/
structure SlidesOn (K K' : Canvas) (m : AxisMap) (l : Layout) (order : Pair Dim)
    (kernel stride dilation : Pair Nat) (pad : Pair Padding) : Prop where
  valid : K.Valid
  valid' : K'.Valid
  tiles : K'.tiles = K.tiles
  map : m.Valid
  order_eq : m.spatialOrder l = some order
  slides : ∀ d, K.tiles.get d ≠ 1 → Canvas.Slides K K' d (kernel.get (order.get d))
    (stride.get (order.get d)) (dilation.get (order.get d)) (pad.get (order.get d)).front

/-- A window that fits a sample fits the canvas. -/
theorem Canvas.Valid.window {d : Dim} {kernel stride dilation : Nat} {pad : Padding} (hK : K.Valid)
    (hK' : K'.Valid) (htiles : K'.tiles = K.tiles)
    (hs : K.tiles.get d ≠ 1 → Canvas.Slides K K' d kernel stride dilation pad.front)
    (hw : (Window.mk kernel stride dilation pad (K.extent.get d) (K'.extent.get d)).Valid) :
    (Window.mk kernel stride dilation pad (K.length d) (K'.length d)).Valid := by
  have hfits : (kernel - 1) * dilation + 1 ≤ K.extent.get d + pad.front + pad.back := hw.fits
  have hout : K'.extent.get d =
      (K.extent.get d + pad.front + pad.back - ((kernel - 1) * dilation + 1)) / stride + 1 :=
    hw.output_eq
  have hlen := hK.length_eq d
  have hlen' := hK'.length_eq d
  rw [htiles] at hlen'
  have hstride : 0 < stride := hw.stride_pos
  refine ⟨hw.kernel_pos, hw.stride_pos, hw.dilation_pos, ?_, ?_⟩
  · change (kernel - 1) * dilation + 1 ≤ K.length d + pad.front + pad.back
    omega
  · change K'.length d =
      (K.length d + pad.front + pad.back - ((kernel - 1) * dilation + 1)) / stride + 1
    by_cases ht : K.tiles.get d = 1
    · grind
    · -- The windows of all tiles but the last one, and those of the last one.
      have hsplit : K.length d + pad.front + pad.back - ((kernel - 1) * dilation + 1) =
          K.extent.get d + pad.front + pad.back - ((kernel - 1) * dilation + 1) +
            stride * ((K.tiles.get d - 1) * K'.pitch d) := by
        have hpitch : (K.tiles.get d - 1) * K.pitch d =
            stride * ((K.tiles.get d - 1) * K'.pitch d) := by
          rw [← (hs ht).pitch]
          ring
        omega
      rw [hsplit, Nat.add_mul_div_left _ _ hstride, hlen', hout]
      omega

theorem extent_of_length_le {s : Shape} (h : s.length ≤ i) : s.extent i = 0 := by
  rw [extent, List.getElem?_eq_none h]
  rfl

/-- Off the spatial axes of a layout, an arrangement does not depend on the extents of a sample. -/
theorem AxisMap.Valid.arrange_off (hm : m.Valid) (h : m.spatialOrder l = some order)
    {S S' : Pair Nat} (hi : ∀ d, i ≠ l.spatial.get d) :
    extent (m.arrange N C S) i = extent (m.arrange N C S') i := by
  by_cases hlt : i < 4
  · rcases hm.axis_cases hlt with rfl | rfl | ⟨d, rfl⟩
    · rw [arrange_batch hm, arrange_batch hm]
    · rw [arrange_channel hm, arrange_channel hm]
    · exact absurd (spatial_of_order h d).symm (hi (order.get d))
  grind [extent_of_length_le, length_arrange]

namespace SlidesOn

variable (h : SlidesOn K K' m l order kernel stride dilation pad)

include h

theorem layout_eq : l.batch = m.batch ∧ l.channel = m.channel :=
  let ⟨hb, hc, _⟩ := spatialOrder_eq_some.1 h.order_eq
  ⟨hb, hc⟩

/-- The windows of a batch fit the canvas. -/
theorem slid (hs : Operator.Slid l (m.arrange N C K.extent) kernel stride dilation pad
      (m.arrange N C' K.extent) (m.arrange N C' K'.extent)) :
    Operator.Slid l (m.arrange 1 C K.size) kernel stride dilation pad (m.arrange 1 C' K.size)
      (m.arrange 1 C' K'.size) where
  rank_eq := by rw [length_arrange, length_arrange]
  window d' := by
    obtain ⟨d, rfl⟩ := h.map.order_surjective h.order_eq d'
    have hw := hs.window (order.get d)
    rw [spatial_of_order h.order_eq d, arrange_fuse h.map, arrange_fuse h.map]
      at hw ⊢
    rw [Canvas.size_get, Canvas.size_get]
    exact h.valid.window h.valid' h.tiles (h.slides d) hw
  off _ hi := h.map.arrange_off h.order_eq hi

end SlidesOn

theorem SlidesOn.convShape {p : Conv2d} {w : Shape} {bias : Option Shape}
    (h : SlidesOn K K' m p.layout order ⟨w.extent 2, w.extent 3⟩ p.stride p.dilation p.pad)
    (hs : Operator.ConvShape p (m.arrange N C K.extent) w bias (m.arrange N C' K'.extent)) :
    Operator.ConvShape p (m.arrange 1 C K.size) w bias (m.arrange 1 C' K'.size) := by
  have hchannel := h.layout_eq.2
  have hslid := hs.slid
  have hout : w.extent 0 = C' := by
    have hoff := hslid.off m.channel fun d => by
      rw [← hchannel]
      exact (Layout.isValid_iff.1 hs.layout).channel_ne_fuse d
    grind [set_channel, arrange_channel, map]
  rw [hchannel, set_channel h.map, hout] at hslid
  refine ⟨length_arrange, hs.layout, hs.weight_rank, ?_, hs.bias_shape, ?_⟩
  · rw [hs.channels, hchannel, arrange_channel h.map, arrange_channel h.map]
  · rw [hchannel, set_channel h.map, hout]
    exact h.slid hslid

theorem SlidesOn.poolShape {p : Pool2d}
    (h : SlidesOn K K' m p.layout order p.kernel p.stride (.both 1) p.pad)
    (hs : Operator.PoolShape p (m.arrange N C K.extent) (m.arrange N C K'.extent)) :
    Operator.PoolShape p (m.arrange 1 C K.size) (m.arrange 1 C K'.size) :=
  ⟨length_arrange, hs.layout, h.slid hs.slid⟩

/-! ## Padding -/

/-- Padding takes the canvas `K` to the canvas `K'`: along a dimension with more than one tile, it
moves cells from the gap into the tile. -/
structure PadsOn (K K' : Canvas) (m : AxisMap) (p : ConstantPad) : Prop where
  valid : K.Valid
  valid' : K'.Valid
  tiles : K'.tiles = K.tiles
  map : m.Valid
  batch : extent p.front m.batch = 0 ∧ extent p.back m.batch = 0
  gap : ∀ d, K.tiles.get d ≠ 1 → K.gap.get d = K'.gap.get d +
    (extent p.front (m.fuse.get d) + extent p.back (m.fuse.get d))

namespace PadsOn

variable (h : PadsOn K K' m p)
  (hs : Operator.PadShape p (m.arrange N C K.extent) (m.arrange N C' K'.extent))

include h hs

theorem extent_eq (d : Dim) : K'.extent.get d = K.extent.get d +
    extent p.front (m.fuse.get d) + extent p.back (m.fuse.get d) := by
  have he := hs.extent_eq (m.fuse.get d) (by rw [length_arrange]; exact h.map.fuse_lt d)
  rwa [arrange_fuse h.map, arrange_fuse h.map] at he

/-- Where there is more than one tile, tiles stay where they are. -/
theorem pitch_eq {d : Dim} (hd : K.tiles.get d ≠ 1) : K'.pitch d = K.pitch d := by
  rw [Canvas.pitch, Canvas.pitch, h.extent_eq hs, h.gap d hd]
  omega

theorem length_eq (d : Dim) : K'.length d = K.length d +
    extent p.front (m.fuse.get d) + extent p.back (m.fuse.get d) := by
  rw [h.valid.length_eq, h.valid'.length_eq, h.extent_eq hs, h.tiles]
  by_cases hd : K.tiles.get d = 1
  · grind
  · rw [h.pitch_eq hs hd]
    omega

theorem padShape : Operator.PadShape p (m.arrange 1 C K.size) (m.arrange 1 C' K'.size) := by
  refine ⟨?_, ?_, ?_, fun i hi => ?_⟩
  · rw [hs.front_rank, length_arrange, length_arrange]
  · rw [hs.back_rank, length_arrange, length_arrange]
  · rw [length_arrange, length_arrange]
  rw [length_arrange] at hi
  rcases h.map.axis_cases hi with rfl | rfl | ⟨d, rfl⟩
  · rw [arrange_batch h.map, arrange_batch h.map, h.batch.1, h.batch.2]
  · grind [length_arrange, arrange_channel, Operator.PadShape.extent_eq, map]
  · rw [arrange_fuse h.map, arrange_fuse h.map, Canvas.size_get, Canvas.size_get]
    exact h.length_eq hs d

end PadsOn

/-! ## Concatenation -/

/-- Batches that are concatenated along the channels are so on a canvas. -/
theorem concatShape_canvas {ι : Type} {xs : List ι} {x : ι} {c : ι → Nat} (hm : m.Valid)
    (h : Operator.ConcatShape m.channel (m.arrange N (c x) K.extent)
      (xs.map fun x => m.arrange N (c x) K.extent) (m.arrange N C K.extent)) :
    Operator.ConcatShape m.channel (m.arrange 1 (c x) K.size)
      (xs.map fun x => m.arrange 1 (c x) K.size) (m.arrange 1 C K.size) := by
  have htotal : C = (xs.map c).sum := by
    have hshape := congrArg (fun s : Shape => s.extent m.channel) h.shape_eq
    grind [set_channel, arrange_channel, map_congr_left]
  refine ⟨by rw [length_arrange]; exact hm.channel_lt, fun y hy => ?_, ?_⟩
  · obtain ⟨z, -, rfl⟩ := mem_map.1 hy
    refine ⟨by rw [length_arrange, length_arrange], fun i hi => ?_⟩
    rw [length_arrange] at hi
    grind [arrange_batch, arrange_fuse, Valid.axis_cases]
  · rw [set_channel hm, htotal, map_map]
    refine congrArg (fun l : List Nat => m.arrange 1 l.sum K.size) (map_congr_left fun x _ => ?_)
    exact (arrange_channel hm).symm

end CanvasFusion
