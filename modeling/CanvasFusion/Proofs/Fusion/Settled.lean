import CanvasFusion.Proofs.Fusion.Overflow
import CanvasFusion.Proofs.Tiling.Canvas

/-!
# What gap inference settles

When inference is over, every tensor is placed and has a gap, and every operation has a plan.
Emission reads these tables and leaves them as they are. So what it relies on is a property of the
*core* of the state: what is left when all that emission writes is taken out, and the limit with it.

A tensor that is on a canvas, or can be tiled onto one, has a canvas of its own (`canvasOf`). The
gap equations of an operation on the canvas relate the canvases of its inputs to that of its output:
a window slides from one to the other (`WindowRules.slides`), and padding moves cells from the gap
into the tile.
-/

namespace CanvasFusion

open AxisMap GapRule Shape

/-! ## Grids in plain arithmetic -/

namespace Grid

variable {g : Grid} {d : Dim}

theorem canvasExtent_unbounded (hd : 0 < g.tiles.get d) (extent gap : Nat) :
    g.canvasExtent .unbounded d extent gap =
      .ok (g.tiles.get d * extent + (g.tiles.get d - 1) * gap) := by
  have h1 : 1 ≤ g.tiles.get d := hd
  simp only [canvasExtent, Limit.mul_unbounded, bind_ok, Size.sub, h1, if_true, Limit.add_unbounded]

theorem isTiled_iff (hd : 0 < g.tiles.get d) : g.isTiled d = true ↔ g.tiles.get d ≠ 1 := by
  rw [isTiled, decide_eq_true_iff]
  omega

end Grid

/-! ## Rules and canvases -/

namespace Canvas

variable {K K' : Canvas} {d : Dim} {w : Window}

/-- A window with an admitted gap slides from the canvas of its input to that of its output. -/
theorem slides_of_admitted (hw : w.Valid) (hin : K.extent.get d = w.input)
    (hout : K'.extent.get d = w.output) (hadm : (window w).admitted (K.gap.get d) = K.gap.get d)
    (hafter : K'.gap.get d = (window w).after (K.gap.get d)) :
    Slides K K' d w.kernel w.stride w.dilation w.pad.front := by
  obtain ⟨hdvd, hleast⟩ := (window_admitted_iff hw).1 hadm
  have hcover := covered_le hleast
  have hstride := hw.stride_pos
  have hle : w.output ≤ (w.input + K.gap.get d) / w.stride :=
    (Nat.le_div_iff_mul_le hstride).2 hcover
  have hfront : w.pad.front ≤ w.least := Nat.le_trans (Nat.le_max_left _ _) (Nat.le_max_left _ _)
  have hhang : w.overhang ≤ w.least := Nat.le_trans (Nat.le_max_right _ _) (Nat.le_max_left _ _)
  refine ⟨?_, Nat.le_trans hfront hleast, ?_⟩
  · grind [pitch, after, Nat.div_mul_cancel]
  · have hreach : (w.output - 1) * w.stride + ((w.kernel - 1) * w.dilation + 1) -
        (w.pad.front + w.input) ≤ K.gap.get d := Nat.le_trans hhang hleast
    rw [pitch, hin, hout]
    omega

/-- A window reads the gap if some window of a tile reaches into it. -/
theorem readsGap_iff (hw : w.Valid) (hin : K.extent.get d = w.input)
    (hout : K'.extent.get d = w.output) : (window w).readsGap .unbounded = .ok true ↔
      Reaches K K' d w.kernel w.stride w.dilation w.pad.front := by
  have hback := Window.backReach_ok hw
  unfold Reaches
  rw [hin, hout]
  by_cases hfront : 0 < w.pad.front
  · simp [readsGap, Window.readsGap, hfront]
  · have hreads : (window w).readsGap .unbounded = .ok (decide (0 < w.overhang)) := by
      simp only [readsGap, Window.readsGap, if_neg hfront, hback, bind_ok]
      rfl
    rw [hreads, Except.ok.injEq, decide_eq_true_iff, Window.overhang, Window.span]
    omega

end Canvas

namespace Context

variable {planned ctx ctx' : Context} {t x : TensorId} {o : OpId} {op : Operation} {map : AxisMap}

/-! ## Canvases of tensors -/

/-- The state without what emission writes, in plain arithmetic. -/
def core (ctx : Context) : Context :=
  { ctx with
    limit := .unbounded, fused := .empty, counters := .zero, fusedOf := .empty
    proportions := .empty, fills := .empty, tiled := .empty, defused := .empty, masked := .empty
    visited := [] }

/-- The roles of the axes of a tensor. -/
def mapOf (ctx : Context) (t : TensorId) : AxisMap := (ctx.axisMaps.get? t).getD default

/-- The channels of a tensor. -/
def channelsOf (ctx : Context) (t : TensorId) : Nat :=
  (ctx.cloned.shapeOf t).extent (ctx.mapOf t).channel

/-- The canvas of a tensor that is on one, or could be. -/
def canvasOf (ctx : Context) (t : TensorId) : Canvas where
  tiles := ctx.grid.tiles
  extent := .ofFn fun d => (ctx.cloned.shapeOf t).extent ((ctx.mapOf t).fuse.get d)
  gap := ctx.gapOf t

/-- The shape of a tensor on its canvas. -/
def tiledShape (ctx : Context) (t : TensorId) : Shape :=
  (ctx.mapOf t).arrange 1 (ctx.channelsOf t) (ctx.canvasOf t).size

/-- The tensor holds all samples of the grid, on a canvas or batched. -/
def HasSamples (ctx : Context) (t : TensorId) : Prop := ctx.core.Fits t (ctx.mapOf t)

theorem mapOf_eq (h : ctx.axisMaps.get? t = some map) : ctx.mapOf t = map := by
  rw [mapOf, h]
  rfl

theorem Fits.hasSamples (h : ctx.core.Fits t map) : ctx.HasSamples t := by
  obtain rfl : ctx.mapOf t = map := mapOf_eq h.axisMap
  exact h

/-- The shape on the canvas, at a gap, of a tensor with all samples. -/
theorem canvasShape_arrange (hlimit : ctx.limit = .unbounded) (hpos : ∀ d, 0 < ctx.grid.tiles.get d)
    (hv : map.Valid) (haxis : ctx.axisMaps.get? t = some map) {C : Nat} {extent : Pair Nat}
    (hshape : ctx.cloned.shape t = .ok (map.arrange ctx.grid.count C extent)) (gap : Pair Nat) :
    ctx.canvasShape t gap = .ok (map.arrange 1 C (Canvas.size ⟨ctx.grid.tiles, extent, gap⟩)) := by
  have hlen : (map.arrange ctx.grid.count C extent).length = 4 := length_arrange
  have hstep : ∀ n c y d, (do
      let extent ← Size.entry (map.arrange ctx.grid.count C extent) (map.fuse.get d)
      let extent ← ctx.grid.canvasExtent ctx.limit d extent (gap.get d)
      withDim (map.arrange n c y) (map.fuse.get d) extent) =
        .ok (map.arrange n c (y.set d (Canvas.length ⟨ctx.grid.tiles, extent, gap⟩ d))) := by
    intro n c y d
    rw [entry_ok (hlen.symm ▸ hv.fuse_lt d), bind_ok, arrange_fuse hv, hlimit,
      Grid.canvasExtent_unbounded (hpos d), bind_ok,
      withDim_ok (by rw [length_arrange]; exact hv.fuse_lt d), set_fuse hv]
    rfl
  unfold canvasShape
  rw [hshape, bind_ok, haxis]
  simp only [entry_ok (hlen.symm ▸ hv.batch_lt), bind_ok, arrange_batch hv, ne_eq,
    not_true_eq_false, if_false, withDim_ok (hlen.symm ▸ hv.batch_lt)]
  rw [set_batch hv, Dim.all, List.foldlM_cons, hstep, bind_ok, List.foldlM_cons, hstep, bind_ok]
  refine congrArg (fun y => Except.ok (map.arrange _ _ y)) (Pair.ext_get fun d => ?_)
  cases d <;> rfl

/-- The shape on the canvas, at a gap, of a tensor that fits one. -/
theorem Fits.canvasShape_ok (h : ctx.Fits t map) (hb : ctx.Base) (hp : ctx.Placed)
    (gap : Pair Nat) :
    ctx.canvasShape t gap = .ok (map.arrange 1 ((ctx.cloned.shapeOf t).extent map.channel)
      (Canvas.size ⟨ctx.grid.tiles,
        .ofFn fun d => (ctx.cloned.shapeOf t).extent (map.fuse.get d), gap⟩)) := by
  have hv := hp.valid h.axisMap
  refine canvasShape_arrange hb.limit hb.tiles_pos hv h.axisMap ?_ gap
  rw [hp.shape_ok h.axisMap, ← h.batch, ← eq_arrange hv (hp.rank h.axisMap)]

/-! ## Settled states -/

/-- Everything is placed and planned, as the warnings say, and the gaps are the least solution. -/
structure Settled (ctx : Context) : Prop where
  sound : ctx.Sound
  allPlaced : ctx.AllPlaced
  gap : ∀ {t x}, ctx.cloned.tensors.get? t = some x → ctx.gaps.get? t = some (ctx.gapOf t)
  solves : ctx.Solves ctx.gapOf
  least : ∀ σ, ctx.Solves σ → ctx.Below ctx.gapOf σ
  warned : ctx.Warned

theorem Sound.extends_core (hs : ctx.Sound) : ctx.Extends ctx.core :=
  ⟨hs.base.limit.symm, rfl, rfl, rfl, fun _ => rfl, fun _ => rfl, fun _ => rfl⟩

theorem Sound.core (hs : ctx.Sound) : ctx.core.Sound := by
  have hext := hs.extends_core
  exact ⟨hext.base hs.base, { hs.placed with }, { hs.consistent with
    op := fun hop => (hs.consistent.op hop).imp id hext.plannedAt }, hs.gapped.extends hext rfl rfl⟩

theorem Inferring.settled (h : Inferring planned ctx []) (hp : planned.Sound) :
    ctx.core.Settled where
  sound := h.sound.core
  allPlaced := h.allPlaced
  gap ht := by
    obtain ⟨g, hg⟩ := h.recorded ht
    exact hg.trans (congrArg some (gapOf_eq hg).symm)
  solves := { h.solves with }
  least σ hσ := by
    have hext : planned.Extends ctx.core :=
      (h.extends_planned hp.consistent hp.base).trans h.sound.extends_core
    have hbelow := h.below σ (hσ.of_extends hext)
    rw [← h.frame.below] at hbelow
    exact hbelow
  warned := h.warned.keep h.sound.consistent h.sound.extends_core rfl rfl

/-- **Gap inference at any limit** settles the state, or diverges, or overflows. -/
theorem after_inferGaps_at (hf : (ctx.under .unbounded).Fresh)
    (h0 : ctx.counters.backwardPasses = 0) :
    After Pass.inferGaps ctx (fun _ ctx' => ctx'.core.Settled ∧ Frame ctx ctx')
      (fun e _ => e = .diverged ctx.maxBackwardPasses ∨
        e = .fault .overflow ∧ ctx.limit ≠ .unbounded) := by
  obtain ⟨planned, hp⟩ := exists_planned hf
  obtain ⟨p, hpeak⟩ := Pass.peaks_inferGaps ctx
  have hself : ctx.under ctx.limit = ctx := under_self rfl
  unfold After
  by_cases hlim : ctx.limit.Holds p
  · have hrun := hpeak.holds ctx.limit hlim
    rw [hself] at hrun
    rcases (after_inferGaps hf h0 hp).run_cases with ⟨_, ctx', hrun', hend⟩ | ⟨e, _, hrun', he, -⟩
    · rw [hrun, hrun']
      have hframe := hp.frame.trans hend.frame
      refine ⟨hend.settled hp.sound, ?_, hframe.unsupported⟩
      rw [hframe.eq]
      rfl
    · rw [hrun, hrun']
      exact .inl (he.trans (congrArg _ hp.frame.maxBackwardPasses))
  · grind [Limit.holds_unbounded, StepPeak.stops]

/-! ## What is settled -/

section Settled

variable (h : ctx.core.Settled)

include h

theorem Settled.wellFormed : ctx.cloned.WellFormed := h.sound.base.wellFormed

theorem Settled.sequential : ctx.cloned.Sequential := h.sound.base.sequential

/-- There is a warning for each operation whose inputs cannot share a canvas, and no other about
plans. -/
theorem Settled.mem_warnings {name reason : String} :
    .unbalancedBranches o name reason ∈ ctx.warnings ↔ ctx.core.Unbalanced o name reason := by
  refine (h.warned o name reason).trans (and_iff_right_of_imp ?_)
  rintro ⟨op, -, hop, -⟩
  exact h.allPlaced.plans_ne h.sound hop

theorem Settled.gap_ok {y : Tensor} (ht : ctx.cloned.tensors.get? t = some y) :
    ctx.gap t = .ok (ctx.gapOf t) := by
  have hgap : ctx.gaps.get? t = some (ctx.gapOf t) := h.gap ht
  rw [Context.gap, hgap]
  rfl

theorem Settled.canvas_valid (t : TensorId) : (ctx.canvasOf t).Valid where
  tiles_pos := h.sound.base.tiles_pos
  untiled d hd := by
    refine h.sound.gapped.gapOf_untiled t ?_
    rw [← Bool.not_eq_true, Grid.isTiled_iff (h.sound.base.tiles_pos d)]
    exact not_not.2 hd

theorem Settled.count_eq (t : TensorId) : (ctx.canvasOf t).count = ctx.grid.count :=
  h.sound.base.count_eq

/-- A source is not on a canvas. -/
theorem Settled.source (ht : t ∈ ctx.cloned.sources) : ctx.isCanvas t = false := by
  obtain ⟨y, hy, -⟩ := h.wellFormed.mem_sources.1 ht
  have hplace : ctx.placements.get? t = some .batched :=
    (h.sound.consistent.source ht (h.allPlaced t y hy)).1
  simp [isCanvas, hplace]

/-- A tensor on a canvas holds all samples of the grid. -/
theorem Settled.hasSamples (ht : ctx.isCanvas t = true) : ctx.HasSamples t := by
  obtain ⟨map, hmap, hbatch⟩ := h.sound.placed.canvas ht
  exact Fits.hasSamples ⟨hmap, .inl ht, hbatch⟩

section HasSamples

variable (ht : ctx.HasSamples t)

include ht

omit h in
theorem HasSamples.axisMap_eq : ctx.axisMaps.get? t = some (ctx.mapOf t) := ht.axisMap

omit h in
theorem HasSamples.axisMap_ok : ctx.axisMap t = .ok (ctx.mapOf t) := by
  rw [axisMap, ht.axisMap_eq]
  rfl

theorem HasSamples.valid : (ctx.mapOf t).Valid := h.sound.placed.valid ht.axisMap

theorem HasSamples.rank : (ctx.cloned.shapeOf t).length = 4 := h.sound.placed.rank ht.axisMap

theorem HasSamples.known : ∃ y, ctx.cloned.tensors.get? t = some y :=
  known_of_rank (ht.rank h)

/-- The shape of a tensor with all samples, by roles. -/
theorem HasSamples.shape_eq : ctx.cloned.shapeOf t =
    (ctx.mapOf t).arrange (ctx.canvasOf t).count (ctx.channelsOf t) (ctx.canvasOf t).extent := by
  have hbatch : (ctx.cloned.shapeOf t).extent (ctx.mapOf t).batch = ctx.grid.count := ht.batch
  rw [h.count_eq t, ← hbatch]
  exact eq_arrange (ht.valid h) (ht.rank h)

/-- The canvas shape that inference recorded. -/
theorem HasSamples.gappedShape_ok : ctx.gappedShape t = .ok (ctx.tiledShape t) := by
  obtain ⟨y, hy⟩ := ht.known h
  obtain ⟨s, hs, hshape⟩ := h.sound.gapped.shape (h.gap hy)
  have hfits : ctx.core.Fits t (ctx.mapOf t) := ht
  rw [hfits.canvasShape_ok h.sound.base h.sound.placed] at hshape
  have hrecorded : ctx.canvasShapes.get? t = some s := hs
  rw [gappedShape, hrecorded, ← Except.ok.inj hshape]
  rfl

end HasSamples

end Settled

end Context

end CanvasFusion
