import CanvasFusion.Proofs.Fusion.FormValues
import CanvasFusion.Proofs.Tiling.CanvasBatch

/-!
# Running adapters

What the operations of an adapter compute, wherever the fused graph is run later on (`Computes`).

The operations come from `after_buildTiled`, `after_buildDefused` and `after_buildMasked`. Their
values are read off an assignment that models the graph, which every run is.
-/

namespace CanvasFusion

open Value Grid

/-! ## Runs -/

section Runs

variable {α : Type} [Scalar α] {g : Graph} {x f : TensorId} {R : Value α → Value α → Prop}

/-- In every run of the graph, or of one that it has grown into, the values of `x` and `f` are
related. If `x` is an input, its value is what it is fed. -/
structure Graph.Computes (g : Graph) (x f : TensorId) (R : Value α → Value α → Prop) : Prop where
  runnable : g.Runnable
  run : ∀ {G : Graph}, g.Grows G → G.Runnable → ∀ {feeds : List (TensorId × Array α)},
    G.FedBy feeds →
    ∃ st v w, evaluate .unbounded G feeds = .ok st ∧ st.get? x = some v ∧ st.get? f = some w ∧
      (x ∈ G.inputs → ∃ data, fedData feeds x = some data ∧ v = ⟨G.shapeOf x, data⟩) ∧ R v w

/-- What is true of every assignment that models the graph is true of every run. -/
theorem Graph.Runnable.computes (hg : g.Runnable) {s s' : Shape} (hx : g.Has x s) (hf : g.Has f s')
    (hR : ∀ W : TensorId → Value α, g.Models W → R (W x) (W f)) : g.Computes x f R := by
  refine ⟨hg, fun {G} hgrows hG feeds hfeeds => ?_⟩
  obtain ⟨st, W, hst, hW, hheld, hinputs⟩ := hG.evaluates hfeeds
  obtain ⟨y, hy⟩ := (hx.grow hgrows).known
  obtain ⟨z, hz⟩ := (hf.grow hgrows).known
  refine ⟨st, W x, W f, hst, hheld x y hy, hheld f z hz, fun hin => ⟨_, hinputs x hin, ?_⟩,
    hR W (hgrows.models hg.wellFormed hW)⟩
  rw [← hW.shape hy]

/-- The only input of a graph can be fed anything that has its shape. -/
theorem Graph.Computes.feed (h : g.Computes x f R) (hin : g.inputs = [x]) {v : Value α}
    (hx : g.Has x v.shape) (hv : v.Full) :
    ∃ st w, evaluate .unbounded g [(x, v.data)] = .ok st ∧ st.get? f = some w ∧ R v w := by
  obtain ⟨y, hy, hshape⟩ := id hx
  have hfed : fedData [(x, v.data)] x = some v.data := by simp [fedData]
  have hfeeds : g.FedBy [(x, v.data)] := by
    refine ⟨fun p hp => ?_, fun t ht => ?_⟩
    · rw [List.mem_singleton.1 hp]
      exact ⟨y, hy, hshape ▸ hv⟩
    · grind
  obtain ⟨st, u, w, hst, -, hw, hu, hR⟩ := h.run (.refl g) h.runnable hfeeds
  obtain ⟨data, hdata, rfl⟩ := hu (hin ▸ List.mem_singleton_self x)
  cases hfed.symm.trans hdata
  rw [hx.shapeOf_eq] at hR
  exact ⟨st, w, hst, hw, hR⟩

/-- Where nothing can go wrong, a run gives a result. -/
theorem After.exists_run {β : Type} {m : Pass β} {ctx : Context} {Q : β → Context → Prop}
    (h : After m ctx Q (Outside True)) : ∃ b ctx', m.run ctx = (.ok b, ctx') ∧ Q b ctx' := by
  rcases h.run_cases with hok | ⟨e, ctx', -, herror⟩
  · exact hok
  · exact absurd trivial herror.2

end Runs

/-! ## Before an adapter -/

namespace Context

variable {ctx : Context} {t x : TensorId} {m : AxisMap} {N C : Nat} {extent gap : Pair Nat}

/-- The tensor `t`, which is `x` in the fused graph, holds `N` samples. All that an adapter reads is
on record, and no size is too large. -/
structure Loaded (ctx : Context) (t x : TensorId) (m : AxisMap) (N C : Nat)
    (extent gap : Pair Nat) : Prop extends ctx.Adapts t x m C extent gap, ctx.Roomy C extent where
  grid : ofCount .unbounded N = .ok ctx.grid

/-- A batch that is not tiled yet. Its shape on the canvas is on record. -/
structure Batched (ctx : Context) (t x : TensorId) (m : AxisMap) (N C : Nat)
    (extent gap : Pair Nat) : Prop extends ctx.Loaded t x m N C extent gap where
  has : ctx.fused.Has x (m.arrange ctx.grid.count C extent)
  recorded : ∃ s, ctx.canvasShape t gap = .ok s ∧ ctx.gappedShape t = .ok s
  untiled : ctx.tiled.get? t = none

/-- A batch on a canvas. -/
structure Laid (ctx : Context) (t x : TensorId) (m : AxisMap) (N C : Nat) (extent gap : Pair Nat) :
    Prop extends ctx.Loaded t x m N C extent gap where
  has : ∃ s, ctx.canvasShape t gap = .ok s ∧ ctx.fused.Has x s

namespace Loaded

variable (h : ctx.Loaded t x m N C extent gap)

include h

theorem packed : ctx.grid.Packed := packed_of_ofCount h.grid

theorem lays : ctx.grid.Lays (ctx.grid.spaced extent gap) where
  tiles_pos := h.packed.tiles_pos
  tiles := rfl
  count := h.packed.slots_eq

theorem canvasShape_ok :
    ctx.canvasShape t gap = .ok (m.arrange 1 C (ctx.grid.spaced extent gap).size) := by
  refine canvasShape_arrange h.limit h.packed.tiles_pos h.valid ?_ h.shape gap
  have hmap := h.axisMap
  unfold axisMap at hmap
  cases hget : ctx.axisMaps.get? t with
  | none =>
    rw [hget] at hmap
    cases hmap
  | some m' =>
    rw [hget] at hmap
    cases hmap
    rfl

end Loaded

theorem Laid.has_canvas (h : ctx.Laid t x m N C extent gap) :
    ctx.fused.Has x (m.arrange 1 C (ctx.grid.spaced extent gap).size) := by
  obtain ⟨s, hs, hhas⟩ := h.has
  cases h.canvasShape_ok.symm.trans hs
  exact hhas

/-! ### A state with one tensor -/

end Context

/-- A graph of one input. -/
def Graph.single (s : Shape) : Graph := Graph.empty.withTensor (.ofSpec ⟨.f32, s, .input, none⟩)

theorem Graph.runnable_single (s : Shape) : (Graph.single s).Runnable :=
  Graph.runnable_empty.withSource rfl rfl rfl (fun h => by cases h) fun _ => rfl

theorem Graph.has_single (s : Shape) : (Graph.single s).Has ⟨0⟩ s := ⟨_, rfl, rfl⟩

namespace Context

/-- A state with one tensor, which is `x` in the fused graph. -/
def bench (g : Grid) (m : AxisMap) (C : Nat) (extent gap : Pair Nat) (fused : Graph)
    (x : TensorId) : Context where
  limit := .unbounded
  source := .empty
  cloned := .single (m.arrange g.count C extent)
  fused := fused
  axes := m
  grid := g
  maxBackwardPasses := 0
  warnings := []
  counters := .zero
  cloneOf := .empty
  fusedOf := .record .empty ⟨0⟩ x
  gaps := .record .empty ⟨0⟩ gap
  canvasShapes := .record .empty ⟨0⟩ (m.arrange 1 C (g.spaced extent gap).size)
  proportions := .empty
  placements := .empty
  axisMaps := .record .empty ⟨0⟩ m
  plans := .empty
  fills := .empty
  tiled := .empty
  defused := .empty
  masked := .empty
  visited := []

section Bench

variable {g : Grid} {m : AxisMap} {N C : Nat} {extent : Pair Nat} {fused : Graph} {x : TensorId}
  (hgrid : ofCount .unbounded N = .ok g) (hm : m.Valid) (hC : 0 < C)
  (hextent : ∀ d, 0 < extent.get d) (hfused : fused.Runnable) (gap : Pair Nat)

include hgrid hm hC hextent hfused

theorem loaded_bench (x : TensorId) :
    (bench g m C extent gap fused x).Loaded ⟨0⟩ x m N C extent gap where
  valid := hm
  axisMap := rfl
  gap_ok := rfl
  shape := rfl
  fusedTensor := rfl
  runnable := hfused
  proportions h := absurd rfl h
  limit := rfl
  channels_pos := hC
  extent_pos := hextent
  grid := hgrid

theorem batched_bench (hx : fused.Has x (m.arrange g.count C extent)) :
    (bench g m C extent gap fused x).Batched ⟨0⟩ x m N C extent gap :=
  have h := loaded_bench hgrid hm hC hextent hfused gap x
  ⟨h, hx, ⟨_, h.canvasShape_ok, rfl⟩, rfl⟩

theorem laid_bench (hx : fused.Has x (m.arrange 1 C (g.spaced extent gap).size)) :
    (bench g m C extent gap fused x).Laid ⟨0⟩ x m N C extent gap :=
  have h := loaded_bench hgrid hm hC hextent hfused gap x
  ⟨h, _, h.canvasShape_ok, hx⟩

end Bench

end Context

open Context

/-! ## Tiling -/

section Adapters

variable {α : Type} [Scalar α] {ctx : Context} {t x f : TensorId} {m : AxisMap} {N C : Nat}
  {extent gap : Pair Nat} {W : TensorId → Value α} {g : Graph}

theorem Context.Batched.exists_tiled (h : ctx.Batched t x m N C extent gap) :
    ∃ f ctx', (Pass.tile t).run ctx = (.ok f, ctx') ∧
      ctx.fused.Leads ctx'.fused x ((ctx.grid.spaced extent gap).tiling m C) f
        (m.arrange 1 C (ctx.grid.spaced extent gap).size) := by
  have hx := h.has
  rw [← h.packed.slots_eq] at hx
  obtain ⟨s, hs, hrecorded⟩ := h.recorded
  cases h.canvasShape_ok.symm.trans hs
  refine After.exists_run (.bind (.get ?_))
  rw [h.untiled]
  exact after_buildTiled (K := ctx.grid.spaced extent gap) h.toAdapts h.lays (fun _ => h.toRoomy) hx
    hrecorded h.untiled fun _ _ _ hleads => hleads

/-- What the chain of a tiling computes. -/
theorem Context.Batched.tiled_value (h : ctx.Batched t x m N C extent gap)
    (hleads : ctx.fused.Leads g x ((ctx.grid.spaced extent gap).tiling m C) f
      (m.arrange 1 C (ctx.grid.spaced extent gap).size)) (hW : g.Models W) :
    HoldsBatch ctx.grid m C extent gap (W x) (W f) ∧ ZeroBetween ctx.grid m extent gap (W f) := by
  obtain ⟨hfull, hshape⟩ := hW.of_has (h.has.grow hleads.grows)
  rw [← h.packed.slots_eq] at hshape
  have hchain := hleads.last ▸ hleads.chain
  obtain ⟨hon, hzero⟩ := Canvas.tiling_onCanvas h.lays.toTiled h.valid hfull hshape
    (hchain.pipes hleads.runnable.wellFormed hW)
  have hplaces := places_spaced h.packed extent gap
  exact ⟨hon.holdsBatch h.packed, (hplaces.zeroBetween_iff h.valid hon.canvas_shape).2 hzero⟩

/-- **Tiling lays out a batch.** The operations that it appends are computed without an error. The
result has the shape of the canvas, each sample is in its tile, and the cells in no tile hold
zeros. -/
theorem tile_lays_out_batch (h : ctx.Batched t x m N C extent gap) :
    ∃ f ctx', (Pass.tile t).run ctx = (.ok f, ctx') ∧
      ctx.fused.Emits ctx'.fused
        (Graph.chained x ctx.fused.tensors.size ((ctx.grid.spaced extent gap).tiling m C)) [] ∧
      ctx'.fused.Computes x f fun v w : Value α => ctx.canvasShape t gap = .ok w.shape ∧
        HoldsBatch ctx.grid m C extent gap v w ∧ ZeroBetween ctx.grid m extent gap w := by
  obtain ⟨f, ctx', hrun, hleads⟩ := h.exists_tiled
  refine ⟨f, ctx', hrun, hleads.toEmits,
    hleads.runnable.computes (h.has.grow hleads.grows) hleads.has ?_⟩
  intro W hW
  obtain ⟨hholds, hzero⟩ := h.tiled_value hleads hW
  refine ⟨?_, hholds, hzero⟩
  rw [(hW.of_has hleads.has).2]
  exact h.canvasShape_ok

theorem extent_pos_six (d : Dim) : 0 < (Pair.mk 1 2).get d := by
  cases d <;> decide

/-- A cell between two tiles of a grid of two by three. -/
theorem not_inTile_six : ¬ Grid.InTile ⟨6, ⟨2, 3⟩⟩ ⟨1, 2⟩ ⟨2, 1⟩ ⟨1, 0⟩ := by
  intro hin
  have hplaces := places_spaced (packed_of_ofCount ofCount_six) ⟨1, 2⟩ ⟨2, 1⟩
  exact (hplaces.inTile_iff fun d => by cases d <;> decide).1 hin ⟨.first, by decide⟩

theorem tile_lays_out_batch_six : ∃ f ctx' st w,
    (Pass.tile ⟨0⟩).run (bench ⟨6, ⟨2, 3⟩⟩ .crossed 2 ⟨1, 2⟩ ⟨2, 1⟩ (.single [2, 6, 1, 2]) ⟨0⟩) =
      (.ok f, ctx') ∧
    evaluate .unbounded ctx'.fused [(⟨0⟩, sixSamples.data)] = .ok st ∧ st.get? f = some w ∧
    w.shape = [8, 1, 4, 2] ∧ w.cell [4, 0, 3, 1] = sixSamples.cell [1, 3, 0, 1] ∧
    w.cell [0, 0, 1, 0] = Scalar.zero := by
  have h := batched_bench ofCount_six AxisMap.valid_crossed Nat.two_pos extent_pos_six
    (Graph.runnable_single [2, 6, 1, 2]) ⟨2, 1⟩ (Graph.has_single _)
  obtain ⟨f, ctx', hrun, hemits, hcomputes⟩ := tile_lays_out_batch (α := Exact default) h
  obtain ⟨st, w, hst, hw, hshape, hholds, hzero⟩ := hcomputes.feed hemits.continues.inputs
    (v := sixSamples) ((Graph.has_single _).grow hemits.grows) (full_ofFn _ _)
  have hwshape : w.shape = [8, 1, 4, 2] := (Except.ok.inj (h.canvasShape_ok.symm.trans hshape)).symm
  obtain ⟨origin, horigin, htile⟩ := hholds.tile 3 (by decide)
  cases horigin
  refine ⟨f, _, st, w, hrun, hst, hw, hwshape, ?_, ?_⟩
  · exact htile 1 Nat.one_lt_two ⟨0, 1⟩ fun d => by cases d <;> decide
  · refine hzero 0 ⟨1, 0⟩ (hwshape ▸ by decide) ?_
    exact not_inTile_six

/-! ## De-fusing -/

theorem Context.Laid.exists_defused (h : ctx.Laid t x m N C extent gap) {role : Role}
    (hw : role.isWritable = true) (hnew : ctx.defused.get? t = none) :
    ∃ f ctx', (Pass.defuse t role).run ctx = (.ok f, ctx') ∧ ctx.fused.Emits ctx'.fused
        ((ctx.grid.spaced extent gap).defusing m C x ctx.fused.tensors.size)
        (if role = .output then [f] else []) ∧
      ctx'.fused.Cuts (ctx.grid.spaced extent gap) m C x f ∧
      ctx'.fused.Has f (m.arrange (ctx.grid.spaced extent gap).count C extent) := by
  refine After.exists_run (.bind (.get ?_))
  rw [hnew]
  exact after_buildDefused (K := ctx.grid.spaced extent gap) h.toAdapts h.lays (fun _ => h.toRoomy)
    h.has_canvas hw hnew fun _ _ hemits hfresh hhas => ⟨hemits, hfresh ▸ hemits.cuts, hhas⟩

/-- What is cut out of a canvas is the batch that the canvas holds. -/
theorem Context.Laid.defused_value (h : ctx.Laid t x m N C extent gap) (hgrows : ctx.fused.Grows g)
    (hg : g.Runnable) (hcuts : g.Cuts (ctx.grid.spaced extent gap) m C x f)
    (hf : g.Has f (m.arrange (ctx.grid.spaced extent gap).count C extent)) (hW : g.Models W) :
    HoldsBatch ctx.grid m C extent gap (W f) (W x) := by
  obtain ⟨hfull, hshape⟩ := hW.of_has (h.has_canvas.grow hgrows)
  obtain ⟨v, hv⟩ := Canvas.exists_onCanvas h.valid hfull hshape
  rw [hcuts.eq_batch hW hg.wellFormed h.valid hfull hf hv]
  exact hv.holdsBatch h.packed

/-- **De-fusing undoes tiling.** It cuts the batch out of any canvas, whatever the gaps hold. After
tiling, this is the batch that was tiled. Tiling what has been cut out gives the canvas back with
its gaps cleared. -/
theorem defuse_inverts_tile {role : Role} (hw : role.isWritable = true) (m : AxisMap) (N C : Nat)
    (extent gap : Pair Nat) :
    (∀ {ctx : Context} {t X : TensorId}, ctx.Laid t X m N C extent gap → ctx.defused.get? t = none →
      ∃ f ctx', (Pass.defuse t role).run ctx = (.ok f, ctx') ∧
        ctx.fused.Emits ctx'.fused
          ((ctx.grid.spaced extent gap).defusing m C X ctx.fused.tensors.size)
          (if role = .output then [f] else []) ∧
        ctx'.fused.Computes X f fun V v : Value α => HoldsBatch ctx.grid m C extent gap v V) ∧
    (∀ {ctx ctx₁ ctx₂ ctx₃ : Context} {t t' x X f : TensorId}, ctx.Batched t x m N C extent gap →
      (Pass.tile t).run ctx = (.ok X, ctx₁) → ctx₁.fused.Grows ctx₂.fused →
      ctx₂.Laid t' X m N C extent gap → ctx₂.defused.get? t' = none →
      (Pass.defuse t' role).run ctx₂ = (.ok f, ctx₃) →
      ctx₃.fused.Computes x f fun v w : Value α => w = v) ∧
    ∀ {ctx ctx₁ ctx₂ ctx₃ : Context} {t t' X x Y : TensorId}, ctx.Laid t X m N C extent gap →
      ctx.defused.get? t = none →
      (Pass.defuse t role).run ctx = (.ok x, ctx₁) → ctx₁.fused.Grows ctx₂.fused →
      ctx₂.Batched t' x m N C extent gap → (Pass.tile t').run ctx₂ = (.ok Y, ctx₃) →
      ctx₃.fused.Computes X Y fun V W : Value α => Cleared ctx.grid m extent gap V W := by
  refine ⟨?_, ?_, ?_⟩
  · intro ctx t X h hnew
    obtain ⟨f, ctx', hrun, hemits, hcuts, hhas⟩ := h.exists_defused hw hnew
    refine ⟨f, ctx', hrun, hemits,
      hemits.runnable.computes (h.has_canvas.grow hemits.grows) hhas fun W hW => ?_⟩
    exact h.defused_value hemits.grows hemits.runnable hcuts hhas hW
  · intro ctx ctx₁ ctx₂ ctx₃ t t' x X f h hrun hgrows h' hnew hrun'
    obtain ⟨_, _, htile, hleads⟩ := h.exists_tiled
    obtain ⟨_, _, hdefuse, hemits, hcuts, hhas⟩ := h'.exists_defused hw hnew
    cases hrun.symm.trans htile
    cases hrun'.symm.trans hdefuse
    have hgrid : ctx₂.grid = ctx.grid := Except.ok.inj (h'.grid.symm.trans h.grid)
    rw [hgrid] at hcuts hhas
    have hall := hgrows.trans hemits.grows
    refine hemits.runnable.computes ((h.has.grow hleads.grows).grow hall) hhas fun W hW => ?_
    obtain ⟨hholds, -⟩ := h.tiled_value hleads (hall.models hleads.runnable.wellFormed hW)
    exact hcuts.eq_batch hW hemits.runnable.wellFormed h.valid hholds.canvas_full hhas
      (hholds.onCanvas h.packed)
  · intro ctx ctx₁ ctx₂ ctx₃ t t' X x Y h hnew hrun hgrows h' hrun'
    obtain ⟨_, _, hdefuse, hemits, hcuts, hhas⟩ := h.exists_defused hw hnew
    obtain ⟨_, _, htile, hleads⟩ := h'.exists_tiled
    cases hrun.symm.trans hdefuse
    cases hrun'.symm.trans htile
    have hgrid : ctx₂.grid = ctx.grid := Except.ok.inj (h'.grid.symm.trans h.grid)
    have hall := hgrows.trans hleads.grows
    refine hleads.runnable.computes ((h.has_canvas.grow hemits.grows).grow hall) hleads.has
      fun W hW => ?_
    obtain ⟨hholds, hzero⟩ := h'.tiled_value hleads hW
    rw [hgrid] at hholds hzero
    have hcut := h.defused_value hemits.grows hemits.runnable hcuts hhas
      (hall.models hemits.runnable.wellFormed hW)
    exact hcut.cleared hholds h.packed h.valid hzero

/-- Eight rows of four cells, with numbers on tiles and gaps. -/
def littered : Value (Exact default) :=
  ofFn (AxisMap.crossed.arrange 1 2 ⟨4, 8⟩) fun index => ⟨Shape.position [8, 1, 4, 2] index + 1⟩

theorem defuse_inverts_tile_six :
    (∃ X ctx₁ f ctx₂ st, (Pass.tile ⟨0⟩).run
        (bench ⟨6, ⟨2, 3⟩⟩ .crossed 2 ⟨1, 2⟩ ⟨2, 1⟩ (.single [2, 6, 1, 2]) ⟨0⟩) = (.ok X, ctx₁) ∧
      (Pass.defuse ⟨0⟩ .output).run
        (bench ⟨6, ⟨2, 3⟩⟩ .crossed 2 ⟨1, 2⟩ ⟨2, 1⟩ ctx₁.fused X) = (.ok f, ctx₂) ∧
      evaluate .unbounded ctx₂.fused [(⟨0⟩, sixSamples.data)] = .ok st ∧
      st.get? f = some sixSamples) ∧
    ∃ x ctx₁ Y ctx₂ st W, (Pass.defuse ⟨0⟩ .output).run
        (bench ⟨6, ⟨2, 3⟩⟩ .crossed 2 ⟨1, 2⟩ ⟨2, 1⟩ (.single [8, 1, 4, 2]) ⟨0⟩) = (.ok x, ctx₁) ∧
      (Pass.tile ⟨0⟩).run
        (bench ⟨6, ⟨2, 3⟩⟩ .crossed 2 ⟨1, 2⟩ ⟨2, 1⟩ ctx₁.fused x) = (.ok Y, ctx₂) ∧
      evaluate .unbounded ctx₂.fused [(⟨0⟩, littered.data)] = .ok st ∧ st.get? Y = some W ∧
      Cleared ⟨6, ⟨2, 3⟩⟩ .crossed ⟨1, 2⟩ ⟨2, 1⟩ littered W ∧ W.cell [0, 0, 1, 0] =
        Scalar.zero := by
  have hw : Role.output.isWritable = true := rfl
  obtain ⟨hdefuse, hidentity, hclears⟩ := defuse_inverts_tile (α := Exact default) hw .crossed 6 2
    ⟨1, 2⟩ ⟨2, 1⟩
  constructor
  · have h := batched_bench ofCount_six AxisMap.valid_crossed Nat.two_pos extent_pos_six
      (Graph.runnable_single [2, 6, 1, 2]) ⟨2, 1⟩ (Graph.has_single _)
    obtain ⟨X, ctx₁, hrun, hleads⟩ := h.exists_tiled
    have h' := laid_bench ofCount_six AxisMap.valid_crossed Nat.two_pos extent_pos_six
      hleads.runnable ⟨2, 1⟩ hleads.has
    obtain ⟨f, ctx₂, hrun', hemits, -⟩ := hdefuse h' rfl
    have hcomputes := hidentity h hrun (by exact .refl _) h' rfl hrun'
    obtain ⟨st, w, hst, hw, rfl⟩ := hcomputes.feed
      (hemits.continues.inputs.trans hleads.continues.inputs)
      (v := sixSamples) (((Graph.has_single _).grow hleads.grows).grow hemits.grows) (full_ofFn _ _)
    exact ⟨X, ctx₁, f, ctx₂, st, hrun, hrun', hst, hw⟩
  · have h := laid_bench ofCount_six AxisMap.valid_crossed Nat.two_pos extent_pos_six
      (Graph.runnable_single [8, 1, 4, 2]) ⟨2, 1⟩ (Graph.has_single _)
    obtain ⟨x, ctx₁, hrun, hemits, -, hhas⟩ := h.exists_defused hw rfl
    have h' := batched_bench ofCount_six AxisMap.valid_crossed Nat.two_pos extent_pos_six
      hemits.runnable ⟨2, 1⟩ hhas
    obtain ⟨Y, ctx₂, hrun', hleads⟩ := h'.exists_tiled
    have hcomputes := hclears h rfl hrun (by exact .refl _) h' hrun'
    obtain ⟨st, W, hst, hW, hcleared⟩ := hcomputes.feed
      (hleads.continues.inputs.trans hemits.continues.inputs)
      (v := littered) (((Graph.has_single _).grow hemits.grows).grow hleads.grows) (full_ofFn _ _)
    refine ⟨x, ctx₁, Y, ctx₂, st, W, hrun, hrun', hst, hW, hcleared, ?_⟩
    exact hcleared.zero 0 ⟨1, 0⟩ (hcleared.shape ▸ by decide) not_inTile_six

/-! ## Masking -/

theorem Context.Laid.exists_masked (h : ctx.Laid t x m N C extent gap)
    (hnew : ctx.masked.get? t = none) :
    ∃ f ctx', (Pass.mask t).run ctx = (.ok f, ctx') ∧ ctx.fused.Grows ctx'.fused ∧
      Graph.Continues [] ctx.fused ctx'.fused ∧ ctx'.fused.Runnable ∧
      (∃ c y, ctx'.fused.ops.toList = ctx.fused.ops.toList ++ [⟨.binary .mul, [x, c], f⟩] ∧
        ctx'.fused.tensors.get? c = some y ∧ y.spec.role = .constant ∧
        y.spec.shape = m.arrange 1 1 (ctx.grid.spaced extent gap).size ∧
        y.data = some (y.spec.element.encode ((ctx.grid.spaced extent gap).mask m))) ∧
      ctx'.fused.Masks (ctx.grid.spaced extent gap) m x f ∧
      ctx'.fused.Has f (m.arrange 1 C (ctx.grid.spaced extent gap).size) := by
  refine After.exists_run (.bind (.get ?_))
  rw [hnew]
  refine after_buildMasked (K := ctx.grid.spaced extent gap) h.toAdapts h.lays (fun _ => h.limit)
    h.has_canvas hnew fun f element g g' c p hc hf => ?_
  have hrole : ((ctx.grid.spaced extent gap).maskSpec m element).role ≠ .input := Role.noConfusion
  obtain ⟨y, hy, hspec, hdata⟩ := hc.tensor
  obtain ⟨y', hy', hspec', hdata'⟩ := hf.grows.tensor hy
  refine ⟨hc.grows.trans hf.grows, (hc.enters.continues hrole).trans hf.continues, hf.runnable,
    ⟨c, y', ?_, hy', ?_⟩, Graph.Adds.masks hc hf, hf.has⟩
  · show g'.ops.toList = _
    rw [hf.ops_eq, hc.ops_eq]
    simp
  · rw [hspec', hdata', hspec, hdata]
    exact ⟨rfl, rfl, rfl⟩

theorem Canvas.full_mask {K : Canvas} (hm : m.Valid) : (Value.mk (m.arrange 1 1 K.size)
    ((K.mask m).map (Scalar.ofSingle (α := α))).toArray).Full := by
  simp [Full, length_mask, prod_plane hm]

/-- A canvas that holds what another one holds, with its gaps cleared. -/
theorem OnCanvas.cleared {g : Grid} {X Y : Value α} (hg : g.Packed) (hm : m.Valid) (hX : X.Full)
    (hshape : X.shape = m.arrange 1 C (g.spaced extent gap).size)
    (h : (∀ x, OnCanvas (g.spaced extent gap) m C x X → OnCanvas (g.spaced extent gap) m C x Y) ∧
      ZeroGaps (g.spaced extent gap) m Y) : Cleared g m extent gap X Y := by
  obtain ⟨x, hx⟩ := Canvas.exists_onCanvas hm hX hshape
  have hY := h.1 x hx
  have hzero := ((places_spaced hg extent gap).zeroBetween_iff hm hY.canvas_shape).2 h.2
  exact (hx.holdsBatch hg).cleared (hY.holdsBatch hg) hg hm hzero

/-- **Masking clears the gaps.** A mask has an entry for each cell of a canvas, row by row: one for
the cells of tiles and zero for all others. The product of a canvas with it, spread over the
channels, is the canvas with its gaps cleared. This is what masking appends to the fused graph. -/
theorem mask_clears_gaps [LawfulScalar α] {g : Grid} (hgrid : Grid.ofCount .unbounded N = .ok g)
    (hm : m.Valid) (C : Nat) (extent gap : Pair Nat) :
    ∃ size values,
      (∀ d, g.canvasExtent .unbounded d (extent.get d) (gap.get d) = .ok (size.get d)) ∧
      tileMask .unbounded (m.arrange 1 C size) m extent gap = .ok values ∧
      MarksTiles g m extent gap size values ∧
      (∀ V : Value α, V.Full → V.shape = m.arrange 1 C size → ∃ W, (Operator.binary .mul).Yields
        [V, ⟨m.arrange 1 1 size, (values.map Scalar.ofSingle).toArray⟩] W ∧
        Cleared g m extent gap V W) ∧
      ∀ {ctx : Context} {t X : TensorId}, ctx.Laid t X m N C extent gap → ctx.masked.get? t = none →
        ∃ f ctx', (Pass.mask t).run ctx = (.ok f, ctx') ∧ ctx.fused.Grows ctx'.fused ∧
          Graph.Continues [] ctx.fused ctx'.fused ∧
          (∃ c y, ctx'.fused.ops.toList = ctx.fused.ops.toList ++ [⟨.binary .mul, [X, c], f⟩] ∧
            ctx'.fused.tensors.get? c = some y ∧ y.spec.role = .constant ∧
            y.spec.shape = m.arrange 1 1 size ∧ y.data = some (y.spec.element.encode values)) ∧
          ctx'.fused.Computes X f fun V W : Value α => Cleared g m extent gap V W := by
  have hg := Grid.packed_of_ofCount hgrid
  have hplaces := Grid.places_spaced hg extent gap
  have htiled := hplaces.toTiled
  refine ⟨(g.spaced extent gap).size, (g.spaced extent gap).mask m, ?_,
    Canvas.tileMask_ok htiled hm, Canvas.marksTiles_mask hg extent gap m, ?_, ?_⟩
  · intro d
    rw [Canvas.size_get]
    exact hplaces.length_ok d
  · intro V hV hshape
    have hmask := Canvas.full_mask (α := α) (K := g.spaced extent gap) hm
    have hinfer := Canvas.inferShape_masked (C := C) (K := g.spaced extent gap) hm
    rw [← hshape] at hinfer
    obtain ⟨W, hW, hWshape, -⟩ := exists_yields (List.forall_mem_cons.2
      ⟨hV, List.forall_mem_singleton.2 hmask⟩) hinfer
    exact ⟨W, hW, OnCanvas.cleared hg hm hV hshape
      (Canvas.masking_onCanvas htiled hm hV hshape hmask rfl hW (hWshape.trans hshape))⟩
  · intro ctx t X h hnew
    cases h.grid.symm.trans hgrid
    obtain ⟨f, ctx', hrun, hgrows, hcontinues, hrunnable, hmask, hmasks, hf⟩ := h.exists_masked hnew
    have hx := h.has_canvas.grow hgrows
    refine ⟨f, ctx', hrun, hgrows, hcontinues, hmask, hrunnable.computes hx hf fun W hW => ?_⟩
    obtain ⟨hfull, hshape⟩ := hW.of_has hx
    exact OnCanvas.cleared hg hm hfull hshape
      (hmasks.onCanvas hW hrunnable.wellFormed hm htiled hx hf)

theorem mask_clears_gaps_six : ∃ values f ctx' st W,
    tileMask .unbounded [8, 1, 4, 2] .crossed ⟨1, 2⟩ ⟨2, 1⟩ = .ok values ∧ values.length = 32 ∧
    values[AxisMap.crossed.rowMajor ⟨4, 8⟩ ⟨1, 0⟩]? = some .zero ∧
    (Pass.mask ⟨0⟩).run
      (bench ⟨6, ⟨2, 3⟩⟩ .crossed 2 ⟨1, 2⟩ ⟨2, 1⟩ (.single [8, 1, 4, 2]) ⟨0⟩) = (.ok f, ctx') ∧
    evaluate .unbounded ctx'.fused [(⟨0⟩, littered.data)] = .ok st ∧ st.get? f = some W ∧
    Cleared ⟨6, ⟨2, 3⟩⟩ .crossed ⟨1, 2⟩ ⟨2, 1⟩ littered W ∧ W.cell [0, 0, 1, 0] = Scalar.zero := by
  obtain ⟨⟨a, b⟩, values, hsize, hvalues, hmarks, -, hmask⟩ := mask_clears_gaps (α := Exact default)
    ofCount_six AxisMap.valid_crossed 2 ⟨1, 2⟩ ⟨2, 1⟩
  cases hsize .first
  cases hsize .second
  have h := laid_bench ofCount_six AxisMap.valid_crossed Nat.two_pos extent_pos_six
    (Graph.runnable_single [8, 1, 4, 2]) ⟨2, 1⟩ (Graph.has_single _)
  obtain ⟨f, ctx', hrun, hgrows, hcontinues, -, hcomputes⟩ := hmask h rfl
  obtain ⟨st, W, hst, hW, hcleared⟩ := hcomputes.feed hcontinues.inputs (v := littered)
    ((Graph.has_single _).grow hgrows) (full_ofFn _ _)
  refine ⟨values, f, ctx', st, W, hvalues, hmarks.length, ?_, hrun, hst, hW, hcleared, ?_⟩
  · exact hmarks.gap ⟨1, 0⟩ (fun d => by cases d <;> decide) not_inTile_six
  · exact hcleared.zero 0 ⟨1, 0⟩ (hcleared.shape ▸ by decide) not_inTile_six

end Adapters

end CanvasFusion
