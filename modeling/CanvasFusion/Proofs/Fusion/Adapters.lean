import CanvasFusion.Proofs.Fusion.Accounts
import CanvasFusion.Proofs.Fusion.AdapterSteps

/-!
# Adapters

Tiling, de-fusing and masking add operators to the fused graph and one entry to their table.
(`after_tile`, `after_defuse`, `after_mask`). The shapes are those that inference recorded, so no
check fails; only a slice of nothing does.
-/

namespace CanvasFusion

open List CanvasFusion.Graph Ledger

variable {g₀ g : Graph} {x : TensorId} {K : Canvas} {m : AxisMap}

/-- A chain that was appended is a chain of the graph. -/
theorem Graph.Emits.chain {n : Nat} {kinds : List Operator} {outs : List TensorId}
    (h : g₀.Emits g (chained x n kinds) outs) : g.Chain x kinds (link x n kinds.length) := by
  suffices H : ∀ ops, (∀ op ∈ chained x n ops, ∃ o, g.ops.get? o = some op) →
      g.Chain x ops (link x n ops.length) from H kinds fun op hop => h.exists_op hop
  intro ops
  induction ops using List.reverseRecOn with
  | nil => exact fun _ => .nil x
  | append_singleton ops kind ih =>
    intro hops
    rw [chained_snoc] at hops
    obtain ⟨o, ho⟩ := hops _ (mem_append_right _ mem_cons_self)
    rw [length_append, length_singleton]
    exact .snoc (ih fun op hop => hops op (mem_append_left _ hop)) ho

theorem Graph.Emits.cuts {C n : Nat} {outs : List TensorId}
    (h : g₀.Emits g (K.defusing m C x n) outs) : g.Cuts K m C x ⟨n + K.count⟩ := by
  obtain ⟨o, ho⟩ := h.exists_op (mem_append_right _ mem_cons_self)
  refine ⟨_, o, ho, ?_⟩
  rw [forall₂_map_right_iff, forall₂_same]
  intro k hk
  exact h.exists_op (mem_append_left _ (mem_map_of_mem hk))

theorem Graph.Adds.masks {g' : Graph} {c f : TensorId} {element : ElementType}
    {s : Shape} (hc : g₀.Gains g (K.maskSpec m element) (some (element.encode (K.mask m))) none c)
    (hf : g.Adds g' .transient (.binary .mul) [x, c] f s) : g'.Masks K m x f := by
  obtain ⟨o, hop⟩ := hf.op
  obtain ⟨y, hy, hyspec, hydata⟩ := hc.tensor
  obtain ⟨y', hy', hspec', hdata'⟩ := hf.grows.tensor hy
  refine ⟨c, o, y', hop, hy', ?_⟩
  rw [hspec', hdata', hyspec, hydata]
  exact ⟨rfl, rfl, rfl⟩

namespace Context

variable {ctx ctx' : Context} {t : TensorId} {P : Prop}

/-! ## Readings -/

section Readings

variable (hs : ctx.core.Settled) (ht : ctx.HasSamples t)

include hs ht

theorem HasSamples.gap_ok : ctx.gap t = .ok (ctx.canvasOf t).gap := by
  obtain ⟨y, hy⟩ := ht.known hs
  exact hs.gap_ok hy

theorem HasSamples.extent_ok : (ctx.mapOf t).sampleExtent (ctx.cloned.shapeOf t) =
    .ok (ctx.canvasOf t).extent := by
  rw [ht.shape_eq hs]
  exact AxisMap.sampleExtent_ok (ht.valid hs)

theorem HasSamples.recorded :
    ctx.Recorded t (ctx.mapOf t) (ctx.channelsOf t) (ctx.canvasOf t).extent
    (ctx.canvasOf t).gap where
  valid := ht.valid hs
  axisMap := ht.axisMap_ok
  gap_ok := ht.gap_ok hs
  shape := by grind [shape_ok, known, shape_eq, Settled.count_eq]

end Readings

theorem Settled.lays (hs : ctx.core.Settled) (t : TensorId) : ctx.grid.Lays (ctx.canvasOf t) where
  tiles_pos := (hs.canvas_valid t).tiles_pos
  tiles := rfl
  count := hs.count_eq t

/-! ## Adapted states -/

/-- Adapters have been added, as they are needed, and no operation. -/
structure Adapted (P : Prop) (n : Needs) (outs : List TensorId) (ctx ctx' : Context) : Prop where
  grown : Grown ctx ctx'
  emitting : Emitting P ctx'
  fusedOf : ctx'.fusedOf = ctx.fusedOf
  fills : ctx'.fills = ctx.fills
  visited : ctx'.visited = ctx.visited
  fusedOps : ctx'.counters.fusedOps = ctx.counters.fusedOps
  batchedOps : ctx'.counters.batchedOps = ctx.counters.batchedOps
  supplies : Supplies n outs ctx ctx'

namespace Adapted

variable {n n' : Needs} {outs outs' : List TensorId}

/-- Nothing has to be added. -/
theorem of_supplies (h : Emitting P ctx) (hs : Supplies n [] ctx ctx) : Adapted P n [] ctx ctx :=
  ⟨.refl ctx, h, rfl, rfl, rfl, rfl, rfl, hs⟩

theorem refl (h : Emitting P ctx) : Adapted P .none [] ctx ctx := of_supplies h (.refl ctx)

theorem refl_any {β : Type} (h : Emitting P ctx) (n : β → Needs) :
    Adapted P (.any [] n) [] ctx ctx := by
  rw [Needs.any_nil]
  exact refl h

theorem trans {ctx'' : Context} (h : Adapted P n outs ctx ctx')
    (h' : Adapted P n' outs' ctx' ctx'') : Adapted P (n.or n') (outs ++ outs') ctx ctx'' :=
  ⟨h.grown.trans h'.grown, h'.emitting, h'.fusedOf.trans h.fusedOf, h'.fills.trans h.fills,
    h'.visited.trans h.visited, h'.fusedOps.trans h.fusedOps, h'.batchedOps.trans h.batchedOps,
    h.supplies.trans h'.supplies⟩

end Adapted

end Context

/-! ## Tables that are written once -/

namespace Ledger

variable {κ ν : Type} [DecidableEq κ] {l : Ledger κ ν} {k k' : κ} {v v' : ν}

theorem get?_record_of_new (hnew : l.get? k = none) (h : l.get? k' = some v') :
    (l.record k v).get? k' = some v' := by
  have hne : k ≠ k' := fun heq => by simp [← heq, hnew] at h
  rw [get?_record, if_neg hne, h]

theorem get?_record_self (l : Ledger κ ν) (k : κ) (v : ν) : (l.record k v).get? k = some v := by
  rw [get?_record, if_pos rfl]

/-- An entry of a table is the one last made, or was there before. -/
theorem cases_of_get?_record (h : (l.record k v).get? k' = some v') :
    l.get? k' = some v' ∨ k' = k ∧ v' = v := by
  rw [get?_record] at h
  grind

theorem get?_record_ne_none : (l.record k v).get? k' ≠ none ↔ l.get? k' ≠ none ∨ k' = k := by
  rw [get?_record]
  grind

theorem not_get?_empty (h : l = .empty) (hk : l.get? k = some v) : False := by
  rw [h] at hk
  cases hk

end Ledger

namespace Context

variable {ctx ctx' : Context} {t y f : TensorId} {P : Prop} {s : Shape}

variable (h : Emitting P ctx)

include h

theorem Emitting.limit (hp : P) : ctx.limit = .unbounded := (h.smooth hp).1

/-- The extents of a tensor with samples are positive. -/
theorem Emitting.extents_pos (hp : P) (ht : ctx.HasSamples t) :
    0 < ctx.channelsOf t ∧ ∀ d, 0 < (ctx.canvasOf t).extent.get d := by
  have hrank := ht.rank h.settled
  have hpos : ∀ {i}, i < 4 → 0 < (ctx.cloned.shapeOf t).extent i := by
    intro i hi
    have hlt : i < (ctx.cloned.shapeOf t).length := hrank.symm ▸ hi
    rw [Shape.extent_eq (getElem?_eq_getElem hlt)]
    exact (h.smooth hp).2 t _ (getElem_mem hlt)
  have hm := ht.valid h.settled
  refine ⟨hpos hm.channel_lt, fun d => ?_⟩
  rw [canvasOf, Pair.ofFn_get]
  exact hpos (hm.fuse_lt d)

theorem Emitting.proportion_new (hf : ctx.fused.tensors.size ≤ f.index) :
    ctx.proportions.get? f = none := by
  by_contra hne
  exact absurd (h.proportions hne) (Nat.not_lt.2 hf)

/-- The state after an adapter has been made. -/
abbrev withAdapter (ctx : Context) (g : Graph) (y : TensorId) (p : Float)
    (tiled defused masked : Ledger TensorId TensorId) (counters : Counters) : Context :=
  { ctx with
    fused := g, proportions := ctx.proportions.record y p, tiled := tiled, defused := defused
    masked := masked, counters := counters }

theorem Emitting.adapted {tiled defused masked : Ledger TensorId TensorId}
    {p : Float} {counters : Counters} {n : Needs} {outs : List TensorId}
    (hrunnable : g.Runnable) (hsize : ctx.fused.tensors.size ≤ g.tensors.size) (hy : g.Has y s)
    (hg : Grown ctx (ctx.withAdapter g y p tiled defused masked counters))
    (htiled : ∀ {t f}, tiled.get? t = some f → ctx.tiled.get? t = some f ∨
      g.Has f (ctx.tiledShape t) ∧ TiledAs { ctx with fused := g } t f)
    (hdefused : ∀ {t f}, defused.get? t = some f → ctx.defused.get? t = some f ∨
      g.Has f (ctx.cloned.shapeOf t) ∧ DefusedAs { ctx with fused := g } t f)
    (hmasked : ∀ {t f}, masked.get? t = some f → ctx.masked.get? t = some f ∨
      g.Has f (ctx.tiledShape t) ∧ MaskedAs { ctx with fused := g } t f)
    (hops : counters.fusedOps = ctx.counters.fusedOps ∧ counters.batchedOps =
      ctx.counters.batchedOps)
    (hmasks : 0 < counters.masks → ctx.ReadsGaps)
    (hsupplies : Supplies n outs ctx (ctx.withAdapter g y p tiled defused masked counters)) :
    Adapted P n outs ctx (ctx.withAdapter g y p tiled defused masked counters) where
  grown := hg
  emitting := by
    refine h.grow hg hrunnable .inl h.injective (fun hf => (htiled hf).imp id fun h => ⟨h.1, ?_⟩)
      (fun hf => (hdefused hf).imp id fun h => ⟨h.1, ?_⟩)
      (fun hf => (hmasked hf).imp id fun h => ⟨h.1, ?_⟩) h.fills (fun hf => ?_) (fun f hf => ?_)
        hmasks
    · exact ⟨h.2.hasSamples, h.2.batched, h.2.chain⟩
    · exact ⟨h.2.canvas, h.2.blocks⟩
    · exact ⟨h.2.canvas, h.2.reads, h.2.product⟩
    · rcases get?_record_ne_none.1 hf with hold | rfl
      · exact Nat.lt_of_lt_of_le (h.proportions hold) hsize
      · exact hy.lt
    · exact h.inputs f (hsupplies.continues.inputs ▸ hf)
  fusedOf := rfl
  fills := rfl
  visited := rfl
  fusedOps := hops.1
  batchedOps := hops.2
  supplies := hsupplies

/-- What an adapter finds about a tensor with samples. -/
theorem Emitting.adapts (ht : ctx.HasSamples t) (hx : ctx.fusedOf.get? t = some x) :
    ctx.Adapts t x (ctx.mapOf t) (ctx.channelsOf t) (ctx.canvasOf t).extent
      (ctx.canvasOf t).gap where
  toRecorded := ht.recorded h.settled
  fusedTensor := by
    rw [fusedTensor, hx]
    rfl
  runnable := h.runnable
  proportions := h.proportions

theorem Emitting.roomy (ht : ctx.HasSamples t) (hp : P) :
    ctx.Roomy (ctx.channelsOf t) (ctx.canvasOf t).extent :=
  ⟨h.limit hp, (h.extents_pos hp ht).1, (h.extents_pos hp ht).2⟩

/-- Where a tensor on the canvas was put. -/
theorem Emitting.has_canvas (hcanvas : ctx.isCanvas t = true)
    (hx : ctx.fusedOf.get? t = some x) : ctx.fused.Has x (ctx.tiledShape t) := by
  have hhas := (h.fusedOf hx).1
  rwa [fusedShape, if_pos hcanvas] at hhas

/-! ## Tiling -/

/-- **Tiling** makes the canvas form of a batched tensor, or finds it. -/
theorem after_tile (ht : ctx.HasSamples t) (hbatched : ctx.isCanvas t = false)
    (hx : ctx.fusedOf.get? t = some x) : After (Pass.tile t) ctx
    (fun f ctx' => Adapted P (.tile t) [] ctx ctx' ∧ ctx'.tiled.get? t = some f) (Outside P) := by
  refine .bind (.get ?_)
  cases hnew : ctx.tiled.get? t with
  | some f =>
    refine .pure ⟨.of_supplies h (.of_known ?_ (fun _ => False.elim) fun _ => False.elim), hnew⟩
    rintro _ rfl
    simp [hnew]
  | none =>
    have hs := h.settled
    have hhas : ctx.fused.Has x ((ctx.mapOf t).arrange (ctx.canvasOf t).count (ctx.channelsOf t)
        (ctx.canvasOf t).extent) := by
      have hhas := (h.fusedOf hx).1
      rwa [fusedShape, hbatched, if_neg Bool.false_ne_true, ht.shape_eq hs] at hhas
    refine after_buildTiled (h.adapts ht hx) (Settled.lays hs t) (h.roomy ht) hhas
      (ht.gappedShape_ok hs) hnew fun f g p hleads => ?_
    refine ⟨h.adapted hleads.runnable hleads.size_le hleads.has
      ⟨rfl, rfl, hleads.grows, id, get?_record_of_new hnew, id, id, id⟩ (fun hf => ?_)
      .inl .inl ⟨rfl, rfl⟩ h.masks ?_, get?_record_self ..⟩
    · rcases cases_of_get?_record hf with hold | ⟨rfl, rfl⟩
      · exact .inl hold
      · exact .inr ⟨hleads.has, ht, hbatched, x, hx, hleads.last ▸ hleads.chain⟩
    · refine ⟨hleads.continues, fun _ => get?_record_ne_none, fun _ => (or_iff_left not_false).symm,
        fun _ => (or_iff_left not_false).symm,
        fun hc => ⟨hc.tiled.record hnew, hc.defused, hc.masked, ?_⟩⟩
      rw [hleads.ops_size, length_chained, hc.ops, countedOps, countedOps, keys_record hnew,
        map_append, sum_append, map_singleton, sum_singleton, Nat.add_assoc]
      rfl

/-! ## De-fusing -/

/-- **De-fusing** makes the batched form of a canvas tensor, or finds it. A new one is an output of
the graph if that is its role. -/
theorem after_defuse {role : Role} (hcanvas : ctx.isCanvas t = true)
    (hx : ctx.fusedOf.get? t = some x) (hw : role.isWritable = true) :
    After (Pass.defuse t role) ctx
    (fun f ctx' => Adapted P (.defuse t)
      (if role = .output ∧ ctx.defused.get? t = none then [f] else []) ctx ctx' ∧
      ctx'.defused.get? t = some f) (Outside P) := by
  refine .bind (.get ?_)
  cases hnew : ctx.defused.get? t with
  | some f =>
    refine .pure ⟨?_, hnew⟩
    rw [if_neg (by simp)]
    refine .of_supplies h (.of_known (fun _ => False.elim) ?_ fun _ => False.elim)
    rintro _ rfl
    simp [hnew]
  | none =>
    have hs := h.settled
    have ht : ctx.HasSamples t := hs.hasSamples hcanvas
    refine after_buildDefused (h.adapts ht hx) (Settled.lays hs t) (h.roomy ht)
      (h.has_canvas hcanvas hx) hw hnew fun f g hemits hfresh hhas => ?_
    simp only [and_true]
    refine ⟨h.adapted hemits.runnable hemits.size_le hhas
      ⟨rfl, rfl, hemits.grows, id, id, get?_record_of_new hnew, id, id⟩ .inl (fun hy => ?_) .inl
      ⟨rfl, rfl⟩ h.masks ?_, get?_record_self ..⟩
    · rcases cases_of_get?_record hy with hold | ⟨rfl, rfl⟩
      · exact .inl hold
      · exact .inr ⟨by rwa [ht.shape_eq hs], hcanvas, x, hx, hfresh ▸ hemits.cuts⟩
    · refine ⟨hemits.continues, fun _ => (or_iff_left not_false).symm, fun _ => get?_record_ne_none,
        fun _ => (or_iff_left not_false).symm,
        fun hc => ⟨hc.tiled, hc.defused.record hnew, hc.masked, ?_⟩⟩
      rw [hemits.ops_size, Canvas.length_defusing, hs.count_eq, hc.ops, countedOps]
      show _ = _ + (ctx.counters.defuseAdapters + 1) * (ctx.grid.count + 1) +
        (ctx.tiled.keys.map ctx.tilingOps).sum
      ring

/-! ## Masking -/

/-- **Masking** makes the cleared form of a canvas tensor, or finds it. -/
theorem after_mask (hcanvas : ctx.isCanvas t = true)
    (hx : ctx.fusedOf.get? t = some x) (hreads : ctx.ReadsGaps) : After (Pass.mask t) ctx
    (fun f ctx' => Adapted P (.mask t) [] ctx ctx' ∧ ctx'.masked.get? t = some f) (Outside P) := by
  refine .bind (.get ?_)
  cases hnew : ctx.masked.get? t with
  | some f =>
    refine .pure ⟨.of_supplies h (.of_known (fun _ => False.elim) (fun _ => False.elim) ?_), hnew⟩
    rintro _ rfl
    simp [hnew]
  | none =>
    have hs := h.settled
    refine after_buildMasked (h.adapts (hs.hasSamples hcanvas) hx) (Settled.lays hs t) h.limit
      (h.has_canvas hcanvas hx) hnew fun f element g g' c p hc hf => ?_
    have hsize : ctx.fused.tensors.size ≤ g'.tensors.size :=
      Nat.le_of_lt (Nat.lt_trans hc.size_lt hf.size_lt)
    refine ⟨h.adapted hf.runnable hsize hf.has
      ⟨rfl, rfl, hc.grows.trans hf.grows, id, id, id, get?_record_of_new hnew, id⟩ .inl .inl
      (fun hy => ?_) ⟨rfl, rfl⟩ (fun _ => hreads) ?_, get?_record_self ..⟩
    · rcases cases_of_get?_record hy with hold | ⟨rfl, rfl⟩
      · exact .inl hold
      · exact .inr ⟨hf.has, hcanvas, hreads, x, hx, Graph.Adds.masks hc hf⟩
    · have hrole : ((ctx.canvasOf t).maskSpec (ctx.mapOf t) element).role ≠ .input :=
        Role.noConfusion
      refine ⟨(hc.enters.continues hrole).trans hf.continues, fun _ => (or_iff_left not_false).symm,
        fun _ => (or_iff_left not_false).symm, fun _ => get?_record_ne_none,
        fun htally => ⟨htally.tiled, htally.defused, htally.masked.record hnew, ?_⟩⟩
      rw [hf.ops_eq, Table.size_push, hc.ops_eq, htally.ops, countedOps]
      show _ = ctx.counters.fusedOps + ctx.counters.batchedOps + (ctx.counters.masks + 1) + _ +
        (ctx.tiled.keys.map ctx.tilingOps).sum
      ring

end Context

end CanvasFusion
