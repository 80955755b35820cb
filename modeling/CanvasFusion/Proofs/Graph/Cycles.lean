import CanvasFusion.Proofs.Graph.Order
import CanvasFusion.Proofs.Graph.Reachable

/-!
# Cycles and the dependency order

Operations may be bound in any order, so a graph that calls of the editing interface build may have
cycles: an operation that reads its own output, or several that read each other's.

**Theorem (order_leaves_out_cycles).** The dependency order of such a graph exists. It lists no
operation twice and each behind the writers of its inputs, and it leaves out exactly the operations
that are on a cycle or behind one.

What stands upstream of a listed operation stands before it in the list, so nothing there can be
upstream of itself. Conversely, an operation that is not listed has a writer that is not listed. Off
the cycles there are fewer operations upstream of that writer, so the way back from writer to writer
ends at an operation with all its writers listed.
-/

namespace CanvasFusion.Graph

variable {lim : Limit} {g : Graph} {o p q : OpId} {l : List OpId}

/-- The operation `p` writes an input of the operation `o`. -/
def Feeds (g : Graph) (p o : OpId) : Prop :=
  ∃ op, g.ops.get? o = some op ∧ ∃ t ∈ op.inputs, g.producer t = some p

/-- The operation `o` depends on the operation `p`, directly or through others. -/
def Upstream (g : Graph) : OpId → OpId → Prop := Relation.TransGen g.Feeds

/-- The operation depends on itself. -/
def OnCycle (g : Graph) (o : OpId) : Prop := g.Upstream o o

theorem WellFormed.op_of_feeds (hg : g.WellFormed) (h : g.Feeds p o) :
    ∃ op, g.ops.get? p = some op := by
  obtain ⟨-, -, t, -, hp⟩ := h
  grind [producer_eq_some_iff]

theorem WellFormed.op_of_upstream (hg : g.WellFormed) (h : g.Upstream p o) :
    ∃ op, g.ops.get? p = some op := by
  obtain ⟨q, hq, -⟩ := Relation.TransGen.head'_iff.1 h
  exact hg.op_of_feeds hq

/-! ## Nothing listed is behind a cycle -/

theorem IsOrder.before_of_feeds (hl : IsOrder g l) (ho : o ∈ l) (h : g.Feeds p o) :
    p ∈ l ∧ l.idxOf p < l.idxOf o := by
  obtain ⟨op, hop, t, ht, hp⟩ := h
  obtain ⟨done, rest, hsplit, hnew⟩ := List.eq_append_cons_of_mem ho
  have hdone : p ∈ done := hl.writers_before hsplit hop t ht p hp
  grind

/-- What an operation depends on is listed before it. -/
theorem IsOrder.before_of_upstream (hl : IsOrder g l) (ho : o ∈ l) (h : g.Upstream p o) :
    p ∈ l ∧ l.idxOf p < l.idxOf o := by
  induction h with
  | single h => exact hl.before_of_feeds ho h
  | tail _ h ih => grind [before_of_feeds]

theorem IsOrder.not_onCycle (hl : IsOrder g l) (ho : o ∈ l) (h : g.Upstream p o) :
    ¬ g.OnCycle p := by
  intro hcycle
  obtain ⟨hp, -⟩ := hl.before_of_upstream ho h
  exact Nat.lt_irrefl _ (hl.before_of_upstream hp hcycle).2

/-! ## Everything off the cycles is listed -/

open Classical in
/-- The operations that an operation depends on. -/
noncomputable def upstreamOps (g : Graph) (o : OpId) : Finset OpId :=
  g.ops.handles.toFinset.filter (g.Upstream · o)

theorem WellFormed.mem_upstreamOps (hg : g.WellFormed) : p ∈ g.upstreamOps o ↔ g.Upstream p o := by
  classical
  rw [upstreamOps, Finset.mem_filter, List.mem_toFinset, Table.mem_handles]
  refine and_iff_right_of_imp fun h => ?_
  obtain ⟨op, hop⟩ := hg.op_of_upstream h
  exact Table.lt_of_get? hop

/-- A writer that is on no cycle depends on fewer operations. -/
theorem WellFormed.upstreamOps_ssubset (hg : g.WellFormed) (h : g.Feeds p o) (hp : ¬ g.OnCycle p) :
    g.upstreamOps p ⊂ g.upstreamOps o := by
  have hup : g.Upstream p o := .single h
  refine Finset.ssubset_iff_of_subset (fun q hq => ?_) |>.2 ⟨p, ?_, ?_⟩
  · rw [hg.mem_upstreamOps] at hq ⊢
    exact hq.tail h
  · exact hg.mem_upstreamOps.2 hup
  · rw [hg.mem_upstreamOps]
    exact hp

theorem IsOrder.mem_of_acyclic (hl : IsOrder g l) (hg : g.WellFormed) {op : Operation}
    (hop : g.ops.get? o = some op) (hacyclic : ∀ p, g.Upstream p o → ¬ g.OnCycle p) : o ∈ l := by
  -- On the operations upstream: each writer has fewer.
  induction hn : (g.upstreamOps o).card using Nat.strong_induction_on generalizing o op with
  | h n ih =>
    refine hl.closed hop fun t ht p hp => ?_
    have hfeeds : g.Feeds p o := ⟨op, hop, t, ht, hp⟩
    obtain ⟨op', hop'⟩ := hg.op_of_feeds hfeeds
    have hless := Finset.card_lt_card (hg.upstreamOps_ssubset hfeeds (hacyclic p (.single hfeeds)))
    exact ih _ (hn ▸ hless) hop' (fun q hq => hacyclic q (hq.tail hfeeds)) rfl

/-! ## Reachable graphs -/

/-- **The dependency order leaves out the cycles and what is behind them**, and nothing else,
whatever tensors the operations start from. No count of what an operation still waits for falls
below zero. -/
theorem order_leaves_out_cycles (h : Reachable lim g) : ∃ l, g.order = .ok l ∧ l.Nodup ∧
    (∀ done o rest op, l = done ++ o :: rest → g.ops.get? o = some op →
      ∀ t ∈ op.inputs, ∀ p, g.producer t = some p → p ∈ done) ∧
    ∀ o, o ∈ l ↔ (∃ op, g.ops.get? o = some op) ∧ ¬ g.OnCycle o ∧
      ∀ p, g.Upstream p o → ¬ g.OnCycle p := by
  have hg := h.wellFormed
  obtain ⟨l, hl, horder⟩ := hg.order_ok
  refine ⟨l, hl, horder.nodup, fun done o rest op => horder.writers_before,
    fun o => ⟨fun ho => ?_, ?_⟩⟩
  · exact ⟨horder.known ho, fun hcycle => horder.not_onCycle ho hcycle hcycle,
      fun p => horder.not_onCycle ho⟩
  · rintro ⟨⟨op, hop⟩, -, hacyclic⟩
    exact horder.mem_of_acyclic hg hop hacyclic

/-- One operation reads its own output twice and another depends on it. The other two, bound before
what they read was written, do not. -/
def knotted : List Call :=
  [.createTensor ⟨.f32, [1], .input, none⟩, .createTensor ⟨.f32, [1], .transient, none⟩,
    .createTensor ⟨.f32, [1], .transient, none⟩, .addOp (.binary .add) [⟨1⟩, ⟨1⟩] [⟨1⟩],
    .emit (.binary .max) [⟨2⟩, ⟨2⟩] .output, .addOp (.binary .mul) [⟨0⟩, ⟨0⟩] [⟨2⟩],
    .emit (.binary .sub) [⟨2⟩, ⟨1⟩] .output]

theorem order_leaves_out_cycles_knotted : Reachable .word64 (build .word64 knotted) ∧
    (build .word64 knotted).order = .ok [⟨2⟩, ⟨1⟩] ∧ (build .word64 knotted).OnCycle ⟨0⟩ ∧
    (build .word64 knotted).Upstream ⟨0⟩ ⟨3⟩ ∧
    ∀ p, (build .word64 knotted).Upstream p ⟨1⟩ → ¬ (build .word64 knotted).OnCycle p := by
  have h : Reachable .word64 (build .word64 knotted) := reachable_iff_build.2 ⟨knotted, rfl⟩
  obtain ⟨l, hl, -, -, hmem⟩ := order_leaves_out_cycles h
  have horder : (build .word64 knotted).order = .ok [⟨2⟩, ⟨1⟩] := by decide +kernel
  cases hl.symm.trans horder
  refine ⟨h, horder, .single ?_, .single ?_, ((hmem ⟨1⟩).1 (by decide)).2.2⟩
  · exact ⟨⟨.binary .add, [⟨1⟩, ⟨1⟩], ⟨1⟩⟩, by decide +kernel, ⟨1⟩, by decide, by decide +kernel⟩
  · exact ⟨⟨.binary .sub, [⟨2⟩, ⟨1⟩], ⟨4⟩⟩, by decide +kernel, ⟨1⟩, by decide, by decide +kernel⟩

end CanvasFusion.Graph
