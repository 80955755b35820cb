import CanvasFusion.Proofs.Fusion.Run

/-!
# What a run covers

The tensors that end up in the fused graph are the computable ones: inputs, constants, and what
operations other than slices and softmax compute from such tensors (`Graph.Computable`). Three walks
have to agree on this. Cloning copies each operation with a computable output once; gap inference
plans every copy; emission rewrites every copy once.
-/

namespace CanvasFusion

open List

/-- The operation is a slice or a softmax of computable tensors, and goes by this name. -/
def Graph.PassedOver (g : Graph) (o : OpId) (name : String) : Prop :=
  ∃ op, g.ops.get? o = some op ∧
    ((∃ start size, op.kind = .slice start size) ∨ ∃ axis, op.kind = .softmax axis) ∧
    (∀ x ∈ op.inputs, g.Computable x) ∧ op.kind.name = name

theorem Graph.unsupported?_eq_some {g : Graph} {o o' : OpId} {op : Operation} {name : String}
    (hop : g.ops.get? o' = some op) :
    g.unsupported? o' = some (.unsupportedOperator o name) ↔ o' = o ∧
      ((∃ start size, op.kind = .slice start size) ∨ ∃ axis, op.kind = .softmax axis) ∧
      op.kind.name = name := by
  grind [unsupported?_eq, Operator.isSupported_iff]

namespace Context

variable {source : Graph} {ctx₀ ctx₁ ctx₂ ctx₃ ctx : Context} {t c : TensorId} {o o' : OpId}
  {op op' : Operation} {P : Prop}

/-- An operation of the working copy is the copy of an operation of the source: it reads and writes
the copies of what that one reads and writes. -/
def Copies (ctx : Context) (o o' : OpId) : Prop :=
  ∃ op op', ctx.source.ops.get? o = some op ∧ ctx.cloned.ops.get? o' = some op' ∧
    ctx.CopiedKind op.kind op'.kind ∧
    List.Forall₂ (fun x y => ctx.cloneOf.get? x = some y) op.inputs op'.inputs ∧
    ctx.cloneOf.get? op.output = some op'.output

/-- A tensor and its copy are both sources, or an operation and its copy write them. -/
theorem Copying.sources_or_copies (h : Copying ctx₀ ctx) (hsource : ctx.source.WellFormed)
    (ht : ctx.cloneOf.get? t = some c) :
    t ∈ ctx.source.sources ∧ c ∈ ctx.cloned.sources ∨
      ∃ o o' op op', ctx.source.ops.get? o = some op ∧ op.output = t ∧
        ctx.cloned.ops.get? o' = some op' ∧ op'.output = c ∧ ctx.Copies o o' := by
  cases h.copied ht with
  | input hx hrole hy hspec | constant hx hrole hy hspec =>
    refine .inl ⟨hsource.source_of_role hx hrole,
      h.wellFormed.mem_sources.2 ⟨_, hy, ?_⟩⟩
    rw [hspec, hrole]
    rfl
  | written hop hout _ hop' hout' hkind hinputs _ _ _ =>
    subst hout
    subst hout'
    exact .inr ⟨_, _, _, _, hop, rfl, hop', rfl, _, _, hop, hop', hkind, hinputs, ht⟩

section Copies

variable (h : Cloned ctx₀ ctx) (hsource : ctx₀.source.WellFormed)

include h hsource

/-- **An operation with a computable output is copied once.** -/
theorem Cloned.existsUnique_copy (hop : ctx₀.source.ops.get? o = some op)
    (hcomputable : ctx₀.source.Computable op.output) : ∃! o', ctx.Copies o o' := by
  rw [← h.source_eq] at hop hsource
  obtain ⟨c, hc⟩ := Option.ne_none_iff_exists'.1 (h.computable_iff.2 hcomputable)
  rcases h.copying.sources_or_copies hsource hc with
    ⟨hmem, -⟩ | ⟨o₁, o', op₁, op', hop₁, hout, hop', rfl, hcopies⟩
  · exact absurd hmem (hsource.not_source_of_output hop)
  · obtain rfl := hsource.op_eq_of_output hop₁ hop hout
    refine ⟨o', hcopies, ?_⟩
    rintro o'' ⟨op₂, op'', hop₂, hop'', -, -, hc'⟩
    cases hop.symm.trans hop₂
    exact h.copying.wellFormed.op_eq_of_output hop'' hop' (Option.some.inj (hc'.symm.trans hc))

/-- **Every operation of the working copy is the copy of one operation.** -/
theorem Cloned.existsUnique_original (hop' : ctx.cloned.ops.get? o' = some op') :
    ∃! o, ctx.Copies o o' := by
  rw [← h.source_eq] at hsource
  obtain ⟨y, hy⟩ := h.copying.wellFormed.output_known hop'
  obtain ⟨t, ht⟩ := h.copying.covered hy
  rcases h.copying.sources_or_copies hsource ht with
    ⟨-, hmem⟩ | ⟨o, o₁, op, op₁, hop, rfl, hop₁, hout, hcopies⟩
  · exact absurd hmem (h.copying.wellFormed.not_source_of_output hop')
  · obtain rfl := h.copying.wellFormed.op_eq_of_output hop₁ hop' hout
    refine ⟨o, hcopies, ?_⟩
    rintro o₂ ⟨op₂, op'', hop₂, hop'', -, -, hc'⟩
    cases hop'.symm.trans hop''
    exact hsource.op_eq_of_output hop₂ hop (h.copying.injective hc' ht)

/-- There are as many copies as operations with computable outputs. -/
theorem Cloned.ops_size_eq {ops : List OpId} (hops : ops.Nodup)
    (hmem : ∀ o, o ∈ ops ↔ ∃ op, ctx₀.source.ops.get? o = some op ∧
      ctx₀.source.Computable op.output) : ctx.cloned.ops.size = ops.length := by
  rw [h.ops_size]
  refine List.Perm.length_eq ((perm_ext_iff_of_nodup (h.visited_nodup.filter _) hops).2
    fun o => ?_)
  rw [mem_filter, hmem]
  constructor
  · rintro ⟨hvisited, hs⟩
    obtain ⟨op, hop, -⟩ := h.visited o hvisited
    grind [Graph.supports_eq, Graph.Computable.of_supported, mem_visited]
  · rintro ⟨op, hop, hcomputable⟩
    obtain ⟨hs, hin⟩ := hcomputable.of_output hsource hop
    grind [Graph.supports_eq, mem_visited]

end Copies

/-! ## Warnings -/

open Classical in
/-- **An operation that is passed over is warned about once.** -/
theorem Cloned.count_warnings (h : Cloned ctx₀ ctx) (o : OpId) (name : String) :
    ctx.warnings.count (.unsupportedOperator o name) =
      if ctx₀.source.PassedOver o name then 1 else 0 := by
  have hvisited : ∀ o' ∈ ctx.visited.reverse,
      ctx₀.source.unsupported? o' = some (.unsupportedOperator o name) ↔
        o' = o ∧ ctx₀.source.PassedOver o name := fun o' ho' => by
    rw [mem_reverse] at ho'
    obtain ⟨op, hop, -⟩ := h.visited o' ho'
    have hin := (h.mem_visited hop).1 ho'
    rw [Graph.unsupported?_eq_some hop]
    constructor
    · rintro ⟨rfl, hkind, rfl⟩
      exact ⟨rfl, op, hop, hkind, hin, rfl⟩
    · rintro ⟨rfl, op', hop', hkind, -, hname⟩
      grind
  rw [h.warnings, count_filterMap]
  split_ifs with hpassed
  · have hmem : o ∈ ctx.visited.reverse := by
      obtain ⟨op, hop, -, hin, -⟩ := hpassed
      exact mem_reverse.2 ((h.mem_visited hop).2 hin)
    rw [← count_eq_one_of_mem (nodup_reverse.2 h.visited_nodup) hmem, List.count]
    refine countP_congr fun o' ho' => ?_
    grind
  · grind

variable (h : Run P ctx₀ ctx₁ ctx₂ ctx₃)

include h

/-- Gap inference and emission leave the warnings about unsupported operators alone. -/
theorem Run.count_warnings (o : OpId) (name : String) :
    ctx₃.warnings.count (.unsupportedOperator o name) =
      ctx₁.warnings.count (.unsupportedOperator o name) := by
  have hcore : ctx₃.warnings = ctx₂.warnings :=
    congr_core warnings h.emitted.core fun _ => rfl
  rw [hcore, ← count_filter (p := Warning.isUnsupported) (l := ctx₂.warnings) rfl,
    h.frame.unsupported, count_filter rfl]

/-- There is a warning for each operation that is passed over. -/
theorem Run.mem_warnings (o : OpId) (name : String) :
    .unsupportedOperator o name ∈ ctx₃.warnings ↔ ctx₀.source.PassedOver o name := by
  classical
  rw [← count_pos_iff, h.count_warnings, h.cloned.count_warnings]
  grind

/-! ## Rewriting -/

/-- An operation of the working copy is rewritten once: it has a plan, emission comes to it once,
and the graph has an operation that writes its fused output. -/
structure Rewrites (ctx : Context) (g : Graph) (o : OpId) : Prop where
  planned : ctx.plans.get? o ≠ none
  visited : ctx.visited.count o = 1
  emitted : ∃ op f o' op', ctx.cloned.ops.get? o = some op ∧ ctx.fusedOf.get? op.output = some f ∧
    g.ops.get? o' = some op' ∧ op'.output = f

/-- **Every operation of the working copy is rewritten once.** -/
theorem Run.rewrites (hop : ctx₃.cloned.ops.get? o = some op) : ctx₃.Rewrites ctx₃.fused o := by
  have hs := h.emitted.emitting.settled
  refine ⟨hs.allPlaced.plans_ne hs.sound hop, ?_, ?_⟩
  · exact count_eq_one_of_mem h.emitted.visited_nodup
      (h.emitted.mem_visited (h.emitted.cloned ▸ hop))
  · obtain ⟨z, hz⟩ := hs.wellFormed.output_known hop
    obtain ⟨f, hf⟩ := Option.ne_none_iff_exists'.1 (h.emitted.complete (h.emitted.cloned ▸ hz))
    refine ⟨op, f, ?_⟩
    cases (h.emitted.emitting.fusedOf hf).2 with
    | source hx hrole _ _ _ =>
      have hmem := hs.wellFormed.mem_sources.2 ⟨_, hx, hrole⟩
      exact absurd hmem (hs.wellFormed.not_source_of_output hop)
    | batched _ _ _ hop' | canvas _ _ hop' => exact ⟨_, _, hop, hf, hop', rfl⟩

/-- Copies stay what they are after cloning. -/
theorem Run.copies_eq {r : Fused} (hend : Collected ctx₃ ctx r) : ctx.Copies = ctx₁.Copies := by
  have hcore : ctx₃.Copies = ctx₂.Copies := congr_core Context.Copies h.emitted.core fun _ => rfl
  have hframe : ctx₂.Copies = ctx₁.Copies := by
    rw [h.frame.eq]
    rfl
  rw [← hframe, ← hcore, hend.state]
  rfl

end Context

open Context

/-- An input that is pooled and sliced, next to two sums that wait for each other. -/
def slicedCycle : List Graph.Call :=
  [.createTensor ⟨.f32, [2, 1, 1, 4], .input, none⟩,
    .createTensor ⟨.f32, [2, 1, 1, 4], .transient, none⟩,
    .createTensor ⟨.f32, [2, 1, 1, 4], .output, none⟩,
    .emit (.pool2d ⟨.max, ⟨1, 2⟩, ⟨1, 1⟩, .both ⟨0, 0⟩, .nchw⟩) [⟨0⟩] .output,
    .emit (.slice [0, 0, 0, 0] [2, 1, 1, 2]) [⟨3⟩] .output,
    .addOp (.binary .add) [⟨0⟩, ⟨1⟩] [⟨2⟩],
    .addOp (.binary .add) [⟨2⟩, ⟨2⟩] [⟨1⟩]]

open Classical in
/-- **Coverage.** A run that succeeds says where exactly the computable tensors went. It copies,
plans and rewrites every operation with a computable output once, and nothing else. The outputs it
misses are those that are not computable, and it warns once about each slice and softmax of
computable tensors. -/
theorem fuse_covers_computable {lim lim' : Limit} {calls : List Graph.Call} {options : Options}
    {r : Fused} (h : fuse lim options (Graph.build lim' calls) = .ok r) :
    let source := Graph.build lim' calls
    ∃ ctx₀ ctx, Context.initial lim source options = .ok ctx₀ ∧ Pass.fuse.run ctx₀ = (.ok r, ctx) ∧
      (∀ t, r.info.get? t ≠ none ↔ source.Computable t) ∧
      (∀ o op, source.ops.get? o = some op → source.Computable op.output → ∃! o', ctx.Copies o o') ∧
      (∀ o' op', ctx.cloned.ops.get? o' = some op' →
        (∃! o, ctx.Copies o o') ∧ ctx.Rewrites r.graph o') ∧
      r.report.counters.fusedOps + r.report.counters.batchedOps =
        (source.ops.handles.filter fun o =>
          ∃ op, source.ops.get? o = some op ∧ source.Computable op.output).length ∧
      r.missing = source.outputs.filter (fun t => ¬ source.Computable t) ∧
      ∀ o name, r.report.warnings.count (.unsupportedOperator o name) =
        if source.PassedOver o name then 1 else 0 := by
  intro source
  have hsource : source.WellFormed := Graph.wellFormed_build lim' calls
  obtain ⟨ctx₀, ctx₁, ctx₂, ctx₃, ctx, hinit, hrun, h₀, hphases, hend⟩ := exists_run hsource h
  have hsource₀ : ctx₀.source.WellFormed := h₀.source_eq ▸ hsource
  refine ⟨ctx₀, ctx, hinit, hrun, fun t => ?_, fun o op hop hcomputable => ?_,
    fun o' op' hop' => ?_, ?_, ?_, fun o name => ?_⟩
  · rw [hend.info, ne_eq, Option.map_eq_none_iff, hphases.cloneOf_eq]
    exact hphases.cloned.computable_iff.trans (by rw [h₀.source_eq])
  · rw [hphases.copies_eq hend]
    exact hphases.cloned.existsUnique_copy hsource₀ (h₀.source_eq ▸ hop)
      (h₀.source_eq ▸ hcomputable)
  · have hcloned : ctx.cloned = ctx₃.cloned := by rw [hend.state]
    rw [hcloned] at hop'
    have hrewrites := hphases.rewrites hop'
    refine ⟨?_, ?_, ?_, ?_⟩
    · rw [hphases.copies_eq hend]
      exact hphases.cloned.existsUnique_original hsource₀ (hphases.cloned_eq ▸ hop')
    · rw [hend.state]
      exact hrewrites.planned
    · rw [hend.state]
      exact hrewrites.visited
    · rw [hend.graph, hend.relabels.ops_eq, hend.state]
      exact hrewrites.emitted
  · rw [hend.report, ← h₀.source_eq]
    refine (hphases.emitted.counted_eq).trans ?_
    rw [hphases.frame.cloned]
    refine hphases.cloned.ops_size_eq hsource₀ ((Table.nodup_handles _).filter _) fun o => ?_
    rw [List.mem_filter, decide_eq_true_eq, and_iff_right_of_imp]
    rintro ⟨op, hop, -⟩
    exact Table.mem_handles.2 (Table.lt_of_get? hop)
  · rw [hend.missing, hphases.source_eq, h₀.source_eq]
    refine List.filter_congr fun t ht => ?_
    rw [Bool.eq_iff_iff, Option.isNone_iff_eq_none, decide_eq_true_eq,
      hphases.outputOf?_eq_none_iff hsource₀ (h₀.source_eq ▸ ht), hphases.cloneOf_eq, ← not_iff_not,
      not_not]
    exact hphases.cloned.computable_iff.trans (by rw [h₀.source_eq])
  · rw [hend.report]
    refine (hphases.count_warnings o name).trans ?_
    rw [hphases.cloned.count_warnings o name, h₀.source_eq]

open Classical in
/-- The sums are never computed, and the slice is passed over. -/
theorem fuse_covers_computable_cycle : ∃ r,
    fuse .word64 .standard (Graph.build .word64 slicedCycle) = .ok r ∧
    (∀ t, r.info.get? t ≠ none ↔ (Graph.build .word64 slicedCycle).Computable t) ∧
    r.missing = (Graph.build .word64 slicedCycle).outputs.filter
      (fun t => ¬ (Graph.build .word64 slicedCycle).Computable t) ∧
    ∀ o name, r.report.warnings.count (.unsupportedOperator o name) =
      if (Graph.build .word64 slicedCycle).PassedOver o name then 1 else 0 := by
  obtain ⟨r, hr⟩ := exists_fused .word64 .standard (Graph.build .word64 slicedCycle)
    (by decide +kernel)
  obtain ⟨_, _, -, -, hinfo, -, -, -, hmissing, hwarnings⟩ := fuse_covers_computable hr
  exact ⟨r, hr, hinfo, hmissing, hwarnings⟩

end CanvasFusion
