import CanvasFusion.Proofs.Fusion.Run

/-!
# Element types and quantization

An operation of the working copy or of the fused graph has an output of the format of its first
input: its element type and its quantization (`Sequential.inherits`). Adapters go from first input
to first input as well, so a fused tensor has the format of its copy, and a copy has the format of
the input or constant that its line of first inputs starts from. What the source declares for the
outputs of its operations is not looked at.
-/

namespace CanvasFusion

open List CanvasFusion.Graph

/-! ## First inputs -/

/-- Going from first input to first input, a tensor starts from the source `s`. -/
inductive Graph.StartsFrom (g : Graph) : TensorId → TensorId → Prop where
  | source {s : TensorId} (hs : s ∈ g.sources) : StartsFrom g s s
  | written {o : OpId} {op : Operation} {x s : TensorId} {rest : List TensorId}
      (hop : g.ops.get? o = some op) (hin : op.inputs = x :: rest) (h : StartsFrom g x s) :
      StartsFrom g op.output s

theorem Graph.StartsFrom.unique {g : Graph} (hg : g.WellFormed) {t s s' : TensorId}
    (h : g.StartsFrom t s) (h' : g.StartsFrom t s') : s' = s := by
  induction h generalizing s' with
  | @source s hs =>
    generalize ht : s = t at h'
    cases h' with
    | source => rfl
    | written hop _ _ => exact absurd (ht ▸ hs) (hg.not_source_of_output hop)
  | @written o op x s rest hop hin _ ih =>
    generalize ht : op.output = t at h'
    cases h' with
    | source hs => exact absurd (ht ▸ hs) (hg.not_source_of_output hop)
    | written hop' hin' h' => grind [WellFormed.op_eq_of_output]

theorem Graph.Grows.formatOf {g g' : Graph} (h : g.Grows g') {t : TensorId} {x : Tensor}
    (hx : g.tensors.get? t = some x) : g'.formatOf t = g.formatOf t := by
  grind [formatOf_eq, tensor]

/-- The format of an output, by the first input of its operation. -/
theorem Graph.Sequential.format_eq {g : Graph} (hg : g.Sequential) {o : OpId} {kind : Operator}
    {x y : TensorId} {rest : List TensorId} (hop : g.ops.get? o = some ⟨kind, x :: rest, y⟩) :
    g.formatOf y = g.formatOf x := by
  grind [inherits]

/-- A chain of operators keeps the format. -/
theorem Graph.Chain.format_eq {g : Graph} (hg : g.Sequential) {x y : TensorId}
    {kinds : List Operator} (h : g.Chain x kinds y) : g.formatOf y = g.formatOf x := by
  induction h with
  | nil => rfl
  | snoc _ hop ih => rw [hg.format_eq hop, ih]

namespace Context

variable {ctx₀ ctx : Context} {plan : FusedPlan} {t c f : TensorId} {P : Prop}

/-! ## Copies -/

/-- **A copy has the format of where its original starts from.** -/
theorem Copying.format (h : Copying ctx₀ ctx) (hsource : ctx.source.WellFormed)
    (ht : ctx.cloneOf.get? t = some c) :
    ∃ s, ctx.source.StartsFrom t s ∧ ctx.cloned.formatOf c = ctx.source.formatOf s := by
  induction c using Handle.induction generalizing t with
  | _ c ih =>
    cases h.copied ht with
    | @input x y hx hrole hy hspec | @constant x y hx hrole hy hspec =>
      refine ⟨t, .source (hsource.source_of_role hx hrole), ?_⟩
      rw [formatOf_eq hy, formatOf_eq hx, hspec]
    | @written o o' op op' hop hout _ hop' hout' _ hinputs =>
      subst hout hout'
      obtain ⟨y, ys, hin', hformat⟩ := h.sequential.inherits hop'
      have hlt := h.sequential.input_lt hop' (hin' ▸ mem_cons_self)
      rw [hin'] at hinputs
      generalize hin : op.inputs = inputs at hinputs
      cases hinputs with
      | cons hxy _ =>
        obtain ⟨s, hs, hsformat⟩ := ih _ hlt hxy
        exact ⟨s, .written hop hin hs, hformat.trans hsformat⟩

/-! ## Fused tensors -/

section Emitting

variable (h : Emitting P ctx)

include h

/-- De-fusing keeps the format. -/
theorem Emitting.defused_format (hf : ctx.defused.get? t = some f) :
    ∃ x, ctx.fusedOf.get? t = some x ∧ ctx.fused.formatOf f = ctx.fused.formatOf x := by
  obtain ⟨x, hx, parts, o, hop, hparts⟩ := (h.defused hf).2.blocks
  obtain ⟨part, rest, hin, hformat⟩ := h.runnable.sequential.inherits hop
  have hmem : part ∈ parts := by grind
  obtain ⟨n, -, o', hop'⟩ := forall₂_right_mem hparts hmem
  exact ⟨x, hx, hformat.trans (h.runnable.sequential.format_eq hop')⟩

/-- A batched form has the format of the tensor where its operation put it. -/
theorem Emitting.batchedAs_format (hf : ctx.BatchedAs t f) :
    ∃ x, ctx.fusedOf.get? t = some x ∧ ctx.fused.formatOf f = ctx.fused.formatOf x := by
  unfold BatchedAs at hf
  by_cases ht : ctx.isCanvas t = true
  · rw [if_pos ht] at hf
    exact h.defused_format hf
  · grind

/-- So has a canvas form. -/
theorem Emitting.canvasAs_format (hf : ctx.CanvasAs plan t f) :
    ∃ x, ctx.fusedOf.get? t = some x ∧ ctx.fused.formatOf f = ctx.fused.formatOf x := by
  cases hf with
  | tiled _ hf =>
    obtain ⟨x, hx, hchain⟩ := (h.tiled hf).2.chain
    exact ⟨x, hx, hchain.format_eq h.runnable.sequential⟩
  | masked _ hf =>
    obtain ⟨x, hx, _, _, _, hop, -⟩ := (h.masked hf).2.product
    exact ⟨x, hx, h.runnable.sequential.format_eq hop⟩
  | clean _ hf _ => exact ⟨f, hf, rfl⟩

theorem Emitting.operandAs_format {i : Nat} (hf : ctx.OperandAs plan i t f) :
    ∃ x, ctx.fusedOf.get? t = some x ∧ ctx.fused.formatOf f = ctx.fused.formatOf x := by
  unfold OperandAs at hf
  by_cases hi : i ∈ plan.gapped
  · rw [if_pos hi] at hf
    exact h.canvasAs_format hf
  · rw [if_neg hi] at hf
    exact h.batchedAs_format hf

/-- **A fused tensor has the format of its copy.** -/
theorem Emitting.format (hf : ctx.fusedOf.get? t = some f) :
    ctx.fused.formatOf f = ctx.cloned.formatOf t := by
  have hcloned := h.settled.sequential
  induction t using Handle.induction generalizing f with
  | _ t ih =>
    cases (h.fusedOf hf).2 with
    | source hx _ hy hspec _ => rw [formatOf_eq hx, formatOf_eq hy, hspec]
    | @batched o o' op inputs hop hout _ hop' hinputs =>
      obtain ⟨x, rest, hin, hformat⟩ := hcloned.inherits hop
      have hlt := hcloned.input_lt hop (hin ▸ mem_cons_self)
      rw [hin] at hinputs
      cases hinputs with
      | cons hxy _ => grind [batchedAs_format, Sequential.format_eq, Runnable.sequential, runnable]
    | @canvas o o' op plan inputs fill hfuses hout hop' hinputs _ _ =>
      obtain ⟨x, rest, hin, hformat⟩ := hcloned.inherits hfuses.known
      have hlt := hcloned.input_lt hfuses.known (hin ▸ mem_cons_self)
      rw [hin, zipIdx_cons] at hinputs
      cases hinputs with
      | cons hxy _ => grind [operandAs_format, Sequential.format_eq, Runnable.sequential, runnable]

end Emitting

end Context

open Context

/-! ## Main result -/

/-- A positive part whose declared elements are quantized bytes, of an input of plain floats. -/
def requantized : List Graph.Call :=
  [.createTensor ⟨.f32, [2, 1, 1, 1], .input, none⟩,
    .createTensor ⟨.u8, [2, 1, 1, 1], .output, some .identity⟩,
    .addOp (.activation .relu) [⟨0⟩] [⟨1⟩]]

/-- **An output of the fused graph has the format of where its first inputs lead.** It has the
format that the source declares for it if and only if that is the same. -/
theorem fuse_output_format {lim lim' : Limit} {calls : List Graph.Call}
    {options : Options} {r : Fused} (h : fuse lim options (Graph.build lim' calls) = .ok r) :
    let source := Graph.build lim' calls
    ∀ t ∈ source.outputs, ∀ f, r.io.get? t = some f → ∃ s, source.StartsFrom t s ∧
      (∀ s', source.StartsFrom t s' → s' = s) ∧ r.graph.formatOf f = source.formatOf s ∧
      (r.graph.formatOf f = source.formatOf t ↔ source.formatOf t = source.formatOf s) := by
  intro source t ht f hf
  have hsource : source.WellFormed := Graph.wellFormed_build lim' calls
  obtain ⟨ctx₀, ctx₁, ctx₂, ctx₃, ctx, -, -, h₀, hphases, hend⟩ := exists_run hsource h
  have hsource₀ : ctx₀.source.WellFormed := h₀.source_eq ▸ hsource
  obtain ⟨c, hc, hbatched⟩ := hphases.io_batched hend hsource₀
    (List.mem_append_right _ (h₀.source_eq ▸ ht)) hf
  obtain ⟨s, hs, hcopy⟩ := hphases.cloned.copying.format
    (hphases.cloned.source_eq ▸ hsource₀) (hphases.cloneOf_eq ▸ hc)
  have hemitting := hphases.emitted.emitting
  obtain ⟨x, hx, hxformat⟩ := hemitting.batchedAs_format hbatched
  obtain ⟨z, hz⟩ := (hemitting.has_of_batchedAs hbatched).known
  rw [hphases.cloned.source_eq, h₀.source_eq] at hs hcopy
  have hformat : r.graph.formatOf f = source.formatOf s := by
    rw [hend.graph, hend.relabels.grows.formatOf hz, hxformat, hemitting.format hx,
      hphases.cloned_eq, hcopy]
  refine ⟨s, hs, fun s' hs' => hs.unique hsource hs', hformat, ?_⟩
  rw [hformat, eq_comm]

/-- The positive part comes out as plain floats. -/
theorem fuse_output_format_requantized : ∃ r f,
    fuse .word64 .standard (Graph.build .word64 requantized) = .ok r ∧ r.io.get? ⟨1⟩ = some f ∧
    r.graph.formatOf f = some (.f32, none) ∧
    r.graph.formatOf f ≠ (Graph.build .word64 requantized).formatOf ⟨1⟩ := by
  obtain ⟨r, hr⟩ := exists_fused .word64 .standard (Graph.build .word64 requantized)
    (by decide +kernel)
  have hio : ((fuse .word64 .standard (Graph.build .word64 requantized)).toOption.bind
      fun r => r.io.get? ⟨1⟩) = some ⟨1⟩ := by decide +kernel
  rw [hr] at hio
  have hf : r.io.get? ⟨1⟩ = some ⟨1⟩ := hio
  obtain ⟨s, -, hunique, hformat, hiff⟩ := fuse_output_format hr ⟨1⟩ (by decide +kernel) ⟨1⟩ hf
  have hstart : (Graph.build .word64 requantized).StartsFrom ⟨1⟩ ⟨0⟩ := by
    have hop : (Graph.build .word64 requantized).ops.get? ⟨0⟩ =
        some ⟨.activation .relu, [⟨0⟩], ⟨1⟩⟩ := by decide +kernel
    exact .written hop rfl (.source (by decide +kernel))
  obtain rfl := hunique _ hstart
  refine ⟨r, ⟨1⟩, hr, hf, hformat.trans (by decide +kernel), fun heq => ?_⟩
  have hdeclared := hiff.1 heq
  revert hdeclared
  decide +kernel

end CanvasFusion
