import CanvasFusion.Proofs.Fusion.Coverage

/-!
# Backward passes along a chain

A chain takes one tensor on from operation to operation; weights and biases stand beside it. Nothing
on a chain is shared, so what one operation asks of its input is what the operations before it can
give, and no later visit finds a gap too small. Each operation makes at most one backward pass, on
its first visit, whatever the windows, strides and paddings are and however often the chain leaves
the canvas.

**Theorem (inferGaps_passes_le_ops).** Gap inference on a chain of `m` operations makes at most `m`
backward passes, and succeeds if it may make that many.
-/

namespace CanvasFusion

open List Table

/-- The operators that take one tensor on, with at most weights and a bias beside it. -/
def Operator.isLink : Operator → Bool
  | .conv2d _ | .pool2d _ | .pad _ | .activation _ | .reduce .. | .transpose _ | .reshape _ => true
  | .binary _ | .concat _ | .slice .. | .softmax _ => false

/-- The operations form a chain, or several chains side by side: each of them takes on its first
input, and no two of them the same one. -/
def Graph.IsChain (g : Graph) : Prop :=
  (∀ e ∈ g.ops.entries, e.2.kind.isLink = true) ∧
    (g.ops.entries.map fun e => e.2.inputs.head?).Nodup

instance (g : Graph) : Decidable g.IsChain := inferInstanceAs (Decidable (_ ∧ _))

namespace Graph.IsChain

variable {g : Graph} {o o' : OpId} {op op' : Operation} (h : g.IsChain)
  (hop : g.ops.get? o = some op)

include h hop

theorem isLink : op.kind.isLink = true := h.1 (o, op) (mem_entries.2 hop)

theorem op_eq_of_head (hop' : g.ops.get? o' = some op') (heq : op.inputs.head? = op'.inputs.head?) :
    o = o' :=
  congrArg Prod.fst
    (inj_on_of_nodup_map h.2 (mem_entries.2 hop) (mem_entries.2 hop') heq)

end Graph.IsChain

namespace Context

variable {ctx₀ ctx planned : Context} {o o' : OpId} {op : Operation} {plan : FusedPlan}
  {x : TensorId}

/-- What a link of a chain has on the canvas is its first input. -/
theorem PlanFor.head_eq (h : ctx.PlanFor op plan) (hlink : op.kind.isLink = true)
    (hx : x ∈ gappedInputs op plan) : op.inputs.head? = some x := by
  have hgapped : plan.gapped = [0] := by
    unfold PlanFor at h
    split at h
    · grind
    · grind
    · grind
    · obtain ⟨_, _, _, rfl⟩ := h
      rfl
    · obtain ⟨_, _, _, rfl⟩ := h
      rfl
    · obtain ⟨_, _, _, _, rfl⟩ := h
      rfl
    all_goals simp_all [Operator.isLink]
  obtain ⟨i, hi, hget⟩ := mem_gappedInputs.1 hx
  rw [hgapped, mem_singleton] at hi
  rwa [hi, ← head?_eq_getElem?] at hget

theorem CopiedKind.isLink {kind kind' : Operator} (h : ctx.CopiedKind kind kind')
    (hlink : kind.isLink = true) : kind'.isLink = true := by
  rcases h with ⟨-, rfl⟩ | ⟨_, _, -, -, rfl⟩
  · exact hlink
  · rfl

section Cloned

variable (h : Cloned ctx₀ ctx)
include h

theorem Cloned.ops_size_le : ctx.cloned.ops.size ≤ ctx₀.source.ops.size := by
  rw [h.ops_size, ← length_handles ctx₀.source.ops]
  refine (length_filter_le _ _).trans (h.visited_nodup.subperm fun o ho => ?_).length_le
  obtain ⟨op, hop, -⟩ := h.visited o ho
  exact mem_handles.2 (lt_of_get? hop)

variable (hsource : ctx₀.source.WellFormed) (hchain : ctx₀.source.IsChain) (hs : planned.Sound)
  (hcloned : planned.cloned = ctx.cloned)
include hsource hchain hs hcloned

/-- A tensor on the canvas is the copy of what the original of its reader takes on. -/
theorem Cloned.exists_taken (hop : planned.cloned.ops.get? o' = some op)
    (hplan : planned.plans.get? o' = some (.fused plan)) (hx : x ∈ gappedInputs op plan) :
    ∃ o op₀ t, ctx₀.source.ops.get? o = some op₀ ∧ op₀.inputs.head? = some t ∧
      ctx.cloneOf.get? t = some x ∧ ctx.cloneOf.get? op₀.output = some op.output := by
  rw [hcloned] at hop
  obtain ⟨o, ⟨op₀, op₁, hop₀, hop₁, hkind, hinputs, hout⟩, -⟩ := h.existsUnique_original hsource hop
  cases hop.symm.trans hop₁
  rw [h.source_eq] at hop₀
  have hhead := (hs.planFor (hcloned.symm ▸ hop) hplan).head_eq
    (hkind.isLink (hchain.isLink hop₀)) hx
  grind [head?_eq_some_iff, forall₂_cons_right_iff]

/-- **Nothing on the canvas is shared** in the working copy of a chain. -/
theorem Cloned.unshared : planned.Unshared := by
  intro o₁ o₂ op₁ op₂ plan₁ plan₂ x hop₁ hop₂ hplan₁ hplan₂ hx₁ hx₂
  obtain ⟨s₁, a₁, t₁, ha₁, hhead₁, ht₁, hout₁⟩ :=
    h.exists_taken hsource hchain hs hcloned hop₁ hplan₁ hx₁
  obtain ⟨s₂, a₂, t₂, ha₂, hhead₂, ht₂, hout₂⟩ :=
    h.exists_taken hsource hchain hs hcloned hop₂ hplan₂ hx₂
  cases h.copying.injective ht₁ ht₂
  cases hchain.op_eq_of_head ha₁ ha₂ (hhead₁.trans hhead₂.symm)
  cases ha₁.symm.trans ha₂
  rw [hcloned] at hop₁ hop₂
  exact h.copying.wellFormed.op_eq_of_output hop₁ hop₂ (Option.some.inj (hout₁.symm.trans hout₂))

end Cloned

end Context

open Context

/-- A convolution, a pooling, a padding, an activation, a sum over the channels and one more
pooling, which has to begin a new canvas. -/
def stretchedChain : List Graph.Call :=
  let pool (kernel stride : Nat) : Operator :=
    .pool2d ⟨.max, ⟨1, kernel⟩, ⟨1, stride⟩, .both ⟨0, 0⟩, .nchw⟩
  [.createTensor ⟨.f32, [2, 1, 1, 9], .input, none⟩,
    .createConstant ⟨.f32, [1, 1, 1, 2], .constant, none⟩ (List.replicate 8 0),
    .emit (.conv2d ⟨⟨1, 2⟩, ⟨1, 2⟩, ⟨⟨0, 0⟩, ⟨1, 1⟩⟩, .nchw⟩) [⟨0⟩, ⟨1⟩] .transient,
    .emit (pool 2 3) [⟨2⟩] .transient,
    .emit (.pad ⟨[0, 0, 0, 1], [0, 0, 0, 2], .zero⟩) [⟨3⟩] .transient,
    .emit (.activation .sigmoid) [⟨4⟩] .transient,
    .emit (.reduce .sum [1] true) [⟨5⟩] .transient,
    .emit (pool 2 2) [⟨6⟩] .output]

/-- **A chain of `m` operations needs at most `m` backward passes.** -/
theorem inferGaps_passes_le_ops {lim : Limit} {calls : List Graph.Call} {options : Options}
    {ctx₀ ctx : Context}
    (hinit : Context.initial .unbounded (Graph.build lim calls) options = .ok ctx₀)
    (hclone : Pass.cloneSource.run ctx₀ = (.ok (), ctx)) (hchain : (Graph.build lim calls).IsChain)
    (hmax : (Graph.build lim calls).ops.size ≤ options.maxBackwardPasses) :
    ∃ ctx', Pass.inferGaps.run ctx = (.ok (), ctx') ∧
      ctx'.counters.backwardPasses ≤ (Graph.build lim calls).ops.size := by
  have hsource := Graph.wellFormed_build lim calls
  obtain ⟨hf, h0, hlimit, hpasses⟩ := fresh_of_cloning hsource hinit hclone
  rw [under_self hlimit] at hf
  obtain ⟨planned, hp⟩ := exists_planned hf
  have hstart := starts_of_initial hinit
  rw [← hstart.source_eq] at hsource hchain hmax ⊢
  have hcloned := (after_cloneSource (P := False) hstart hsource False.elim).of_run hclone
  have hun : planned.Unshared := hcloned.unshared hsource hchain hp.sound hp.frame.cloned
  have hsize := hcloned.ops_size_le
  rw [← hp.frame.cloned] at hsize
  rcases (inferGaps_spec hf h0 hp.sound.consistent hp.allPlaced hp.frame).run_cases with
    ⟨_, ctx', hrun, hend⟩ | ⟨e, _, _, hgave⟩
  · refine ⟨ctx', hrun, ((hend.once hun).passes_le hend.sound).trans ?_⟩
    rwa [hend.frame.cloned]
  · have hlt := hgave.unshared hun
    rw [hp.frame.maxBackwardPasses, hpasses] at hlt
    omega

/-- Six passes are enough for six operations on two stretches of canvas. -/
theorem inferGaps_passes_le_ops_stretched : ∃ ctx₀ ctx ctx',
    Context.initial .unbounded (Graph.build .word64 stretchedChain) ⟨.nchw, none, 6⟩ = .ok ctx₀ ∧
    Pass.cloneSource.run ctx₀ = (.ok (), ctx) ∧ (Graph.build .word64 stretchedChain).IsChain ∧
    (Graph.build .word64 stretchedChain).ops.size = 6 ∧
    Pass.inferGaps.run ctx = (.ok (), ctx') ∧ ctx'.counters.backwardPasses ≤ 6 := by
  obtain ⟨ctx₀, ctx, hinit, hclone, -⟩ := exists_cloned .unbounded
    (Graph.build .word64 stretchedChain) ⟨.nchw, none, 6⟩ (by decide +kernel)
  have hsize : (Graph.build .word64 stretchedChain).ops.size = 6 := by decide +kernel
  have hchain : (Graph.build .word64 stretchedChain).IsChain := by decide +kernel
  obtain ⟨ctx', hrun, hle⟩ := inferGaps_passes_le_ops hinit hclone hchain (by rw [hsize])
  exact ⟨ctx₀, ctx, ctx', hinit, hclone, hchain, hsize, hrun, hsize ▸ hle⟩

end CanvasFusion
