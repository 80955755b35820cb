import CanvasFusion.Proofs.Fusion.Cloning
import CanvasFusion.Proofs.Fusion.LeastGaps

/-!
# Gap inference on a working copy

Gap inference runs on the working copy of a source graph. What it plans is what planning every
operation in order of creation, without moving any gap, gives (`Pass.planAll`). So the equations
that gaps have to satisfy are known before inference starts, and they may or may not have a
solution.

**Theorem (inferGaps_least_solution).** If inference succeeds, then the recorded gaps are the least
solution. If there is a solution at all, there is a least one, and inference succeeds as soon as it
may make as many backward passes as the gaps of the least solution add up to.

**Theorem (inferGaps_terminates).** Inference succeeds or says that it diverged. It never runs out
of the steps that bound its loops, whether there is a solution or not.
-/

namespace CanvasFusion

open Pass

namespace Context

variable {lim : Limit} {source : Graph} {options : Options} {planned ctx₀ ctx ctx' : Context}

/-- What planning in order of creation leaves behind. -/
structure Planned (ctx planned : Context) : Prop where
  run : planAll.run ctx = (.ok (), planned)
  sound : planned.Sound
  frame : Frame ctx planned
  allPlaced : planned.AllPlaced

theorem exists_planned (hf : ctx.Fresh) : ∃ planned, Planned ctx planned := by
  rcases (planAll_spec (E := fun _ _ => False) hf).run_cases with
    ⟨_, planned, hrun, hs, hframe, hall⟩ | ⟨_, _, _, hfalse⟩
  · exact ⟨planned, hrun, hs, hframe, hall⟩
  · exact hfalse.elim

/-- Inference after cloning, in full. -/
theorem after_inferGaps (hf : ctx.Fresh) (h0 : ctx.counters.backwardPasses = 0)
    (hp : Planned ctx planned) :
    After inferGaps ctx (fun _ ctx' => Inferring planned ctx' [])
      (fun e _ => planned.Diverged e) :=
  (inferGaps_spec hf h0 hp.sound.consistent hp.allPlaced hp.frame).imp (fun _ _ h => h)
    fun _ _ h => h.diverged

/-- Where everything is placed, every operation is planned. -/
theorem AllPlaced.plans_ne (h : ctx.AllPlaced) (hs : ctx.Sound) {o : OpId} {op : Operation}
    (hop : ctx.cloned.ops.get? o = some op) : ctx.plans.get? o ≠ none := by
  obtain ⟨y, hy⟩ := hs.base.wellFormed.output_known hop
  have hplanned := (hs.consistent.op hop).resolve_left fun hnone => h _ y hy hnone.2
  grind [PlannedAt.decision]

theorem Inferring.plans_eq (h : Inferring planned ctx []) (hp : planned.Sound)
    (hall : planned.AllPlaced) (o : OpId) : ctx.plans.get? o = planned.plans.get? o := by
  cases hop : planned.cloned.ops.get? o with
  | some op => exact (h.extends_planned hp.consistent hp.base).plan (hall.plans_ne hp hop)
  | none =>
    have hnone : ∀ {c : Context}, c.Sound → c.cloned = planned.cloned → c.plans.get? o = none := by
      intro c hc hcloned
      by_contra hsome
      obtain ⟨op, hop'⟩ := hc.consistent.op_known hsome
      grind
    rw [hnone h.sound h.frame.cloned, hnone hp rfl]

/-- If there is a solution, there is a least one: inference finds it when it is given as many passes
as the gaps of the solution add up to. -/
theorem exists_least (hf : ctx.Fresh) (h0 : ctx.counters.backwardPasses = 0)
    (hp : Planned ctx planned) {σ : TensorId → Pair Nat} (hσ : planned.Solves σ) :
    ∃ least, planned.IsLeastSolution least := by
  let budget := planned.totalGap σ
  have hext : Extends planned { planned with maxBackwardPasses := budget } :=
    ⟨rfl, rfl, rfl, rfl, fun _ => rfl, fun _ => rfl, fun _ => rfl⟩
  have hext' : Extends { planned with maxBackwardPasses := budget } planned :=
    ⟨rfl, rfl, rfl, rfl, fun _ => rfl, fun _ => rfl, fun _ => rfl⟩
  have hfresh : ({ ctx with maxBackwardPasses := budget } : Context).Fresh :=
    { hf with base := { hf.base with } }
  have hframe : Frame { ctx with maxBackwardPasses := budget }
      { planned with maxBackwardPasses := budget } := ⟨by rw [hp.frame.eq], hp.frame.unsupported⟩
  have hcons : ({ planned with maxBackwardPasses := budget } : Context).Consistent :=
    { hp.sound.consistent with
      op := fun hop => (hp.sound.consistent.op hop).imp id hext.plannedAt }
  rcases (inferGaps_spec hfresh h0 hcons hp.allPlaced hframe).run_cases with
    ⟨_, ctx', _, hend⟩ | ⟨e, _, _, hdiverged⟩
  · obtain ⟨hsol, hleast⟩ := hend.isLeastSolution hcons (hext.base hp.sound.base)
    exact ⟨ctx'.gapOf, hsol.of_extends hext, fun τ hτ => hleast τ (hτ.of_extends hext')⟩
  · exact absurd (hdiverged.diverged.2 σ (hσ.of_extends hext')) (Nat.lt_irrefl _)

/-- What cloning hands to inference. -/
theorem fresh_of_cloning (hsource : source.WellFormed)
    (hinit : initial lim source options = .ok ctx₀)
    (hclone : cloneSource.run ctx₀ = (.ok (), ctx)) :
    (ctx.under .unbounded).Fresh ∧ ctx.counters.backwardPasses = 0 ∧ ctx.limit = lim ∧
      ctx.maxBackwardPasses = options.maxBackwardPasses := by
  have hstart := starts_of_initial hinit
  have hcloned := (after_cloneSource (P := False) hstart (hstart.source_eq ▸ hsource)
    False.elim).of_run hclone
  refine ⟨hcloned.fresh hstart, ?_, ?_, ?_⟩
  · rw [hcloned.copying.frame]
    exact congrArg Counters.backwardPasses hstart.counters
  · rw [hcloned.copying.frame]
    exact hstart.limit
  · rw [hcloned.copying.frame]
    exact hstart.maxBackwardPasses

end Context

open Context

/-! ## Two poolings side by side -/

/-- Two poolings of one input, windows of two and three cells, whose results are added. -/
def unevenPools (width : Nat) (strides : Pair Nat) : List Graph.Call :=
  let pool (kernel stride : Nat) : Operator :=
    .pool2d ⟨.max, ⟨1, kernel⟩, ⟨1, stride⟩, .both ⟨0, 0⟩, .nchw⟩
  [.createTensor ⟨.f32, [2, 1, 1, width], .input, none⟩,
    .emit (pool 2 strides.first) [⟨0⟩] .transient,
    .emit (pool 3 strides.second) [⟨0⟩] .transient,
    .emit (.binary .add) [⟨1⟩, ⟨2⟩] .output]

/-- The state after cloning. -/
def cloned? (lim : Limit) (source : Graph) (options : Options) : Option Context :=
  match initial lim source options with
  | .error _ => none
  | .ok ctx₀ =>
    match cloneSource.run ctx₀ with
    | (.ok (), ctx) => some ctx
    | (.error _, _) => none

theorem exists_cloned (lim : Limit) (source : Graph) (options : Options)
    (h : (cloned? lim source options).isSome = true) : ∃ ctx₀ ctx,
      initial lim source options = .ok ctx₀ ∧ cloneSource.run ctx₀ = (.ok (), ctx) ∧
        cloned? lim source options = some ctx := by
  grind [cloned?]

/-! ## Main results -/

/-- **Gap inference computes the least solution.** The sources are all graphs that can be built, and
the options are arbitrary; sizes are unbounded. -/
theorem inferGaps_least_solution {lim : Limit} {calls : List Graph.Call} {options : Options}
    {ctx₀ ctx : Context}
    (hinit : Context.initial .unbounded (Graph.build lim calls) options = .ok ctx₀)
    (hclone : Pass.cloneSource.run ctx₀ = (.ok (), ctx)) :
    ∃ planned, Pass.planAll.run ctx = (.ok (), planned) ∧
      (∀ ctx', Pass.inferGaps.run ctx = (.ok (), ctx') →
        (∀ o, ctx'.plans.get? o = planned.plans.get? o) ∧
        (∀ t x, ctx.cloned.tensors.get? t = some x → ctx'.gaps.get? t = some (ctx'.gapOf t)) ∧
        planned.IsLeastSolution ctx'.gapOf) ∧
      ((∃ σ, planned.Solves σ) → ∃ least, planned.IsLeastSolution least ∧
        (planned.totalGap least ≤ options.maxBackwardPasses →
          ∃ ctx', Pass.inferGaps.run ctx = (.ok (), ctx'))) := by
  obtain ⟨hf, h0, hlimit, hmax⟩ := fresh_of_cloning (Graph.wellFormed_build lim calls) hinit hclone
  rw [under_self hlimit] at hf
  obtain ⟨planned, hp⟩ := exists_planned hf
  have hinfer := after_inferGaps hf h0 hp
  refine ⟨planned, hp.run, fun ctx' hrun => ?_, fun ⟨σ, hσ⟩ => ?_⟩
  · have hend := hinfer.of_run hrun
    refine ⟨hend.plans_eq hp.sound hp.allPlaced, fun t x ht => ?_,
      hend.isLeastSolution hp.sound.consistent hp.sound.base⟩
    rw [← hp.frame.cloned, ← hend.frame.cloned] at ht
    obtain ⟨g, hg⟩ := hend.recorded ht
    rw [hg, gapOf_eq hg]
  · obtain ⟨least, hleast⟩ := exists_least hf h0 hp hσ
    refine ⟨least, hleast, fun hle => ?_⟩
    rcases hinfer.run_cases with ⟨_, ctx', hrun, -⟩ | ⟨e, _, _, hdiverged⟩
    · exact ⟨ctx', hrun⟩
    · have hlt := hdiverged.2 least hleast.1
      rw [hp.frame.maxBackwardPasses, hmax] at hlt
      omega

/-- Two poolings with stride two need a gap at their input, and find the least one. -/
theorem inferGaps_least_solution_pools : ∃ ctx₀ ctx ctx' planned,
    Context.initial .unbounded (Graph.build .word64 (unevenPools 5 ⟨2, 2⟩)) .standard = .ok ctx₀ ∧
    Pass.cloneSource.run ctx₀ = (.ok (), ctx) ∧ Pass.inferGaps.run ctx = (.ok (), ctx') ∧
    Pass.planAll.run ctx = (.ok (), planned) ∧ planned.IsLeastSolution ctx'.gapOf := by
  obtain ⟨ctx₀, ctx, hinit, hclone, hcloned⟩ := exists_cloned .unbounded
    (Graph.build .word64 (unevenPools 5 ⟨2, 2⟩)) .standard (by decide +kernel)
  have hok : ((cloned? .unbounded (Graph.build .word64 (unevenPools 5 ⟨2, 2⟩)) .standard).map
      fun c => (Pass.inferGaps.run c).1.toBool) = some true := by decide +kernel
  rw [hcloned] at hok
  obtain ⟨planned, hplan, hleast, -⟩ := inferGaps_least_solution hinit hclone
  rcases hrun : Pass.inferGaps.run ctx with ⟨_ | _, ctx'⟩
  · simp [hrun, Except.toBool] at hok
  · exact ⟨ctx₀, ctx, ctx', planned, hinit, hclone, hrun, hplan, (hleast ctx' hrun).2.2⟩

/-- **Gap inference terminates.** Neither the queue nor a backward walk uses up its steps, so the
result is success or divergence. -/
theorem inferGaps_terminates {lim : Limit} {calls : List Graph.Call} {options : Options}
    {ctx₀ ctx : Context}
    (hinit : Context.initial .unbounded (Graph.build lim calls) options = .ok ctx₀)
    (hclone : Pass.cloneSource.run ctx₀ = (.ok (), ctx)) :
    (Pass.inferGaps.run ctx).1 = .ok () ∨
      (Pass.inferGaps.run ctx).1 = .error (.diverged options.maxBackwardPasses) := by
  obtain ⟨hf, h0, hlimit, hmax⟩ := fresh_of_cloning (Graph.wellFormed_build lim calls) hinit hclone
  rw [under_self hlimit] at hf
  obtain ⟨planned, hp⟩ := exists_planned hf
  rcases (after_inferGaps hf h0 hp).run_cases with ⟨_, _, hrun, -⟩ | ⟨e, _, hrun, he, -⟩
  · exact .inl (by rw [hrun])
  · rw [hp.frame.maxBackwardPasses, hmax] at he
    exact .inr (by rw [hrun, he])

/-- Two poolings with different strides have no solution; inference gives up after the passes it may
make. -/
theorem inferGaps_terminates_pools : ∃ ctx₀ ctx,
    Context.initial .unbounded (Graph.build .word64 (unevenPools 4 ⟨2, 1⟩)) .standard = .ok ctx₀ ∧
    Pass.cloneSource.run ctx₀ = (.ok (), ctx) ∧
    ((Pass.inferGaps.run ctx).1 = .ok () ∨
      (Pass.inferGaps.run ctx).1 = .error (.diverged Options.standard.maxBackwardPasses)) := by
  obtain ⟨ctx₀, ctx, hinit, hclone, -⟩ := exists_cloned .unbounded
    (Graph.build .word64 (unevenPools 4 ⟨2, 1⟩)) .standard (by decide +kernel)
  exact ⟨ctx₀, ctx, hinit, hclone, inferGaps_terminates hinit hclone⟩

end CanvasFusion
