import CanvasFusion.Fusion.Fused
import CanvasFusion.Proofs.Fusion.Inference

/-!
# Gap inference on machine words

Gap inference asks the limit of its state about every size it forms, and about nothing else. So,
like a single computation on sizes, it has a *peak*, the largest size it forms: at limits that hold
the peak it does what it does in plain arithmetic, and at all others it stops with an overflow.

Windows of different strides that meet again make the gaps grow by a factor in each backward pass,
so sixty-four passes outgrow sixty-four bits (`fuse_unsolvable_pools`).
-/

namespace CanvasFusion

open Pass GapRule

/-! ## Runs of bound steps -/

section Runs

variable {ε σ α β : Type} {m : ExceptT ε (StateM σ) α} {f : α → ExceptT ε (StateM σ) β} {s s' : σ}

theorem run_bind_ok {a : α} (h : m.run s = (.ok a, s')) : (m >>= f).run s = (f a).run s' := by
  change ExceptT.bindCont f (m.run s).1 (m.run s).2 = _
  rw [h]
  rfl

theorem run_bind_error {e : ε} (h : m.run s = (.error e, s')) :
    (m >>= f).run s = (.error e, s') := by
  change ExceptT.bindCont f (m.run s).1 (m.run s).2 = _
  rw [h]
  rfl

theorem run_bind_stops {e : ε} (h : (m.run s).1 = .error e) : ((m >>= f).run s).1 = .error e := by
  rw [run_bind_error (Prod.ext h rfl : m.run s = (.error e, (m.run s).2))]

end Runs

namespace Context

section Under

variable (ctx : Context) (lim : Limit)

@[simp] theorem under_limit : (ctx.under lim).limit = lim := rfl

@[simp] theorem under_cloned : (ctx.under lim).cloned = ctx.cloned := rfl

@[simp] theorem under_axes : (ctx.under lim).axes = ctx.axes := rfl

@[simp] theorem under_grid : (ctx.under lim).grid = ctx.grid := rfl

@[simp] theorem under_maxBackwardPasses :
    (ctx.under lim).maxBackwardPasses = ctx.maxBackwardPasses := rfl

@[simp] theorem under_counters : (ctx.under lim).counters = ctx.counters := rfl

@[simp] theorem under_gaps : (ctx.under lim).gaps = ctx.gaps := rfl

@[simp] theorem under_placements : (ctx.under lim).placements = ctx.placements := rfl

@[simp] theorem under_axisMaps : (ctx.under lim).axisMaps = ctx.axisMaps := rfl

@[simp] theorem under_plans : (ctx.under lim).plans = ctx.plans := rfl

@[simp] theorem under_gap (t : TensorId) : (ctx.under lim).gap t = ctx.gap t := rfl

@[simp] theorem under_plan (o : OpId) : (ctx.under lim).plan o = ctx.plan o := rfl

@[simp] theorem under_isEnabled : (ctx.under lim).isEnabled = ctx.isEnabled := rfl

end Under

end Context

/-! ## Peaks of steps -/

variable {α β : Type} {ctx ctx' ctx₀ planned : Context} {m m' : Limit → Pass α}

/-- At limits that hold `p` the step does what it does in plain arithmetic, and at all others it
stops with an overflow. -/
structure StepPeak (m : Limit → Pass α) (ctx : Context) (p : Nat) : Prop where
  limit : ((m .unbounded).run (ctx.under .unbounded)).2.limit = .unbounded
  holds : ∀ lim, lim.Holds p → (m lim).run (ctx.under lim) =
    (((m .unbounded).run (ctx.under .unbounded)).1,
      ((m .unbounded).run (ctx.under .unbounded)).2.under lim)
  stops : ∀ lim, ¬ lim.Holds p → ((m lim).run (ctx.under lim)).1 = .error (.fault .overflow)

/-- The step has a peak. -/
def Peaks (m : Limit → Pass α) (ctx : Context) : Prop := ∃ p, StepPeak m ctx p

namespace Peaks

/-- A step that does the same at all limits. -/
theorem of_const {r : Except FusionError α} (ctx' : Context)
    (h : ∀ lim, (m lim).run (ctx.under lim) = (r, ctx'.under lim)) : Peaks m ctx := by
  refine ⟨0, ⟨by rw [h]; rfl, fun lim _ => ?_, fun lim hn => absurd lim.holds_zero hn⟩⟩
  rw [h, h]
  rfl

theorem pure (a : α) : Peaks (fun _ => Pure.pure a) ctx := of_const ctx fun _ => rfl

theorem throw (e : FusionError) : Peaks (fun _ => (MonadExcept.throw e : Pass α)) ctx :=
  of_const ctx fun _ => rfl

theorem modify {f : Context → Context} (h : ∀ lim, f (ctx.under lim) = (f ctx).under lim) :
    Peaks (fun _ => (modify f : Pass Unit)) ctx :=
  of_const (r := .ok ()) (f ctx) fun lim => by
    change (Except.ok (), f (ctx.under lim)) = _
    rw [h]

theorem set {s : Limit → Context} (h : ∀ lim, s lim = ctx'.under lim) :
    Peaks (fun lim => (MonadStateOf.set (s lim) : Pass Unit)) ctx :=
  of_const (r := .ok ()) ctx' fun lim => by
    change (Except.ok (), s lim) = _
    rw [h]

theorem check {x : Limit → Except FusionError α} (hx : HasPeak (.fault .overflow) x) :
    Peaks (fun lim => check (x lim)) ctx := by
  obtain ⟨p, hp⟩ := hx
  refine ⟨p, ⟨rfl, fun lim h => ?_, fun lim h => ?_⟩⟩
  · change (x lim, ctx.under lim) = (x .unbounded, ctx.under lim)
    rw [(hp lim).1 h]
  · exact (hp lim).2 h

theorem bind {f : Limit → α → Pass β} (hm : Peaks m ctx)
    (hf : ∀ a ctx', Peaks (fun lim => f lim a) ctx') : Peaks (fun lim => m lim >>= f lim) ctx := by
  obtain ⟨p, hp⟩ := hm
  rcases hrun : (m .unbounded).run (ctx.under .unbounded) with ⟨e | a, ctx'⟩
  · refine ⟨p, ⟨?_, fun lim h => ?_, fun lim h => ?_⟩⟩
    · grind [run_bind_error, StepPeak.limit]
    · grind [run_bind_error, StepPeak.holds]
    · exact run_bind_stops (hp.stops lim h)
  · have hlimit : ctx'.limit = .unbounded := by grind [StepPeak.limit]
    have hself : ctx'.under .unbounded = ctx' := Context.under_self hlimit
    obtain ⟨q, hq⟩ := hf a ctx'
    rw [← hself] at hrun
    refine ⟨max p q, ⟨?_, fun lim h => ?_, fun lim h => ?_⟩⟩
    · rw [run_bind_ok hrun]
      exact hq.limit
    · obtain ⟨h₁, h₂⟩ := Limit.holds_max.1 h
      have h' := hp.holds lim h₁
      rw [hrun] at h'
      rw [run_bind_ok h', run_bind_ok hrun]
      exact hq.holds lim h₂
    · by_cases h₁ : lim.Holds p
      · have h' := hp.holds lim h₁
        rw [hrun] at h'
        rw [run_bind_ok h']
        exact hq.stops lim fun h₂ => h (Limit.holds_max.2 ⟨h₁, h₂⟩)
      · exact run_bind_stops (hp.stops lim h₁)

/-- A step that looks at the state. -/
theorem get {f : Limit → Context → Pass α} (h : Peaks (fun lim => f lim (ctx.under lim)) ctx) :
    Peaks (fun lim => MonadState.get >>= f lim) ctx := by
  obtain ⟨p, hp⟩ := h
  exact ⟨p, ⟨hp.limit, hp.holds, hp.stops⟩⟩

theorem ask {x : Context → Except FusionError α}
    (hx : HasPeak (.fault .overflow) fun lim => x (ctx.under lim)) :
    Peaks (fun _ => ask x) ctx := get (check hx)

/-- A step that is made first in some cases. -/
theorem first {c : Prop} {i : Limit → Decidable c} {m : Pass PUnit} {k : Limit → PUnit → Pass α}
    (hm : Peaks (fun _ => m) ctx) (hk : ∀ u ctx', Peaks (fun lim => k lim u) ctx') :
    Peaks (fun lim => @ite _ c (i lim) (m >>= k lim) (k lim ⟨⟩)) ctx := by
  by_cases h : c
  · simpa only [if_pos h] using bind hm hk
  · simpa only [if_neg h] using hk ⟨⟩ ctx

theorem ite {c : Prop} {i : Limit → Decidable c} (hm : Peaks m ctx)
    (hm' : Peaks m' ctx) : Peaks (fun lim => @ite _ c (i lim) (m lim) (m' lim)) ctx := by
  by_cases h : c
  · simpa only [if_pos h] using hm
  · simpa only [if_neg h] using hm'

theorem forM {f : Limit → β → Pass PUnit} (hf : ∀ b ctx', Peaks (fun lim => f lim b) ctx')
    (xs : List β) : ∀ ctx, Peaks (fun lim => xs.forM (f lim)) ctx := by
  induction xs with
  | nil => exact fun ctx => pure _
  | cons b xs ih => exact fun ctx => bind (hf b ctx) fun _ ctx' => ih ctx'

theorem mapM {f : Limit → β → Pass α} (hf : ∀ b ctx', Peaks (fun lim => f lim b) ctx')
    (xs : List β) : ∀ ctx, Peaks (fun lim => xs.mapM (f lim)) ctx := by
  induction xs with
  | nil => exact fun ctx => pure _
  | cons b xs ih =>
    intro ctx
    simp only [List.mapM_cons]
    exact bind (hf b ctx) fun _ ctx' => bind (ih ctx') fun _ _ => pure _

end Peaks

/-! ## Peaks of what inference computes -/

theorem HasPeak.toFusion {x : Limit → Except Fault α} (hx : HasPeak .overflow x) :
    HasPeak (FusionError.fault .overflow) fun lim => (liftM (x lim) : Except FusionError α) :=
  (hx.mapError GraphError.fault).mapError FusionError.ofGraph

namespace Window

theorem hasPeak_effectiveKernel (w : Window) :
    HasPeak Fault.overflow fun lim => w.effectiveKernel lim :=
  .bind (.const _) fun _ => .bind (hasPeak_mul _ _) fun _ => hasPeak_add _ _

theorem hasPeak_backReach (w : Window) : HasPeak Fault.overflow fun lim => w.backReach lim :=
  .bind (.const _) fun _ => .bind (hasPeak_mul _ _) fun _ =>
    .bind w.hasPeak_effectiveKernel fun _ => .bind (hasPeak_add _ _) fun _ =>
      .bind (hasPeak_add _ _) fun _ => .const _

theorem hasPeak_admissible (w : Window) (gap : Nat) :
    HasPeak Fault.overflow fun lim => w.admissible lim gap := by
  refine .bind (.bind (hasPeak_mul _ _) fun _ => .bind w.hasPeak_backReach fun _ => .const _)
    fun least => ?_
  exact .bind (hasPeak_add _ _) fun _ => .bind (.const _) fun _ => .bind (hasPeak_mul _ _) fun _ =>
    .const _

theorem hasPeak_forward (w : Window) (gap : Nat) :
    HasPeak Fault.overflow fun lim => w.forward lim gap :=
  .bind (hasPeak_add _ _) fun _ => .bind (.const _) fun _ => .const _

theorem hasPeak_backward (w : Window) (gap : Nat) :
    HasPeak Fault.overflow fun lim => w.backward lim gap :=
  .bind (hasPeak_add _ _) fun _ => .bind (hasPeak_mul _ _) fun _ => .const _

end Window

namespace GapRule

theorem hasPeak_admissible (r : GapRule) (gap : Nat) :
    HasPeak Fault.overflow fun lim => r.admissible lim gap := by
  cases r with
  | identity | pad total => exact .const _
  | window w => exact w.hasPeak_admissible gap

theorem hasPeak_forward (r : GapRule) (gap : Nat) :
    HasPeak Fault.overflow fun lim => r.forward lim gap := by
  cases r with
  | identity | pad total => exact .const _
  | window w => exact w.hasPeak_forward gap

theorem hasPeak_backward (r : GapRule) (gap : Nat) :
    HasPeak Fault.overflow fun lim => r.backward lim gap := by
  cases r with
  | identity => exact .const _
  | window w => exact w.hasPeak_backward gap
  | pad total => exact hasPeak_add _ _

end GapRule

theorem Grid.hasPeak_canvasExtent (g : Grid) (d : Dim) (extent gap : Nat) :
    HasPeak Fault.overflow fun lim => g.canvasExtent lim d extent gap :=
  .bind (hasPeak_mul _ _) fun _ => .bind (.const _) fun _ => .bind (hasPeak_mul _ _) fun _ =>
    hasPeak_add _ _

namespace Context

theorem hasPeak_canvasShape (ctx : Context) (t : TensorId) (gap : Pair Nat) :
    HasPeak Fault.overflow fun lim => (ctx.under lim).canvasShape t gap := by
  unfold canvasShape
  simp only [under_cloned, under_axisMaps, under_grid, under_limit]
  refine .bind (.const _) fun shape => ?_
  cases ctx.axisMaps.get? t with
  | none => exact .const _
  | some map =>
    refine .bind (.const _) fun batch => .ite (.const _) (.bind (.const _) fun canvas => ?_)
    refine .foldlM (fun canvas d => ?_) _ _
    refine .bind (.const _) fun extent => .bind ?_ fun extent => .const _
    exact ctx.grid.hasPeak_canvasExtent ..

theorem hasPeak_planPad (ctx : Context) (op : Operation) (p : ConstantPad) :
    HasPeak Fault.overflow fun lim => (ctx.under lim).planPad op p := by
  unfold planPad
  simp only [under_grid, under_limit]
  refine .ite (.const _)
    (.bind (.const _) fun x => .bind (.const (ctx.canvasOperand x)) fun map => ?_)
  cases map with
  | none => exact .const _
  | some map =>
    refine .bind (.const _) fun front => .ite (.const _) (.bind (.const _) fun back => ?_)
    refine .ite (.const _) (.bind (.ofFnM fun d => ?_) fun rules => .const _)
    exact .ite (.const _) (.bind (.const _) fun front => .bind (.const _) fun back =>
      .bind (hasPeak_add _ _) fun total => .const _)

theorem hasPeak_decision (ctx : Context) (op : Operation) :
    HasPeak Fault.overflow fun lim => (ctx.under lim).decision op := by
  unfold decision
  simp only [under_isEnabled]
  refine .ite (.const _) ?_
  cases op.kind with
  | pad p => exact hasPeak_planPad ctx op p
  | conv2d p => exact .const (ctx.planConv op p)
  | pool2d p => exact .const (ctx.planPool op p)
  | activation f | transpose perm => exact .const (ctx.planUnary op)
  | binary kind => exact .const (ctx.planBinary op kind)
  | reshape target => exact .const (ctx.planReshape op)
  | concat axis => exact .const (ctx.planConcat op axis)
  | reduce kind axes keepDims | slice start size | softmax axis => exact .const _

theorem hasPeak_neededGap (ctx : Context) (plan : FusedPlan) (inputs : List TensorId)
    (current : Option (Pair Nat)) : HasPeak (FusionError.fault .overflow) fun lim =>
      (ctx.under lim).neededGap plan inputs current := by
  unfold neededGap
  simp only [under_grid, under_gap, under_limit]
  refine .ofFnM fun d => ?_
  refine .ite (.const _) (.bind (.foldlM (fun need x => ?_) _ _) fun need => ?_)
  · exact .bind (.const _) fun gap =>
      .bind (hasPeak_admissible _ _).toFusion fun least => .const _
  · cases current with
    | none => exact .const _
    | some current =>
      refine .bind (hasPeak_forward _ _).toFusion fun reached => ?_
      exact .ite (hasPeak_backward _ _).toFusion (.const _)

theorem hasPeak_forwardGap (ctx : Context) (plan : FusedPlan) (need : Pair Nat) :
    HasPeak Fault.overflow fun lim => (ctx.under lim).forwardGap plan need := by
  unfold forwardGap
  simp only [under_grid, under_limit]
  refine .ofFnM fun d => ?_
  exact .ite (.const _) (hasPeak_forward _ _)

end Context

/-! ## Peaks of the steps of inference -/

namespace Pass

open Context

section MergeGap

variable {t : TensorId} {gap : Pair Nat}

theorem mergeGap_run {ctx' : Context} {grew : Bool} (h : ctx.mergeGap t gap = .ok (ctx', grew)) :
    (mergeGap t gap).run ctx = (.ok grew, ctx') := by
  have hask : (ask fun ctx => liftM (ctx.mergeGap t gap)).run ctx = (.ok (ctx', grew), ctx) := by
    change (liftM (ctx.mergeGap t gap), ctx) = _
    rw [h]
    rfl
  exact (run_bind_ok hask).trans rfl

theorem mergeGap_run_ok (ctx : Context) {s : Shape}
    (h : ctx.gaps.get? t ≠ some (ctx.mergedGap t gap))
    (hs : ctx.canvasShape t (ctx.mergedGap t gap) = .ok s) :
    (mergeGap t gap).run ctx = (.ok true, ctx.gapping t (ctx.mergedGap t gap) s) :=
  mergeGap_run ((if_neg h).trans (bind_eq_ok.2 ⟨s, hs, rfl⟩))

theorem mergeGap_run_error (ctx : Context) {f : Fault}
    (h : ctx.gaps.get? t ≠ some (ctx.mergedGap t gap))
    (hs : ctx.canvasShape t (ctx.mergedGap t gap) = .error f) :
    (mergeGap t gap).run ctx = (.error (.fault f), ctx) := by
  have hpure : ctx.mergeGap t gap = .error f := by
    refine (if_neg h).trans ?_
    change (ctx.canvasShape t (ctx.mergedGap t gap) >>= fun s => _) = _
    rw [hs]
    rfl
  refine run_bind_error ?_
  change (liftM (ctx.mergeGap t gap), ctx) = _
  rw [hpure]
  rfl

theorem peaks_mergeGap (t : TensorId) (gap : Pair Nat) : Peaks (fun _ => mergeGap t gap) ctx := by
  by_cases h : ctx.gaps.get? t = some (ctx.mergedGap t gap)
  · exact .of_const ctx fun _ => mergeGap_run (if_pos h)
  · obtain ⟨p, hp⟩ := ctx.hasPeak_canvasShape t (ctx.mergedGap t gap)
    have hstop : ∀ lim, ¬ lim.Holds p →
        ((mergeGap t gap).run (ctx.under lim)).1 = .error (.fault .overflow) := fun lim hlim => by
      rw [mergeGap_run_error (ctx.under lim) h ((hp lim).2 hlim)]
    cases hs : (ctx.under .unbounded).canvasShape t (ctx.mergedGap t gap) with
    | error f =>
      have hrun := mergeGap_run_error (ctx.under .unbounded) h hs
      refine ⟨p, by rw [hrun]; rfl, fun lim hlim => ?_, hstop⟩
      rw [hrun, mergeGap_run_error (ctx.under lim) h (((hp lim).1 hlim).trans hs)]
      rfl
    | ok s =>
      have hrun := mergeGap_run_ok (ctx.under .unbounded) h hs
      refine ⟨p, by rw [hrun]; rfl, fun lim hlim => ?_, hstop⟩
      rw [hrun, mergeGap_run_ok (ctx.under lim) h (((hp lim).1 hlim).trans hs)]
      rfl

end MergeGap

theorem peaks_recordOnce {κ ν : Type} [DecidableEq κ] {table : PassTable} {toKey : κ → PassKey}
    {get : Context → Ledger κ ν} {put : Context → Ledger κ ν → Context} {k : κ} {v : ν}
    (hget : ∀ lim, get (ctx.under lim) = get ctx)
    (hput : ∀ lim l, put (ctx.under lim) l = (put ctx l).under lim) :
    Peaks (fun _ => recordOnce table toKey get put k v) ctx := by
  refine .get ?_
  simp only [hget]
  have hset : ∀ ctx', Peaks (fun lim => (MonadStateOf.set
      (put (ctx.under lim) ((get ctx).record k v)) : Pass Unit)) ctx' := fun ctx' =>
    .set fun lim => hput lim _
  exact .ite (.bind (.throw _) fun _ ctx' => hset ctx') (hset ctx)

theorem peaks_countBackwardPass : Peaks (fun _ => countBackwardPass) ctx := by
  refine .bind (.modify fun _ => rfl) fun _ ctx' => .get ?_
  simp only [under_maxBackwardPasses, under_counters]
  exact .ite (.throw _) (.pure _)

theorem peaks_recordAxisMap (t : TensorId) (m : Option AxisMap) :
    Peaks (fun _ => recordAxisMap t m) ctx := by
  cases m with
  | none => exact .pure _
  | some map =>
    unfold recordAxisMap
    exact peaks_recordOnce (fun _ => rfl) fun _ _ => rfl

theorem peaks_recordPlacement (t : TensorId) (p : Placement) :
    Peaks (fun _ => recordPlacement t p) ctx := by
  unfold recordPlacement
  exact peaks_recordOnce (fun _ => rfl) fun _ _ => rfl

theorem peaks_recordPlan (o : OpId) (p : Plan) : Peaks (fun _ => recordPlan o p) ctx := by
  unfold recordPlan
  exact peaks_recordOnce (fun _ => rfl) fun _ _ => rfl

theorem peaks_place (o : OpId) (op : Operation) : Peaks (fun _ => place o op) ctx := by
  refine .bind (.ask (.const (liftM (ctx.outputAxisMap op)))) fun map ctx₁ =>
    .bind (peaks_recordAxisMap _ _) fun _ ctx₂ => ?_
  refine .bind (.bind (.ask (ctx₂.hasPeak_decision op).toFusion) fun dec ctx₃ => ?_)
    fun plan ctx₃ => ?_
  · cases dec with
    | batched | fused plan => exact .pure _
    | unbalanced reason => exact .bind (.modify fun _ => rfl) fun _ _ => .pure _
  · exact .bind (peaks_recordPlacement _ _) fun _ _ => peaks_recordPlan _ _

theorem peaks_placeSource (t : TensorId) : Peaks (fun _ => placeSource t) ctx := by
  refine .get ?_
  simp only [under_cloned, under_axes]
  refine .bind (.check (.const _)) fun shape ctx₁ =>
    .bind (peaks_recordAxisMap _ _) fun _ ctx₂ => ?_
  exact .bind (peaks_recordPlacement _ _) fun _ ctx₃ =>
    .bind (peaks_mergeGap _ _) fun _ _ => .pure _

theorem peaks_raise (depth : Nat) : ∀ (t : TensorId) (gap : Pair Nat) (ctx : Context),
    Peaks (fun _ => raise depth t gap) ctx := by
  induction depth with
  | zero => exact fun t gap ctx => .throw _
  | succ depth ih =>
    intro t gap ctx
    unfold raise
    refine .bind (peaks_mergeGap t gap) fun grew ctx₁ => .ite (.pure _) (.get ?_)
    simp only [under_cloned, under_gap, under_placements,
      under_plan, under_limit]
    refine .bind (.check (.const _)) fun merged ctx₂ => .bind (.check (.const _)) fun place ctx₃ =>
      ?_
    cases place with
    | batched => exact .pure _
    | canvas =>
      refine .bind (.check (.const _)) fun producer ctx₄ => .bind (.check (.const _))
        fun plan ctx₅ => ?_
      cases plan with
      | batched => exact .pure _
      | fused plan =>
        refine .bind (.check (HasPeak.ofFnM fun d => hasPeak_backward _ _).toFusion)
          fun want ctx₆ => ?_
        refine .bind (.check (.const _)) fun op ctx₇ => .bind (.check (.const _)) fun inputs ctx₈ =>
          ?_
        exact .bind (.mapM (fun x ctx => ih x want ctx) _ _) fun changed _ => .pure _

theorem peaks_raiseInputs (depth : Nat) (need : Pair Nat) (xs : List TensorId) :
    ∀ (raised : Bool) (ctx : Context), Peaks (fun _ => raiseInputs depth need xs raised) ctx := by
  induction xs with
  | nil => exact fun _ _ => .pure _
  | cons x rest ih =>
    intro raised ctx
    unfold raiseInputs
    refine .bind (.ask (.const (ctx.gap x))) fun gap ctx₁ => .ite ?_ (ih raised ctx₁)
    have hraise : ∀ ctx, Peaks (fun _ => do
        let changed ← raise depth x need
        let later ← raiseInputs depth need rest true
        pure (⟨changed ++ later.changed, true⟩ : Visit)) ctx := fun ctx =>
      .bind (peaks_raise depth x need ctx) fun _ ctx' => .bind (ih true ctx') fun _ _ => .pure _
    exact .ite (.bind peaks_countBackwardPass fun _ ctx₂ => hraise ctx₂) (hraise ctx₁)

theorem peaks_reconcile (op : Operation) (plan : FusedPlan) :
    Peaks (fun _ => reconcile op plan) ctx := by
  refine .bind (.check (.const _)) fun inputs ctx₁ => .get ?_
  simp only [under_cloned, under_gaps]
  refine .bind (.check (ctx₁.hasPeak_neededGap plan inputs _)) fun need ctx₂ => ?_
  refine .bind (peaks_raiseInputs _ need inputs false ctx₂) fun visit ctx₃ => ?_
  exact .bind (.ask (ctx₃.hasPeak_forwardGap plan need).toFusion) fun out _ => .pure _

theorem peaks_visitOp (o : OpId) : Peaks (fun _ => visitOp o) ctx := by
  refine .bind (.modify fun _ => rfl) fun _ ctx₁ => ?_
  refine .bind (.ask (.const (liftM (ctx₁.cloned.op o)))) fun op ctx₂ => .get ?_
  simp only [under_plans]
  refine .first (peaks_place o op) fun _ ctx₃ => ?_
  refine .bind (.ask (.const (ctx₃.plan o))) fun plan ctx₄ => ?_
  cases plan with
  | batched =>
    exact .bind (.pure _) fun _ _ => .bind (peaks_mergeGap _ _) fun _ _ => .ite (.pure _) (.pure _)
  | fused plan =>
    exact .bind (peaks_reconcile op plan) fun _ _ => .bind (peaks_mergeGap _ _) fun _ _ =>
      .ite (.pure _) (.pure _)

theorem peaks_sweep (steps : Nat) : ∀ (queue : List OpId) (ctx : Context),
    Peaks (fun _ => sweep steps queue) ctx := by
  induction steps with
  | zero =>
    intro queue ctx
    cases queue with
    | nil | cons o queue => exact .pure _
  | succ steps ih =>
    intro queue ctx
    cases queue with
    | nil => exact .pure _
    | cons o queue =>
      unfold sweep
      refine .bind (.ask (.const (liftM (ctx.isReady o)))) fun ready ctx₁ => .ite ?_ (ih queue ctx₁)
      refine .bind (peaks_visitOp o) fun visit ctx₂ => .get ?_
      simp only [under_cloned]
      exact .ite (.pure _) (ih _ ctx₂)

theorem peaks_settle (passes : Nat) : ∀ (queue : List OpId) (ctx : Context),
    Peaks (fun _ => settle passes queue) ctx := by
  induction passes with
  | zero => exact fun _ _ => .throw _
  | succ passes ih =>
    intro queue ctx
    refine .get ?_
    refine .bind (peaks_sweep (ctx.sweepBound queue) queue ctx) fun r ctx₁ => ?_
    cases r with
    | settled => exact .pure _
    | raised queue => exact ih queue ctx₁
    | unfinished => exact .throw _

theorem peaks_inferGaps (ctx : Context) : Peaks (fun _ => inferGaps) ctx := by
  refine .get ?_
  simp only [under_cloned]
  refine .bind (.forM (fun t _ => peaks_placeSource t) _ ctx) fun _ ctx₁ => .get ?_
  simp only [under_maxBackwardPasses, under_counters]
  exact peaks_settle _ _ ctx₁

end Pass

/-! ## The pass -/

open Context

theorem fuse_eq_error {lim : Limit} {options : Options} {source : Graph} {e : FusionError}
    (hinit : initial lim source options = .ok ctx₀) (hclone : cloneSource.run ctx₀ = (.ok (), ctx))
    (hinfer : (inferGaps.run ctx).1 = .error e) : fuse lim options source = .error e := by
  have hphases : (Phase.all.forM Phase.run).run ctx₀ = (.error e, (inferGaps.run ctx).2) := by
    change (cloneSource >>= fun _ => inferGaps >>= fun _ => _).run ctx₀ = _
    rw [run_bind_ok hclone]
    exact run_bind_error (Prod.ext hinfer rfl)
  unfold fuse
  rw [hinit, bind_ok, Pass.fuse, run_bind_error hphases]

/-- The error of a computation that fails. -/
def failure? {ε α : Type} : Except ε α → Option ε
  | .error e => some e
  | .ok _ => none

/-- What planning says about an operation: its inputs, its output and its plan. -/
def Context.planned? (ctx : Context) (o : OpId) : Option (List TensorId × TensorId × Plan) := do
  let op ← ctx.cloned.ops.get? o
  let plan ← ctx.plans.get? o
  pure (op.inputs, op.output, plan)

theorem Context.planned?_eq_some {ctx : Context} {o : OpId} {inputs : List TensorId} {t : TensorId}
    {plan : Plan} (h : ctx.planned? o = some (inputs, t, plan)) :
    ∃ op, ctx.cloned.ops.get? o = some op ∧ op.inputs = inputs ∧ op.output = t ∧
      ctx.plans.get? o = some plan := by
  grind [planned?, Option.bind_eq_some_iff]

/-- Poolings of strides 1024 and one over three cells give one cell each. Equal gaps after them
would make `(3 + g) / 1024` and `3 + g` the same. -/
theorem unsolvable_of_uneven
    (htiled : planned.grid.isTiled .second = true)
    (h₁ : planned.planned? ⟨0⟩ = some ([⟨0⟩], ⟨1⟩,
      .fused ⟨⟨.identity, .window ⟨2, 1024, 1, ⟨0, 0⟩, 3, 1⟩⟩, [0]⟩))
    (h₂ : planned.planned? ⟨1⟩ = some ([⟨0⟩], ⟨2⟩,
      .fused ⟨⟨.identity, .window ⟨3, 1, 1, ⟨0, 0⟩, 3, 1⟩⟩, [0]⟩))
    (h₃ : planned.planned? ⟨2⟩ = some ([⟨1⟩, ⟨2⟩], ⟨3⟩, .fused (.pointwise [0, 1])))
    (σ : TensorId → Pair Nat) : ¬ planned.Solves σ := by
  intro h
  obtain ⟨op₁, hop₁, hin₁, hout₁, hplan₁⟩ := planned?_eq_some h₁
  obtain ⟨op₂, hop₂, hin₂, hout₂, hplan₂⟩ := planned?_eq_some h₂
  obtain ⟨op₃, hop₃, hin₃, -, hplan₃⟩ := planned?_eq_some h₃
  have hhalf := h.forward .second hop₁ hplan₁ htiled ⟨0⟩ (by simp [gappedInputs, hin₁])
  have hwhole := h.forward .second hop₂ hplan₂ htiled ⟨0⟩ (by simp [gappedInputs, hin₂])
  have hequal := h.equal .second hop₃ hplan₃ htiled ⟨1⟩
    (by simp [gappedInputs, hin₃, FusedPlan.pointwise]) ⟨2⟩
    (by simp [gappedInputs, hin₃, FusedPlan.pointwise])
  rw [hout₁] at hhalf
  rw [hout₂] at hwhole
  have e₁ : (3 + (σ ⟨0⟩).get .second) / 1024 - 1 = (σ ⟨1⟩).get .second := Except.ok.inj hhalf
  have e₂ : (3 + (σ ⟨0⟩).get .second) / 1 - 1 = (σ ⟨2⟩).get .second := Except.ok.inj hwhole
  omega

/-- **Divergence is reported exactly while sizes fit.** Where the gap equations have no solution,
inference in plain arithmetic diverges. There is a largest size that it forms: at limits that hold
this size inference diverges, and so does the whole pass; at all others they overflow. -/
theorem fuse_unsolvable {lim : Limit} {calls : List Graph.Call} {options : Options}
    {ctx₀ ctx planned : Context}
    (hinit : Context.initial lim (Graph.build lim calls) options = .ok ctx₀)
    (hclone : Pass.cloneSource.run ctx₀ = (.ok (), ctx))
    (hplan : Pass.planAll.run (ctx.under .unbounded) = (.ok (), planned))
    (hno : ∀ σ, ¬ planned.Solves σ) :
    ∃ peak,
      (∀ lim' : Limit,
        (lim'.Holds peak → (Pass.inferGaps.run (ctx.under lim')).1 =
          .error (.diverged options.maxBackwardPasses)) ∧
        (¬ lim'.Holds peak → (Pass.inferGaps.run (ctx.under lim')).1 =
          .error (.fault .overflow))) ∧
      (lim.Holds peak → fuse lim options (Graph.build lim calls) =
        .error (.diverged options.maxBackwardPasses)) ∧
      (¬ lim.Holds peak → fuse lim options (Graph.build lim calls) =
        .error (.fault .overflow)) := by
  obtain ⟨hf, h0, hlimit, hmax⟩ := fresh_of_cloning (Graph.wellFormed_build lim calls) hinit hclone
  obtain ⟨planned', hp⟩ := exists_planned hf
  cases hplan.symm.trans hp.run
  -- Success would leave a solution behind.
  have hplain : (Pass.inferGaps.run (ctx.under .unbounded)).1 =
      .error (.diverged options.maxBackwardPasses) := by
    rcases (after_inferGaps hf h0 hp).run_cases with ⟨_, ctx', _, hend⟩ | ⟨e, _, hrun, he, -⟩
    · exact absurd (hend.isLeastSolution hp.sound.consistent hp.sound.base).1 (hno _)
    · rw [hrun, he, hp.frame.maxBackwardPasses, ← hmax]
      rfl
  obtain ⟨peak, hpeak⟩ := Pass.peaks_inferGaps ctx
  have hall : ∀ lim' : Limit,
      (lim'.Holds peak → (Pass.inferGaps.run (ctx.under lim')).1 =
        .error (.diverged options.maxBackwardPasses)) ∧
      (¬ lim'.Holds peak → (Pass.inferGaps.run (ctx.under lim')).1 =
        .error (.fault .overflow)) := by
    refine fun lim' => ⟨fun h => ?_, fun h => hpeak.stops lim' h⟩
    rw [hpeak.holds lim' h]
    exact hplain
  have hself : ctx.under lim = ctx := under_self hlimit
  refine ⟨peak, hall, fun h => fuse_eq_error hinit hclone ?_,
    fun h => fuse_eq_error hinit hclone ?_⟩
  · rw [← hself]
    exact (hall lim).1 h
  · rw [← hself]
    exact (hall lim).2 h

/-- Two poolings with different strides: the gaps have no solution, and the pass stops with an
overflow of machine words instead of reporting divergence. -/
theorem fuse_unsolvable_pools : ∃ ctx₀ ctx planned,
    Context.initial .word64 (Graph.build .word64 (unevenPools 3 ⟨1024, 1⟩)) .standard = .ok ctx₀ ∧
    Pass.cloneSource.run ctx₀ = (.ok (), ctx) ∧
    Pass.planAll.run (ctx.under .unbounded) = (.ok (), planned) ∧
    (∀ σ, ¬ planned.Solves σ) ∧
    fuse .word64 .standard (Graph.build .word64 (unevenPools 3 ⟨1024, 1⟩)) =
      .error (.fault .overflow) := by
  obtain ⟨ctx₀, ctx, hinit, hclone, hcloned⟩ := exists_cloned .word64
    (Graph.build .word64 (unevenPools 3 ⟨1024, 1⟩)) .standard (by decide +kernel)
  have hplans : ((cloned? .word64 (Graph.build .word64 (unevenPools 3 ⟨1024, 1⟩)) .standard).map
      fun c => (Pass.planAll.run (c.under .unbounded)).1.toBool) = some true := by decide +kernel
  have hrules : ((cloned? .word64 (Graph.build .word64 (unevenPools 3 ⟨1024, 1⟩)) .standard).map
      fun c => [0, 1, 2].map fun o => (Pass.planAll.run (c.under .unbounded)).2.planned? ⟨o⟩) =
      some [some ([⟨0⟩], ⟨1⟩, .fused ⟨⟨.identity, .window ⟨2, 1024, 1, ⟨0, 0⟩, 3, 1⟩⟩, [0]⟩),
        some ([⟨0⟩], ⟨2⟩, .fused ⟨⟨.identity, .window ⟨3, 1, 1, ⟨0, 0⟩, 3, 1⟩⟩, [0]⟩),
        some ([⟨1⟩, ⟨2⟩], ⟨3⟩, .fused (.pointwise [0, 1]))] := by decide +kernel
  have htiled : ((cloned? .word64 (Graph.build .word64 (unevenPools 3 ⟨1024, 1⟩)) .standard).map
      fun c => (Pass.planAll.run (c.under .unbounded)).2.grid.isTiled .second) = some true := by
    decide +kernel
  have hstops : ((cloned? .word64 (Graph.build .word64 (unevenPools 3 ⟨1024, 1⟩)) .standard).map
      fun c => failure? (Pass.inferGaps.run c).1) = some (some (.fault .overflow)) := by
    decide +kernel
  rw [hcloned] at hplans hrules htiled hstops
  rcases hplan : Pass.planAll.run (ctx.under .unbounded) with ⟨_ | _, planned⟩
  · simp [hplan, Except.toBool] at hplans
  simp only [hplan, Option.map_some, Option.some.injEq, List.map_cons, List.map_nil,
    List.cons.injEq, and_true] at hrules htiled
  obtain ⟨h₁, h₂, h₃⟩ := hrules
  have hno := unsolvable_of_uneven htiled h₁ h₂ h₃
  refine ⟨ctx₀, ctx, planned, hinit, hclone, hplan, hno, ?_⟩
  obtain ⟨peak, hall, -, hoverflows⟩ := fuse_unsolvable hinit hclone hplan hno
  refine hoverflows fun hpeak => ?_
  have hdiverged := (hall .word64).1 hpeak
  rw [under_self (fresh_of_cloning (Graph.wellFormed_build ..) hinit hclone).2.2.1] at hdiverged
  simp [hdiverged, failure?] at hstops

end CanvasFusion
