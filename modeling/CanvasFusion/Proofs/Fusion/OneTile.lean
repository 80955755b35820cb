import CanvasFusion.Proofs.Fusion.Failures

/-!
# One tile

A grid of one tile has no seams. Gap inference finds nothing to put on a canvas, so it keeps the
state `Flat`: every tensor is batched, every gap is zero and no backward pass is made. All sizes it
computes are extents of tensors, so it does not overflow either (`after_inferGaps_flat`).
-/

namespace CanvasFusion

open Pass Context Size

/-! ## Positions -/

/-- The computation can only fail at a position that is not there. -/
def Positional {α : Type} (x : Except Fault α) : Prop := ∀ f, x = .error f → f = .outOfRange

namespace Positional

variable {α β : Type}

theorem ok (a : α) : Positional (.ok a) := fun _ h => by cases h

theorem bind {x : Except Fault α} {f : α → Except Fault β} (hx : Positional x)
    (hf : ∀ a, x = .ok a → Positional (f a)) : Positional (x >>= f) := by
  intro e he
  rcases bind_eq_error.1 he with he | ⟨a, ha, he⟩
  · exact hx e he
  · exact hf a ha e he

theorem ite {c : Prop} [Decidable c] {x y : Except Fault α} (hx : c → Positional x)
    (hy : ¬ c → Positional y) : Positional (if c then x else y) := by
  grind

theorem entry (xs : List α) (i : Nat) : Positional (entry xs i) := by
  intro f hf
  unfold Size.entry at hf
  grind

theorem replace (xs : List α) (i : Nat) (x : α) : Positional (replace xs i x) := by
  intro f hf
  unfold Size.replace at hf
  grind

theorem get {name : String} (table : Table name α) (i : Handle name) :
    Positional (table.get i) := by
  intro f hf
  unfold Table.get at hf
  grind

theorem shape (g : Graph) (t : TensorId) : Positional (g.shape t) := by
  intro f hf
  unfold Graph.shape at hf
  cases hx : g.tensors.get t with
  | ok x => rw [hx] at hf; cases hf
  | error f' =>
    rw [hx] at hf
    cases hf
    exact get _ _ f hx

theorem foldlM {f : β → α → Except Fault β} (xs : List α) (hf : ∀ b, ∀ a ∈ xs, Positional (f b a))
    (b : β) : Positional (xs.foldlM f b) := by
  induction xs generalizing b with
  | nil => exact ok b
  | cons a xs ih => grind [bind]

end Positional

/-- The error is no overflow and no divergence. -/
def FusionError.isPlain : FusionError → Bool
  | .fault .overflow => false
  | .diverged _ => false
  | _ => true

theorem Positional.isPlain {α : Type} {x : Except Fault α} (h : Positional x) {e : FusionError}
    (he : (liftM x : Except FusionError α) = .error e) : e.isPlain = true := by
  cases x with
  | ok a => cases he
  | error f =>
    cases he
    rw [h f rfl]
    rfl

theorem Grid.canvasExtent_one {lim : Limit} {e : Nat} (d : Dim) (h : lim.Holds e) :
    Grid.canvasExtent lim ⟨1, .both 1⟩ d e 0 = .ok e := by
  have hcheck : ∀ n, lim.Holds n → lim.check n = .ok n := fun n hn => if_pos hn
  simp [Grid.canvasExtent, Limit.mul, Limit.add, hcheck e h, hcheck 0 lim.holds_zero, sub,
    bind_ok]

namespace Context

variable {ctx : Context} {t : TensorId} {o : OpId} {op : Operation}

/-- Nothing is on a canvas, and nothing has a gap. -/
structure Flat (ctx : Context) : Prop where
  grid : ctx.grid = ⟨1, .both 1⟩
  extents : ∀ t, ∀ e ∈ ctx.cloned.shapeOf t, ctx.limit.Holds e
  gap : ∀ {t v}, ctx.gaps.get? t = some v → v = .both 0
  placement : ∀ {t p}, ctx.placements.get? t = some p → p = .batched
  plan : ∀ {o p}, ctx.plans.get? o = some p → p = .batched
  passes : ctx.counters.backwardPasses = 0

/-- A step keeps a flat state flat. It neither overflows nor diverges. -/
def KeepsFlat {α : Type} (m : Pass α) (Q : α → Prop) : Prop :=
  ∀ {ctx}, ctx.Flat → After m ctx (fun a ctx' => ctx'.Flat ∧ Q a) fun e _ => e.isPlain = true

theorem Flat.isCanvas (h : ctx.Flat) (t : TensorId) : ctx.isCanvas t = false := by
  grind [isCanvas, placement]

theorem Flat.decision (h : ctx.Flat) (op : Operation) : ctx.decision op = .ok .batched := by
  unfold Context.decision isEnabled
  rw [h.grid]
  rfl

/-- The canvas of one tile is as large as the tile. -/
theorem Flat.positional_canvasShape (h : ctx.Flat) (t : TensorId) :
    Positional (ctx.canvasShape t (.both 0)) := by
  unfold canvasShape
  refine .bind (.shape _ _) fun shape hshape => ?_
  have hholds : ∀ e ∈ shape, ctx.limit.Holds e := by
    obtain ⟨x, hx, rfl⟩ := map_eq_ok.1 hshape
    exact Graph.shapeOf_eq (Table.get_eq_ok.1 hx) ▸ h.extents t
  cases ctx.axisMaps.get? t with
  | none => exact .ok _
  | some map =>
    refine .bind (.entry _ _) fun batch _ => .ite (fun _ => .ok _) fun _ => ?_
    refine .bind (.replace _ _ _) fun canvas _ => .foldlM _ (fun canvas d _ => ?_) _
    refine .bind (.entry _ _) fun e he => ?_
    rw [h.grid, Pair.both_get,
      Grid.canvasExtent_one d (hholds e (List.mem_of_getElem? (entry_eq_ok.1 he))), bind_ok]
    exact .replace _ _ _

theorem positional_outputAxisMap (ctx : Context) (op : Operation) :
    Positional (ctx.outputAxisMap op) := by
  unfold outputAxisMap
  refine .bind (.shape _ _) fun _ _ => .ite (fun _ => .ok _) fun _ => .bind ?_ fun _ _ => .ok _
  unfold inheritedAxisMap
  refine .bind (.entry _ _) fun x _ => ?_
  split
  · exact .ok _
  · exact .bind (.shape _ _) fun _ _ => .bind (.shape _ _) fun _ _ => .ok _
  · split
    · exact .ok _
    · exact .ok _

/-! ## Steps -/

theorem keepsFlat_mergeGap (t : TensorId) :
    KeepsFlat (Pass.mergeGap t (.both 0)) fun _ => True := by
  intro ctx h
  have hmerge : ∀ {r}, ctx.mergeGap t (.both 0) = r → (∀ p, r = .ok p → p.1.Flat) ∧
      Positional r := by
    intro r hr
    unfold mergeGap at hr
    cases hgap : ctx.gaps.get? t with
    | some v =>
      rw [hgap, h.gap hgap] at hr
      subst hr
      exact ⟨fun p hp => by cases hp; exact h, .ok _⟩
    | none =>
      simp only [hgap, reduceCtorEq, if_false] at hr
      have hflat : ({ ctx with gaps := ctx.gaps.record t (.both 0) } : Context).Flat := by
        refine { h with gap := fun {u v} hv => ?_ }
        rcases Ledger.cases_of_get?_record hv with hv | ⟨-, rfl⟩
        · exact h.gap hv
        · rfl
      subst hr
      refine ⟨fun p hp => ?_, .bind (hflat.positional_canvasShape t) fun _ _ => .ok _⟩
      obtain ⟨s, -, hp⟩ := bind_eq_ok.1 hp
      cases hp
      exact { hflat with }
  refine .bind (.ask (fun p hp => ?_) fun e he => (hmerge rfl).2.isPlain he)
  exact .bind (.set (.pure ⟨(hmerge rfl).1 p (lift_fault_eq_ok.1 hp), trivial⟩))

theorem keepsFlat_recordAxisMap (t : TensorId) (map : Option AxisMap) :
    KeepsFlat (Pass.recordAxisMap t map) fun _ => True := by
  intro ctx h
  cases map with
  | none => exact .pure ⟨h, trivial⟩
  | some map =>
    unfold recordAxisMap
    exact .recordOnce (fun _ => ⟨{ h with }, trivial⟩) fun _ _ => rfl

theorem keepsFlat_recordPlacement (t : TensorId) :
    KeepsFlat (recordPlacement t .batched) fun _ => True := by
  intro ctx h
  refine .recordOnce (fun _ => ⟨{ h with placement := fun hp => ?_ }, trivial⟩) fun _ _ => rfl
  rcases Ledger.cases_of_get?_record hp with hp | ⟨-, rfl⟩
  · exact h.placement hp
  · rfl

theorem keepsFlat_recordPlan (o : OpId) : KeepsFlat (recordPlan o .batched) fun _ => True := by
  intro ctx h
  refine .recordOnce (fun _ => ⟨{ h with plan := fun hp => ?_ }, trivial⟩) fun _ _ => rfl
  rcases Ledger.cases_of_get?_record hp with hp | ⟨-, rfl⟩
  · exact h.plan hp
  · rfl

theorem keepsFlat_placeSource (t : TensorId) : KeepsFlat (placeSource t) fun _ => True := by
  intro ctx h
  refine .bind (.get ?_)
  refine .bind (.check (fun shape _ => ?_) fun e he => (Positional.shape _ _).isPlain he)
  refine .then_ (keepsFlat_recordAxisMap _ _ h) fun _ ctx₁ h₁ => ?_
  refine .then_ (keepsFlat_recordPlacement t h₁.1) fun _ ctx₂ h₂ => ?_
  exact .then_ (keepsFlat_mergeGap t h₂.1) fun _ _ h₃ => .pure h₃

/-- Every operation is planned on batched data. -/
theorem keepsFlat_place (o : OpId) (op : Operation) :
    KeepsFlat (Pass.place o op) fun _ => True := by
  intro ctx h
  refine .bind (.ask (fun map _ => ?_) fun e he =>
    (positional_outputAxisMap ctx op).isPlain he)
  refine .then_ (keepsFlat_recordAxisMap _ _ h) fun _ ctx₁ h₁ => ?_
  have hplan : After (Pass.plan o op) ctx₁ (fun p ctx' => p = .batched ∧ ctx'.Flat)
      fun e _ => e.isPlain = true :=
    After.bind (.ask_fault (h₁.1.decision op) (.pure ⟨rfl, h₁.1⟩))
  refine .then_ hplan ?_
  rintro _ ctx₂ ⟨rfl, h₂⟩
  exact .then_ (keepsFlat_recordPlacement op.output h₂) fun _ _ h₃ => keepsFlat_recordPlan o h₃.1

/-- An operation with a plan raises nothing: on batched data there is no gap to reconcile. -/
theorem keepsFlat_serve (o : OpId) (op : Operation) (isFirst : Bool) :
    KeepsFlat (serve o op isFirst) fun visit => visit.raised = false := by
  intro ctx h
  refine .bind (.ask (fun plan hplan => ?_) fun e he => ?_)
  · cases h.plan (entry_ok_iff.1 hplan)
    refine .bind (.pure ?_)
    refine .then_ (keepsFlat_mergeGap op.output h) fun changed ctx₁ h₁ => ?_
    exact .ite (fun _ => .pure ⟨h₁.1, rfl⟩) fun _ => .pure ⟨h₁.1, rfl⟩
  · unfold plan entry at he
    split at he
    · cases he
    · cases he
      rfl

/-- A visit raises nothing. -/
theorem keepsFlat_visitOp (o : OpId) :
    KeepsFlat (Pass.visitOp o) fun visit => visit.raised = false := by
  intro ctx h
  refine .bind (.modify ?_)
  have h₁ : ({ ctx with counters :=
      { ctx.counters with forwardVisits := ctx.counters.forwardVisits + 1 } } : Context).Flat :=
    { h with }
  refine .bind (.ask (fun op _ => ?_) fun e he => ?_)
  · refine .bind (.get ?_)
    refine .ite (fun _ => ?_) fun _ => keepsFlat_serve o op _ h₁
    exact .then_ (keepsFlat_place o op h₁) fun _ ctx₂ h₂ => keepsFlat_serve o op _ h₂.1
  · unfold Graph.op at he
    split at he
    · cases he
    · cases he
      rfl

theorem keepsFlat_sweep (steps : Nat) :
    ∀ queue, KeepsFlat (sweep steps queue) fun ends => ∀ q, ends ≠ .raised q := by
  induction steps with
  | zero =>
    intro queue ctx h
    cases queue with
    | nil | cons o queue => exact .pure ⟨h, nofun⟩
  | succ steps ih =>
    intro queue ctx h
    cases queue with
    | nil => exact .pure ⟨h, nofun⟩
    | cons o queue =>
      unfold sweep
      refine .bind (.ask (fun ready _ => ?_) fun e he =>
        (Positional.bind (.get _ _) fun _ _ => .ok _).isPlain he)
      refine .ite (fun _ => ?_) fun _ => ih queue h
      refine .then_ (keepsFlat_visitOp o h) fun visit ctx₁ h₁ => ?_
      refine .bind (.get (.ite (fun hraised => ?_) fun _ => ih _ h₁.1))
      grind

theorem keepsFlat_settle (passes : Nat) (queue : List OpId) :
    KeepsFlat (settle passes queue) fun _ => True := by
  intro ctx h
  cases passes with
  | zero => exact .throw rfl
  | succ passes =>
    refine .bind (.get ?_)
    refine .then_ (keepsFlat_sweep _ queue h) fun ends ctx₁ h₁ => ?_
    cases ends with
    | settled => exact .pure ⟨h₁.1, trivial⟩
    | raised q => exact absurd rfl (h₁.2 q)
    | unfinished => exact .throw rfl

theorem keepsFlat_inferGaps : KeepsFlat inferGaps fun _ => True := by
  intro ctx h
  refine .bind (.get ?_)
  refine .then_ (.forM (fun _ ctx' => ctx'.Flat) h fun _ t _ ctx' _ h' =>
    (keepsFlat_placeSource t h').mono fun _ _ h'' => h''.1) fun _ ctx₁ h₁ => ?_
  exact .bind (.get (keepsFlat_settle _ _ h₁))

/-- **Gap inference with one tile** succeeds and leaves the state flat. -/
theorem after_inferGaps_flat (hf : (ctx.under .unbounded).Fresh) (h : ctx.Flat) :
    After inferGaps ctx (fun _ ctx' => ctx'.Flat) fun _ _ => False :=
  ((after_inferGaps_at hf h.passes).and (keepsFlat_inferGaps h)).imp (fun _ _ h => h.2.1)
    fun e _ he => by
      rcases he.1 with heq | ⟨heq, -⟩
      · rw [heq] at he
        cases he.2
      · rw [heq] at he
        cases he.2

end Context

end CanvasFusion
