import CanvasFusion.Proofs.Outcome

/-!
# Peaks: where a limit is felt

A computation on sizes is the same at every limit until a number it computes is too large. So it has
a *peak*, the largest number it computes: at limits that hold the peak it gives what plain
arithmetic gives, and at all others it stops with an overflow. `HasPeak` is closed under everything
the computations are built of, and in particular what succeeds at some limit is right in plain
arithmetic (`HasPeak.ok_unbounded`).

**Theorem (inferShape_unbounded).** A shape inferred at any limit is the one plain arithmetic gives.
-/

namespace CanvasFusion

/-- Whether a limit holds a number. -/
def Limit.Holds (lim : Limit) (n : Nat) : Prop := Limit.within lim.size n = true

theorem Limit.holds_zero (lim : Limit) : lim.Holds 0 := by
  unfold Limit.Holds
  cases lim.size <;> simp

theorem Limit.holds_unbounded (n : Nat) : Limit.unbounded.Holds n := rfl

theorem Limit.holds_max {lim : Limit} {m n : Nat} :
    lim.Holds (max m n) ↔ lim.Holds m ∧ lim.Holds n := by
  unfold Limit.Holds
  cases lim.size <;> simp

/-- A size within a limit leaves room for the smaller ones. -/
theorem Limit.Holds.of_le {lim : Limit} {m n : Nat} (h : lim.Holds n) (hle : m ≤ n) :
    lim.Holds m := by
  rw [← max_eq_right hle, holds_max] at h
  exact h.1

section Peak

variable {ε α β : Type} {stop : ε}

/-- At limits that hold `p` the computation is the one in plain arithmetic, and at all others it
stops with `stop`. -/
def Peak (stop : ε) (x : Limit → Except ε α) (p : Nat) : Prop :=
  ∀ lim, (lim.Holds p → x lim = x .unbounded) ∧ (¬ lim.Holds p → x lim = .error stop)

/-- The computation has a peak. -/
def HasPeak (stop : ε) (x : Limit → Except ε α) : Prop := ∃ p, Peak stop x p

namespace HasPeak

variable {x y : Limit → Except ε α} {f : Limit → α → Except ε β}

theorem const (x : Except ε α) : HasPeak stop fun _ => x :=
  ⟨0, fun lim => ⟨fun _ => rfl, fun h => absurd lim.holds_zero h⟩⟩

theorem bind (hx : HasPeak stop x) (hf : ∀ a, HasPeak stop fun lim => f lim a) :
    HasPeak stop fun lim => x lim >>= f lim := by
  obtain ⟨p, hp⟩ := hx
  match hres : x .unbounded with
  | .error e =>
    refine ⟨p, fun lim => ⟨fun h => ?_, fun h => ?_⟩⟩
    · simp only [(hp lim).1 h, hres]
      rfl
    · simp only [(hp lim).2 h]
      rfl
  | .ok a =>
    obtain ⟨q, hq⟩ := hf a
    refine ⟨max p q, fun lim => ⟨fun h => ?_, fun h => ?_⟩⟩
    · obtain ⟨h₁, h₂⟩ := Limit.holds_max.1 h
      simp only [(hp lim).1 h₁, hres, bind_ok]
      exact (hq lim).1 h₂
    · by_cases h₁ : lim.Holds p
      · have h₂ : ¬ lim.Holds q := fun h₂ => h (Limit.holds_max.2 ⟨h₁, h₂⟩)
        simp only [(hp lim).1 h₁, hres, bind_ok]
        exact (hq lim).2 h₂
      · simp only [(hp lim).2 h₁]
        rfl

theorem ite {c : Prop} {i : Limit → Decidable c} (hx : HasPeak stop x)
    (hy : HasPeak stop y) : HasPeak stop fun lim => @ite _ c (i lim) (x lim) (y lim) := by
  by_cases h : c
  · simpa only [if_pos h] using hx
  · simpa only [if_neg h] using hy

theorem foldlM {f : Limit → β → α → Except ε β} (hf : ∀ b a, HasPeak stop fun lim => f lim b a)
    (xs : List α) (b : β) : HasPeak stop fun lim => xs.foldlM (f lim) b := by
  induction xs generalizing b with
  | nil => exact const _
  | cons a xs ih => exact bind (hf b a) fun b => ih b

theorem mapM (hf : ∀ a, HasPeak stop fun lim => f lim a)
    (xs : List α) : HasPeak stop fun lim => xs.mapM (f lim) := by
  induction xs with
  | nil => exact const _
  | cons a xs ih =>
    simp only [List.mapM_cons]
    exact bind (hf a) fun b => bind ih fun bs => const _

theorem forM {f : Limit → α → Except ε PUnit} (hf : ∀ a, HasPeak stop fun lim => f lim a)
    (xs : List α) : HasPeak stop fun lim => xs.forM (f lim) := by
  induction xs with
  | nil => exact const _
  | cons a xs ih => exact bind (hf a) fun _ => ih

theorem ofFnM {f : Limit → Dim → Except ε α} (hf : ∀ d, HasPeak stop fun lim => f lim d) :
    HasPeak stop fun lim => Pair.ofFnM (f lim) :=
  bind (hf .first) fun _ => bind (hf .second) fun _ => const _

theorem mapError {ε' : Type} (hx : HasPeak stop x) (f : ε → ε') :
    HasPeak (f stop) fun lim => (x lim).mapError f := by
  obtain ⟨p, hp⟩ := hx
  refine ⟨p, fun lim => ⟨fun h => ?_, fun h => ?_⟩⟩
  · simp only [(hp lim).1 h]
  · simp only [(hp lim).2 h]
    rfl

/-- What succeeds at some limit is right in plain arithmetic. -/
theorem ok_unbounded (hx : HasPeak stop x) {lim : Limit} {a : α} (h : x lim = .ok a) :
    x .unbounded = .ok a := by
  obtain ⟨p, hp⟩ := hx
  by_cases hh : lim.Holds p
  · rw [← (hp lim).1 hh, h]
  · rw [(hp lim).2 hh] at h
    cases h

end HasPeak

end Peak

theorem HasPeak.toGraph {α : Type} {x : Limit → Except Fault α} (hx : HasPeak .overflow x) :
    HasPeak (GraphError.fault .overflow) fun lim => (liftM (x lim) : Except GraphError α) :=
  hx.mapError GraphError.fault

/-! ## Arithmetic -/

theorem hasPeak_check (n : Nat) : HasPeak Fault.overflow fun lim => lim.check n :=
  ⟨n, fun _ => ⟨fun h => if_pos h, fun h => if_neg h⟩⟩

theorem hasPeak_add (a b : Nat) : HasPeak Fault.overflow fun lim => lim.add a b :=
  hasPeak_check (a + b)

theorem hasPeak_mul (a b : Nat) : HasPeak Fault.overflow fun lim => lim.mul a b :=
  hasPeak_check (a * b)

theorem hasPeak_count (s : Shape) : HasPeak Fault.overflow fun lim => s.count lim :=
  HasPeak.foldlM hasPeak_mul s 1

theorem hasPeak_byteSize (spec : TensorSpec) :
    HasPeak Fault.overflow fun lim => spec.byteSize lim :=
  .bind (hasPeak_count spec.shape) fun n => hasPeak_mul n spec.element.width

/-! ## Shape inference -/

namespace Operator

theorem hasPeak_windowOutput (size kernel stride dilation : Nat) (pad : Padding) :
    HasPeak Fault.overflow fun lim => windowOutput lim size kernel stride dilation pad := by
  unfold windowOutput
  refine .ite (.const _) ?_
  refine .bind (hasPeak_mul _ _) fun reach => .bind (hasPeak_add _ _) fun effective => ?_
  refine .bind (hasPeak_add _ _) fun padded => .bind (hasPeak_add _ _) fun padded => ?_
  exact .ite (.bind (hasPeak_add _ _) fun o => .const _) (.const _)

theorem hasPeak_slide (name : String) (misfit : Nat → OperatorIssue) (layout : Layout) (x : Shape)
    (kernel stride dilation : Pair Nat) (pad : Pair Padding) (out : Shape) :
    HasPeak (GraphError.fault .overflow) fun lim =>
      slide lim name misfit layout x kernel stride dilation pad out := by
  refine .foldlM (fun out d => ?_) _ _
  refine .bind (.const _) fun extent => ?_
  refine .bind (hasPeak_windowOutput ..).toGraph fun r => ?_
  cases r with
  | none | some o => exact .const _

theorem hasPeak_inferConv (p : Conv2d) (x w : Shape) (bias : Option Shape) :
    HasPeak (GraphError.fault .overflow) fun lim => inferConv lim p x w bias := by
  unfold inferConv
  refine .bind (.const _) fun _ => ?_
  split
  · refine .bind (.const _) fun channels => ?_
    refine .ite (.bind (.const _) fun _ => ?_) ?_
    all_goals
      split
      · refine .ite (.bind (.const _) fun _ => ?_) ?_
        all_goals exact .bind (.const _) fun out => hasPeak_slide ..
      · exact .bind (.const _) fun out => hasPeak_slide ..
  · exact .const _

theorem hasPeak_inferPad (p : ConstantPad) (x : Shape) :
    HasPeak (GraphError.fault .overflow) fun lim => inferPad lim p x := by
  unfold inferPad
  refine .ite (.bind (.const _) fun _ => ?_) ?_
  all_goals
    exact .mapM (fun _ => .bind (hasPeak_add _ _).toGraph fun _ => (hasPeak_add _ _).toGraph) _

theorem hasPeak_inferReshape (target : List Nat) (x : Shape) :
    HasPeak (GraphError.fault .overflow) fun lim => inferReshape lim target x := by
  unfold inferReshape
  refine .bind (hasPeak_count _).toGraph fun n => ?_
  refine .bind (hasPeak_count _).toGraph fun m => ?_
  exact .const (if n ≠ m then _ else _)

theorem hasPeak_inferConcat (axis : Nat) (x : Shape) (inputs : List Shape) :
    HasPeak (GraphError.fault .overflow) fun lim => inferConcat lim axis x inputs := by
  have hstep : ∀ (total : Nat) (s : Shape), HasPeak (GraphError.fault .overflow) fun lim => (do
      let extent ← Size.entry s axis
      let total ← lim.add total extent
      pure total : Except GraphError Nat) := fun total s =>
    .bind (.const _) fun extent => (hasPeak_add total extent).toGraph
  unfold inferConcat
  refine .ite (.bind (.const _) fun _ => ?_) ?_
  all_goals
    refine .bind (.foldlM (fun total s => ?_) _ _) fun total => .const _
    exact .ite (.bind (.const _) fun _ => hstep total s) (hstep total s)

theorem hasPeak_inferSlice (start size : List Nat) (x : Shape) :
    HasPeak (GraphError.fault .overflow) fun lim => inferSlice lim start size x := by
  have hstep : ∀ (b s d i : Nat), HasPeak (GraphError.fault .overflow) fun lim => (do
      let stop ← lim.add b s
      if d < stop then invalid "slice" (.sliceRange b s i x) : Except GraphError Unit) :=
    fun b s d i => .bind (hasPeak_add _ _).toGraph fun last => .const _
  unfold inferSlice
  refine .ite (.bind (.const _) fun _ => ?_) ?_
  all_goals
    refine .bind (.forM (fun a => ?_) _) fun _ => .const _
    obtain ⟨⟨b, s, d⟩, i⟩ := a
    exact .ite (.bind (.const _) fun _ => hstep b s d i) (hstep b s d i)

theorem hasPeak_inferShape (op : Operator) (inputs : List Shape) :
    HasPeak (GraphError.fault .overflow) fun lim => op.inferShape lim inputs := by
  unfold inferShape
  split
  · exact hasPeak_inferConv ..
  · exact hasPeak_inferConv ..
  · exact .bind (.const _) fun _ => hasPeak_slide ..
  · exact hasPeak_inferPad ..
  · exact .const _
  · exact .const _
  · exact .const _
  · exact .const _
  · exact hasPeak_inferReshape ..
  · exact hasPeak_inferConcat ..
  · exact hasPeak_inferSlice ..
  · exact .const _
  · exact .const _

/-- **A shape inferred at any limit is right in plain arithmetic.** -/
theorem inferShape_unbounded {lim : Limit} {op : Operator} {inputs : List Shape} {s : Shape}
    (h : op.inferShape lim inputs = .ok s) : op.inferShape .unbounded inputs = .ok s :=
  (hasPeak_inferShape op inputs).ok_unbounded h

end Operator

end CanvasFusion
