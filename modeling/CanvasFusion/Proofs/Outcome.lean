import Mathlib.Data.List.Forall2
import Mathlib.Tactic
import CanvasFusion.Eval.Evaluator
import CanvasFusion.Fusion.Context

/-!
# Outcomes of steps with state and errors

Edits of a graph, steps of the pass and evaluations all run in one kind of monad: a state that is
kept on failure, and an error. `After m s Q E` says how a run of `m` from the state `s` may end:
with a result and a state that satisfy `Q`, or with an error and a state that satisfy `E`. There is
one rule for each way of building a step, so a specification is proved along the program text.

The checks that need no state live in `Except`. They are opened by `bind_eq_ok`: a computation in
two parts succeeds exactly when both parts do.
-/

namespace CanvasFusion

open List Pass Pair Size

/-! ## Checks -/

section Checks

variable {ε ε' α β : Type} {x : Except ε α} {f : α → Except ε β} {b : β} {xs l : List α} {i : Nat}

theorem bind_eq_ok : (x >>= f) = .ok b ↔ ∃ a, x = .ok a ∧ f a = .ok b := by
  cases x with
  | ok a | error e => simp [bind, Except.bind]

theorem bind_eq_error {e : ε} :
    (x >>= f) = .error e ↔ x = .error e ∨ ∃ a, x = .ok a ∧ f a = .error e := by
  cases x with
  | error e' | ok a => simp [bind, Except.bind]

/-- A computation that starts with a check. -/
theorem of_guard {c : Prop} [Decidable c] {e : ε} {x : Except ε β}
    (h : (if c then .error e >>= f else x) = .ok b) : ¬ c ∧ x = .ok b := by
  split_ifs at h with hc
  · cases h
  · exact ⟨hc, h⟩

theorem bind_ok (a : α) (f : α → Except ε β) : (Except.ok a >>= f) = f a := rfl

theorem mapError_eq_ok {f : ε → ε'} {a : α} : x.mapError f = .ok a ↔ x = .ok a := by
  cases x <;> simp [Except.mapError]

theorem map_eq_ok {f : α → β} : x.map f = .ok b ↔ ∃ a, x = .ok a ∧ f a = b := by
  cases x <;> simp [Except.map]

theorem mapM_eq_ok_iff {ys : List β} :
    xs.mapM f = .ok ys ↔ List.Forall₂ (fun x y => f x = .ok y) xs ys := by
  induction xs generalizing ys with
  | nil =>
    rw [mapM_nil]
    constructor
    · intro h
      cases h
      exact .nil
    · intro h
      cases h
      rfl
  | cons x xs ih =>
    rw [mapM_cons]
    simp only [bind_eq_ok]
    constructor
    · rintro ⟨y, hy, ys', hys, h⟩
      cases h
      exact .cons hy (ih.1 hys)
    · intro h
      cases h with
      | cons hy hys => exact ⟨_, hy, _, ih.2 hys, rfl⟩

/-- A check of every entry succeeds if each single check does. -/
theorem mapM_ok {g : α → β} (h : ∀ x ∈ l, f x = .ok (g x)) : l.mapM f = .ok (l.map g) := by
  rw [mapM_eq_ok_iff, forall₂_map_right_iff, forall₂_same]
  exact h

theorem foldlM_ok {f : β → α → Except ε β} {g : β → α → β}
    (h : ∀ b, ∀ x ∈ xs, f b x = .ok (g b x)) (b : β) : xs.foldlM f b = .ok (xs.foldl g b) := by
  induction xs generalizing b with
  | nil => rfl
  | cons x xs ih =>
    rw [foldlM_cons, h b x mem_cons_self]
    exact ih (fun b y hy => h b y (mem_cons_of_mem x hy)) (g b x)

/-- A loop keeps an invariant that counts its steps. -/
theorem foldlM_invariant {f : β → α → Except ε β} (P : Nat → β → Prop) (h0 : P 0 b)
    (hstep : ∀ k a b, l[k]? = some a → P k b → ∃ b', f b a = .ok b' ∧ P (k + 1) b') :
    ∃ b', l.foldlM f b = .ok b' ∧ P l.length b' := by
  induction l generalizing b P with
  | nil => exact ⟨b, rfl, h0⟩
  | cons a l ih =>
    obtain ⟨b', hb', h1⟩ := hstep 0 a b rfl h0
    rw [foldlM_cons, hb', bind_ok]
    exact ih (fun k => P (k + 1)) h1 fun k c d hk => hstep (k + 1) c d hk

theorem ofFnM_eq_ok {f : Dim → Except ε α} {p : Pair α} :
    ofFnM f = .ok p ↔ ∀ d, f d = .ok (p.get d) := by
  simp only [Pair.ofFnM, bind_eq_ok]
  constructor
  · rintro ⟨a, ha, b, hb, h⟩
    cases h
    intro d
    cases d <;> assumption
  · intro h
    exact ⟨p.first, h .first, p.second, h .second, rfl⟩

/-- A pair of checks that succeed. -/
theorem exists_ofFnM {f : Dim → Except ε α} {P : Dim → α → Prop}
    (h : ∀ d, ∃ a, f d = .ok a ∧ P d a) : ∃ p, ofFnM f = .ok p ∧ ∀ d, P d (p.get d) := by
  choose a ha hP using h
  refine ⟨.ofFn a, ofFnM_eq_ok.2 fun d => ?_, fun d => ?_⟩
  · rw [Pair.ofFn_get]
    exact ha d
  · rw [Pair.ofFn_get]
    exact hP d

@[simp] theorem entry_eq_ok {x : α} : entry xs i = .ok x ↔ xs[i]? = some x := by
  unfold entry
  cases xs[i]? <;> simp

theorem replace_eq_ok {ys : List α} {x : α} :
    replace xs i x = .ok ys ↔ i < xs.length ∧ ys = xs.set i x := by
  unfold Size.replace
  grind

theorem replace_ok (h : i < xs.length) (x : α) : replace xs i x = .ok (xs.set i x) := by
  simp [Size.replace, h]

end Checks

variable {α : Type} {x : Except Fault α} {a : α}

@[simp] theorem lift_fault_eq_ok : (liftM x : Except FusionError α) = .ok a ↔ x = .ok a := by
  cases x with
  | ok b | error f => exact ⟨fun h => by cases h <;> rfl, fun h => by cases h <;> rfl⟩

@[simp] theorem lift_fault_graph_eq_ok : (liftM x : Except GraphError α) = .ok a ↔ x = .ok a :=
  mapError_eq_ok

@[simp] theorem lift_graph_eq_ok {x : Except GraphError α} :
    (liftM x : Except FusionError α) = .ok a ↔ x = .ok a := mapError_eq_ok

@[simp] theorem lift_fault_eval_eq_ok : (liftM x : Except EvalError α) = .ok a ↔ x = .ok a := by
  cases x with
  | ok b | error f => exact ⟨fun h => by cases h <;> rfl, fun h => by cases h <;> rfl⟩

@[simp] theorem lift_graph_eval_eq_ok {x : Except GraphError α} :
    (liftM x : Except EvalError α) = .ok a ↔ x = .ok a := mapError_eq_ok

@[simp] theorem lift_fault_ok (a : α) :
    (liftM (.ok a : Except Fault α) : Except FusionError α) = .ok a := rfl

@[simp] theorem lift_fault_graph_ok (a : α) :
    (liftM (.ok a : Except Fault α) : Except GraphError α) = .ok a := rfl

@[simp] theorem lift_fault_eval_ok (a : α) :
    (liftM (.ok a : Except Fault α) : Except EvalError α) = .ok a := rfl

/-! ## Steps -/

section Steps

variable {ε σ α β : Type}

/-- After `m` ran from `s`, its result and the state satisfy `Q`, or its error and the state
satisfy `E`. -/
def After (m : ExceptT ε (StateM σ) α) (s : σ) (Q : α → σ → Prop) (E : ε → σ → Prop) : Prop :=
  match m.run s with
  | (.ok a, s') => Q a s'
  | (.error e, s') => E e s'

variable {s : σ} {Q : α → σ → Prop} {E : ε → σ → Prop}

namespace After

variable {m m' : ExceptT ε (StateM σ) α} {Q' : α → σ → Prop} {f : β → ExceptT ε (StateM σ) α}
  {E' : ε → σ → Prop} {xs : List β}

theorem pure {a : α} (h : Q a s) : After (pure a : ExceptT ε (StateM σ) α) s Q E := h

theorem throw {e : ε} (h : E e s) : After (throw e : ExceptT ε (StateM σ) α) s Q E := h

theorem get {Q : σ → σ → Prop} (h : Q s s) : After (get : ExceptT ε (StateM σ) σ) s Q E := h

theorem set {t : σ} {Q : PUnit → σ → Prop} (h : Q ⟨⟩ t) :
    After (set t : ExceptT ε (StateM σ) PUnit) s Q E := h

theorem modify {f : σ → σ} {Q : PUnit → σ → Prop} (h : Q ⟨⟩ (f s)) :
    After (modify f : ExceptT ε (StateM σ) PUnit) s Q E := h

/-- A check without effects. -/
theorem ofExcept {x : Except ε α} (hok : ∀ a, x = .ok a → Q a s)
    (herr : ∀ e, x = .error e → E e s) :
    After (ExceptT.mk (Pure.pure x) : ExceptT ε (StateM σ) α) s Q E := by
  cases x with
  | ok a => exact hok a rfl
  | error e => exact herr e rfl

theorem bind {m : ExceptT ε (StateM σ) β}
    (h : After m s (fun b s' => After (f b) s' Q E) E) : After (m >>= f) s Q E := by
  unfold After at h ⊢
  change match (ExceptT.bindCont f (m.run s).1) (m.run s).2 with
    | (.ok a, s') => Q a s'
    | (.error e, s') => E e s'
  revert h
  generalize m.run s = r
  intro h
  rcases r with ⟨b | b, s'⟩
  · exact h
  · exact h

theorem imp (h : After m s Q E) (hQ : ∀ a s', Q a s' → Q' a s')
    (hE : ∀ e s', E e s' → E' e s') : After m s Q' E' := by
  grind [After]

/-- What is true in any case is true after a run. -/
theorem of_forall (hQ : ∀ a s', Q a s') (hE : ∀ e s', E e s') : After m s Q E := by
  grind [After]

/-- A run ends as it ends. -/
theorem runs (m : ExceptT ε (StateM σ) α) (s : σ) :
    After m s (fun a s' => m.run s = (.ok a, s')) fun e s' => m.run s = (.error e, s') := by
  grind [After]

/-- The rule of consequence for what a step that went well leaves behind. -/
theorem mono (h : After m s Q E) (hQ : ∀ a s', Q a s' → Q' a s') : After m s Q' E :=
  h.imp hQ fun _ _ he => he

/-- Two facts about one run. -/
theorem and (h : After m s Q E) (h' : After m s Q' E') :
    After m s (fun a s' => Q a s' ∧ Q' a s') (fun e s' => E e s' ∧ E' e s') := by
  grind [After]

/-- A bound step, given what its first part leaves behind. -/
theorem then_ {m : ExceptT ε (StateM σ) β}
    {R : β → σ → Prop} (h : After m s R E) (hf : ∀ b s', R b s' → After (f b) s' Q E) :
    After (m >>= f) s Q E := bind (h.mono hf)

theorem ite {c : Prop} [Decidable c] (h : c → After m s Q E)
    (h' : ¬ c → After m' s Q E) : After (if c then m else m') s Q E := by
  grind

/-- What is true after a run that went well. -/
theorem of_run {a : α} {s' : σ} (h : After m s Q E) (hrun : m.run s = (.ok a, s')) : Q a s' := by
  grind [After]

theorem of_run_error {e : ε} {s' : σ} (h : After m s Q E) (hrun : m.run s = (.error e, s')) :
    E e s' := by
  grind [After]

/-- How a run ends. -/
theorem run_cases (h : After m s Q E) :
    (∃ a s', m.run s = (.ok a, s') ∧ Q a s') ∨ ∃ e s', m.run s = (.error e, s') ∧ E e s' := by
  grind [After]

/-- A loop keeps an invariant of the entries it is done with. -/
theorem forM {f : β → ExceptT ε (StateM σ) PUnit} (I : List β → σ → Prop)
    (h0 : I [] s)
    (hstep : ∀ done x rest s', xs = done ++ x :: rest → I done s' →
      After (f x) s' (fun _ s'' => I (done ++ [x]) s'') E) :
    After (xs.forM f) s (fun _ s' => I xs s') E := by
  suffices H : ∀ rest done s', xs = done ++ rest → I done s' →
      After (rest.forM f) s' (fun _ s'' => I xs s'') E from H xs [] s rfl h0
  intro rest
  induction rest with
  | nil =>
    intro done s' hxs hI
    rw [append_nil] at hxs
    exact hxs ▸ hI
  | cons x rest ih =>
    intro done s' hxs hI
    change After (f x >>= fun _ => rest.forM f) s' _ E
    grind [then_]

/-- A loop that collects results keeps an invariant of the entries it is done with and their
results. -/
theorem mapM {γ : Type} {f : β → ExceptT ε (StateM σ) γ} (I : List β → List γ → σ → Prop)
    (h0 : I [] [] s) (hstep : ∀ done x rest ys s', xs = done ++ x :: rest → I done ys s' →
      After (f x) s' (fun y s'' => I (done ++ [x]) (ys ++ [y]) s'') E) :
    After (xs.mapM f) s (fun ys s' => I xs ys s') E := by
  suffices H : ∀ rest done ys s', xs = done ++ rest → I done ys s' →
      After (rest.mapM f) s' (fun zs s'' => I xs (ys ++ zs) s'') E from
    (H xs [] [] s rfl h0).mono fun zs s' h => h
  intro rest
  induction rest with
  | nil => grind [pure]
  | cons x rest ih => grind [then_, pure]

end After

end Steps

/-! ## Steps of the pass, edits and evaluations -/

section Specific

variable {α : Type} {E : FusionError → Context → Prop} {ctx : Context} {Q : α → Context → Prop}
  {a : α} {f : Context → Except FusionError α} {e : Graph.Edit α} {R : α → Graph → Prop}
  {S : GraphError → Graph → Prop}

theorem After.check {x : Except FusionError α} (hok : ∀ a, x = .ok a → Q a ctx)
    (herr : ∀ e, x = .error e → E e ctx) : After (check x) ctx Q E :=
  After.ofExcept hok herr

theorem After.check_ok {x : Except FusionError α} (hx : x = .ok a) (h : Q a ctx) :
    After (Pass.check x) ctx Q E := by
  subst hx
  exact h

theorem After.check_fault {x : Except Fault α} (hx : x = .ok a) (h : Q a ctx) :
    After (Pass.check (liftM x)) ctx Q E := .check_ok (lift_fault_eq_ok.2 hx) h

theorem After.ask (hok : ∀ a, f ctx = .ok a → Q a ctx) (herr : ∀ e, f ctx = .error e → E e ctx) :
    After (ask f) ctx Q E :=
  After.bind (.get (.check hok herr))

theorem After.ask_ok (hf : f ctx = .ok a) (h : Q a ctx) : After (Pass.ask f) ctx Q E :=
  After.bind (.get (.check_ok hf h))

theorem After.ask_error {e : FusionError} (hf : f ctx = .error e) (h : E e ctx) :
    After (Pass.ask f) ctx Q E :=
  .ask (fun _ hok => by cases hf.symm.trans hok) fun _ he => Except.error.inj (hf.symm.trans he) ▸ h

theorem After.ask_fault {f : Context → Except Fault α} (hf : f ctx = .ok a) (h : Q a ctx) :
    After (Pass.ask fun ctx => liftM (f ctx)) ctx Q E := .ask_ok (lift_fault_eq_ok.2 hf) h

section Tables

variable {κ ν : Type} [DecidableEq κ] {table : PassTable} {toKey : κ → PassKey}
  {get : Context → Ledger κ ν}
  {put : Context → Ledger κ ν → Context} {k : κ} {v : ν} {Q : Unit → Context → Prop}

/-- An entry of a table that is written once. -/
theorem After.recordOnce (hnew : (get ctx).get? k = none → Q () (put ctx ((get ctx).record k v)))
    (hold : ∀ w, (get ctx).get? k = some w → E (.duplicateEntry table (toKey k)) ctx) :
    After (recordOnce table toKey get put k v) ctx Q E := by
  refine .bind (.get ?_)
  refine .ite (fun h => ?_) (fun h => ?_)
  · obtain ⟨w, hw⟩ := Option.isSome_iff_exists.1 h
    exact .bind (.throw (hold w hw))
  · have hnone : (get ctx).get? k = none := by simpa [Ledger.contains] using h
    exact .set (hnew hnone)

/-- An entry that a table does not have yet. -/
theorem After.recordNew (hnew : (get ctx).get? k = none)
    (hQ : Q () (put ctx ((get ctx).record k v))) :
    After (Pass.recordOnce table toKey get put k v) ctx Q E := by
  grind [recordOnce]

end Tables

/-- An edit of the working copy, by what the edit does to a graph. -/
theorem After.onCloned (h : After e ctx.cloned R S)
    (hok : ∀ a g, R a g → Q a { ctx with cloned := g })
    (herr : ∀ err g, S err g → E (.ofGraph err) { ctx with cloned := g }) :
    After (onCloned e) ctx Q E := by
  unfold After at h
  refine .bind (.get ?_)
  unfold Graph.run
  revert h
  generalize e.run ctx.cloned = r
  intro h
  rcases r with ⟨err | a, g⟩
  · exact herr err g h
  · exact hok a g h

/-- An edit of the fused graph, by what the edit does to a graph. -/
theorem After.onFused (h : After e ctx.fused R S) (hok : ∀ a g, R a g → Q a { ctx with fused := g })
    (herr : ∀ err g, S err g → E (.ofGraph err) { ctx with fused := g }) :
    After (onFused e) ctx Q E := by
  unfold After at h
  refine .bind (.get ?_)
  unfold Graph.run
  revert h
  generalize e.run ctx.fused = r
  intro h
  rcases r with ⟨err | a, g⟩
  · exact herr err g h
  · exact hok a g h

end Specific

/-- An entry that has to be there. -/
theorem Context.entry_ok_iff {ν : Type} {table : PassTable} {key : PassKey} {v : Option ν} {a : ν} :
    Context.entry table key v = .ok a ↔ v = some a := by
  cases v <;> simp [Context.entry]

end CanvasFusion
