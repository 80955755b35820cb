import CanvasFusion.Proofs.Graph.Building

/-!
# Walks over a graph

Cloning and emission go over a graph in the same way. They start at its sources and take operations
from a queue. An operation whose inputs are all available is taken once. If that makes its output
available, the readers of the output join the queue.

Each pair of a tensor and a reader of it is queued once: the readers of the sources at the start,
and the readers of any other tensor when it becomes available. So there are as many steps as there
are readings.
-/

namespace CanvasFusion

open List Table

/-! ## Errors -/

/-- The errors that say that the tables of a run are out of step with each other. -/
def FusionError.isInternal : FusionError → Bool
  | .missingEntry .. | .duplicateEntry .. | .canvasMismatch .. | .outOfSteps => true
  | _ => false

/-- An error that is not internal, and no error at all where `P` is true. -/
def Outside (P : Prop) (e : FusionError) (_ : Context) : Prop := e.isInternal = false ∧ ¬ P

theorem isInternal_ofGraph (e : GraphError) : (FusionError.ofGraph e).isInternal = false := by
  cases e <;> rfl

theorem isInternal_of_lift_fault {α : Type} {x : Except Fault α} {e : FusionError}
    (h : (liftM x : Except FusionError α) = .error e) : e.isInternal = false := by
  cases x with
  | ok a => cases h
  | error f =>
    cases h
    rfl

namespace Graph

variable {g : Graph} {t : TensorId} {o : OpId} {op : Operation} {avail avail' : TensorId → Bool}
  {l : List TensorId}

/-! ## Readings that are still to come -/

/-- The readers of tensors that are not available yet. -/
def unread (g : Graph) (avail : TensorId → Bool) : Nat :=
  ((g.tensors.handles.filter fun t => !avail t).map fun t => (g.consumers t).length).sum

/-- A list without repetitions loses one entry when a predicate is given up at one place. -/
theorem sum_filter_erase {f : TensorId → Nat} (hl : l.Nodup) (ht : t ∈ l)
    (hnew : avail t = false) (h : ∀ u, avail' u = (avail u || decide (u = t))) :
    ((l.filter fun u => !avail u).map f).sum = ((l.filter fun u => !avail' u).map f).sum + f t := by
  induction l with
  | nil => cases ht
  | cons a l ih =>
    obtain ⟨ha, hl⟩ := nodup_cons.1 hl
    by_cases hat : a = t
    · grind [filter_congr]
    · grind

theorem unread_eq_add (ht : t.index < g.tensors.size) (hnew : avail t = false)
    (h : ∀ u, avail' u = (avail u || decide (u = t))) :
    g.unread avail = g.unread avail' + (g.consumers t).length :=
  sum_filter_erase g.tensors.nodup_handles (mem_handles.2 ht) hnew h

theorem unread_nothing (g : Graph) : g.unread (fun _ => false) = g.readings := by
  have hmap : g.tensors.handles.map (fun t => (g.consumers t).length) =
      g.tensors.toList.map fun x => x.consumers.length := by
    refine ext_getElem? fun i => ?_
    rw [handles, map_map, getElem?_map, getElem?_map, getElem?_toList]
    by_cases hi : i < g.tensors.size
    · obtain ⟨x, hx⟩ := exists_get? (h := (⟨i⟩ : TensorId)) hi
      rw [getElem?_range hi, hx]
      simp [mem_consumers hx]
    grind [get?_eq_none]
  have hfold : ∀ (l : List Tensor) (n : Nat), l.foldl (fun n t => n + t.consumers.length) n =
      n + (l.map fun x => x.consumers.length).sum := by
    intro l
    induction l with
    | nil => exact fun _ => rfl
    | cons x l ih => grind
  rw [readings, hfold, Nat.zero_add, unread, ← hmap]
  simp

/-- The readers of some tensors and of all others together are all readers. -/
theorem unread_add_readers (hl : l.Nodup) (hknown : ∀ t ∈ l, t.index < g.tensors.size) :
    (l.flatMap g.consumers).length + g.unread (fun t => decide (t ∈ l)) = g.readings := by
  induction l with
  | nil => simpa using g.unread_nothing
  | cons t l ih =>
    obtain ⟨ht, hl⟩ := nodup_cons.1 hl
    have ih' := ih hl fun u hu => hknown u (mem_cons_of_mem t hu)
    have hstep : g.unread (fun u => decide (u ∈ l)) =
        g.unread (fun u => decide (u ∈ t :: l)) + (g.consumers t).length :=
      unread_eq_add (hknown t mem_cons_self) (by simp [ht]) fun u => by simp [Bool.or_comm]
    rw [flatMap_cons, length_append]
    omega

/-! ## Queues -/

/-- Every operation whose inputs are available has been visited or is queued. -/
structure Queued (g : Graph) (avail : TensorId → Bool) (visited queue : List OpId) : Prop where
  known : ∀ o ∈ queue, ∃ op, g.ops.get? o = some op
  ready : ∀ {o op}, g.ops.get? o = some op → (∀ x ∈ op.inputs, avail x = true) →
    o ∈ visited ∨ o ∈ queue

/-- What a step makes available: nothing, or one tensor that was not available before. -/
def Advances (g : Graph) (avail avail' : TensorId → Bool) : Option TensorId → Prop
  | none => avail' = avail
  | some t => t.index < g.tensors.size ∧ avail t = false ∧
      ∀ u, avail' u = (avail u || decide (u = t))

/-- The queue after a step. -/
def queueAfter (g : Graph) (queue : List OpId) : Option TensorId → List OpId
  | none => queue
  | some t => queue ++ g.consumers t

theorem WellFormed.consumers_known (hg : g.WellFormed) (ho : o ∈ g.consumers t) :
    ∃ op, g.ops.get? o = some op ∧ t ∈ op.inputs := by
  cases ht : g.tensors.get? t with
  | none => simp [consumers, ht] at ho
  | some x => exact (hg.mem_consumers_iff ht).1 ho

/-- At the start, the readers of the sources are queued. -/
theorem WellFormed.queued_sources (hg : g.WellFormed) (havail : ∀ t, avail t = true → t ∈ g.sources)
    (visited : List OpId) : g.Queued avail visited (g.sources.flatMap g.consumers) where
  known o ho := by grind [consumers_known]
  ready {o op} hop hin := by
    obtain ⟨x, hx⟩ := exists_mem_of_ne_nil _ (hg.inputs_ne_nil hop)
    grind [input_known, mem_consumers_iff]

/-- The queue invariant is kept by a step that visits its operation if it can be taken. -/
theorem WellFormed.queued_step (hg : g.WellFormed) {visited visited' queue : List OpId}
    (h : g.Queued avail visited (o :: queue)) {r : Option TensorId} (hr : g.Advances avail avail' r)
    (hop : g.ops.get? o = some op) (hkeep : ∀ o' ∈ visited, o' ∈ visited')
    (hself : (∀ x ∈ op.inputs, avail x = true) → o ∈ visited') :
    g.Queued avail' visited' (g.queueAfter queue r) where
  known o' ho' := by
    have hold : o' ∈ queue → ∃ op, g.ops.get? o' = some op := fun ho' =>
      h.known o' (mem_cons_of_mem o ho')
    cases r with
    | none => exact hold ho'
    | some t =>
      rcases mem_append.1 ho' with ho' | ho'
      · exact hold ho'
      · grind [consumers_known]
  ready {o' op'} hop' hin := by
    have hold : (∀ x ∈ op'.inputs, avail x = true) → o' ∈ visited' ∨ o' ∈ queue := by
      grind [Queued.ready]
    cases r with
    | none =>
      have hr' : avail' = avail := hr
      exact hold (hr' ▸ hin)
    | some t =>
      by_cases hread : t ∈ op'.inputs
      · -- The operation reads the tensor that has just become available.
        obtain ⟨y, hy⟩ := hg.input_known hop' hread
        exact .inr (mem_append_right _ ((hg.mem_consumers_iff hy).2 ⟨op', hop', hread⟩))
      · refine (hold fun x hx => ?_).imp id (mem_append_left _)
        have hne : x ≠ t := fun heq => hread (heq ▸ hx)
        simpa [hr.2.2 x, hne] using hin x hx

end Graph

/-- **A walk** has the steps it needs, keeps what each of its steps keeps, and leaves nothing behind
that can be taken. -/
theorem After.walk {g : Graph} (hg : g.WellFormed) (step : OpId → Pass (Option TensorId))
    (avail : Context → TensorId → Bool) (I : Context → Prop) (E : FusionError → Context → Prop)
    (hstep : ∀ o op ctx, g.ops.get? o = some op → I ctx → After (step o) ctx (fun r ctx' =>
      I ctx' ∧ g.Advances (avail ctx) (avail ctx') r ∧ (∀ o' ∈ ctx.visited, o' ∈ ctx'.visited) ∧
        ((∀ x ∈ op.inputs, avail ctx x = true) → o ∈ ctx'.visited)) E) (steps : Nat) :
    ∀ queue ctx, I ctx → g.Queued (avail ctx) ctx.visited queue →
      queue.length + g.unread (avail ctx) ≤ steps →
      After (Pass.walk g step steps queue) ctx
        (fun _ ctx' => I ctx' ∧ g.Queued (avail ctx') ctx'.visited []) E := by
  induction steps with
  | zero =>
    intro queue ctx hI hq hle
    cases queue with
    | nil => exact .pure ⟨hI, hq⟩
    | cons o queue => grind
  | succ steps ih =>
    intro queue ctx hI hq hle
    cases queue with
    | nil => exact .pure ⟨hI, hq⟩
    | cons o queue =>
      obtain ⟨op, hop⟩ := hq.known o mem_cons_self
      unfold Pass.walk
      refine .then_ (hstep o op ctx hop hI) ?_
      rintro r ctx' ⟨hI', hr, hkeep, hself⟩
      have hq' := hg.queued_step hq hr hop hkeep hself
      rw [length_cons] at hle
      cases r with
      | none =>
        have hsame : avail ctx' = avail ctx := hr
        refine ih queue ctx' hI' hq' ?_
        rw [hsame]
        omega
      | some t =>
        obtain ⟨ht, hnew, hall⟩ := hr
        refine ih _ ctx' hI' hq' ?_
        grind [Graph.unread_eq_add]

end CanvasFusion
