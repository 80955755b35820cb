import CanvasFusion.Proofs.Eval.Solving
import CanvasFusion.Proofs.Graph.Cycles

/-!
# Tensors that nothing provides

An operation waits in the dependency order for those of its inputs that operations write. It does
not wait for an input that nothing provides: one that no operation writes and that is neither an
input of the graph nor a constant. So the order lists what reads such a tensor, and what depends on
that.

**Theorem (run_stops_at_first_unfed).** The order leaves out nothing but cycles and what is behind
them, and lists operations that are starved if and only if an operation it lists reads a tensor that
nothing provides. A run finds such a tensor unevaluated, namely the first one in the order of
reading that was not fed, and it finds nothing else unevaluated.
-/

namespace CanvasFusion

open List CanvasFusion.Graph Ledger

variable {α : Type} {lim : Limit} {g : Graph} {t : TensorId} {o : OpId} {op : Operation}
  {l done rest : List OpId} {st st' : Values α} {v : Value α} {e : EvalError}

namespace Graph

/-- No operation writes the tensor, and it is neither an input nor a constant. -/
def Dangling (g : Graph) (t : TensorId) : Prop :=
  g.producer t = none ∧ t ∉ g.inputs ∧ t ∉ g.constants

instance : Decidable (g.Dangling t) := inferInstanceAs (Decidable (_ ∧ _ ∧ _))

/-- The operation reads a tensor that nothing provides, or depends on one that does. -/
def Starved (g : Graph) (o : OpId) : Prop :=
  ∃ p op, (p = o ∨ g.Upstream p o) ∧ g.ops.get? p = some op ∧ ∃ t ∈ op.inputs, g.Dangling t

/-- What some operations read, in order. -/
def reads (g : Graph) (l : List OpId) : List TensorId :=
  l.flatMap fun o => (g.ops.get? o).elim [] (·.inputs)

/-- The first tensor some operations read that nothing provides and that was not fed. -/
def firstUnfed (g : Graph) (st : Values α) (l : List OpId) : Option TensorId :=
  (g.reads l).find? fun t => decide (g.Dangling t) && !st.contains t

theorem mem_reads : t ∈ g.reads l ↔ ∃ o ∈ l, ∃ op, g.ops.get? o = some op ∧ t ∈ op.inputs := by
  refine mem_flatMap.trans (exists_congr fun o => and_congr_right fun _ => ?_)
  cases g.ops.get? o with
  | none => grind
  | some op => exact ⟨fun h => ⟨op, rfl, h⟩, fun ⟨_, h, ht⟩ => Option.some.inj h ▸ ht⟩

theorem reads_concat (hop : g.ops.get? o = some op) :
    g.reads (done ++ [o]) = g.reads done ++ op.inputs := by
  simp [reads, hop]

/-- Where no operation reads a tensor that nothing provides, none is starved. -/
theorem IsOrder.not_starved_iff (hl : IsOrder g l) :
    (∀ o ∈ l, ¬ g.Starved o) ↔ ∀ t ∈ g.reads l, ¬ g.Dangling t := by
  constructor
  · intro h t ht hd
    obtain ⟨o, ho, op, hop, hmem⟩ := mem_reads.1 ht
    exact h o ho ⟨o, op, .inl rfl, hop, t, hmem, hd⟩
  · rintro h o ho ⟨p, op, hp, hop, t, ht, hd⟩
    have hlisted : p ∈ l := by
      rcases hp with rfl | hp
      · exact ho
      · exact (hl.before_of_upstream ho hp).1
    exact h t (mem_reads.2 ⟨p, hlisted, op, hop, ht⟩) hd

theorem Checked.unbounded (h : g.Checked lim) : g.Checked .unbounded :=
  ⟨fun {_ x _} hx hdata => (hasPeak_byteSize x.spec).ok_unbounded (h.data hx hdata),
    fun hop => Operator.inferShape_unbounded (h.op hop)⟩

end Graph

namespace Evaluation

/-! ## Errors that ask for a value -/

/-- The tensor whose value an error asks for. -/
def wantedBy : EvalError → Option TensorId
  | .missingFeed t => some t
  | .unevaluated t => some t
  | _ => none

theorem wantedBy_lift {β : Type} {x : Except Fault β}
    (h : (liftM x : Except EvalError β) = .error e) : wantedBy e = none := by
  cases x with
  | error f =>
    cases h
    rfl
  | ok a => cases h

theorem wantedBy_checked {shape : Shape} {data : Array α}
    (h : Value.checked lim shape data = .error e) : wantedBy e = none := by
  rcases bind_eq_error.1 h with h | ⟨n, -, h⟩
  · exact wantedBy_lift h
  · split at h
    · cases h
      rfl
    · cases h

theorem wantedBy_constantValue [Scalar α]
    (h : (constantValue lim g t : Except EvalError (Value α)) = .error e) : wantedBy e = none := by
  rcases bind_eq_error.1 h with h | ⟨x, -, h⟩
  · exact wantedBy_lift h
  · cases hdata : x.data with
    | none =>
      rw [hdata] at h
      cases h
      rfl
    | some bytes =>
      rw [hdata] at h
      rcases bind_eq_error.1 h with h | ⟨xs, -, h⟩
      · cases hdec : x.spec.element.decode bytes with
        | error m =>
          rw [hdec] at h
          cases h
          rfl
        | ok xs =>
          rw [hdec] at h
          cases h
      · exact wantedBy_checked h

/-- Only an operand that is not held is asked for. -/
theorem held_of_wantedBy [Scalar α] (h : outputValue lim g st op = .error e) :
    wantedBy e = none ∨ held st op.inputs = .error e := by
  rcases bind_eq_error.1 h with h | ⟨vs, -, h⟩
  · exact .inr h
  · grind [bind_eq_error, wantedBy_lift, wantedBy_checked]

theorem find?_of_held {ts : List TensorId} {vs : List (Value α)} (h : held st ts = .ok vs) :
    ts.find? (fun t => !st.contains t) = none := by
  refine find?_eq_none.2 fun t ht => ?_
  obtain ⟨w, -, hw⟩ := forall₂_left_mem (held_eq_ok.1 h) ht
  simp [Ledger.contains, hw]

/-! ## Runs -/

/-- What a run that began with the values `st` holds when it has computed the operations `done`: all
that was provided for what comes next, and of what nothing provides only what was fed. -/
structure Supplied (g : Graph) (st : Values α) (done : List OpId) (st' : Values α) : Prop where
  provided : ∀ t, ¬ g.Dangling t → (∀ p, g.producer t = some p → p ∈ done) → st'.get? t ≠ none
  dangling : ∀ t, g.Dangling t → st'.get? t = st.get? t
  read : g.firstUnfed st done = none

namespace Supplied

theorem start (hfed : ∀ t ∈ g.inputs, st.get? t ≠ none)
    (hconst : ∀ t ∈ g.constants, st'.get? t ≠ none)
    (hkept : ∀ t, t ∉ g.constants → st'.get? t = st.get? t) : Supplied g st [] st' where
  provided t hd hp := by
    by_cases hc : t ∈ g.constants
    · exact hconst t hc
    · rw [hkept t hc]
      refine hfed t (by_contra fun hi => hd ⟨?_, hi, hc⟩)
      exact Option.eq_none_iff_forall_ne_some.2 fun p hp' => not_mem_nil (hp p hp')
  dangling t hd := hkept t hd.2.2
  read := rfl

variable (h : Supplied g st done st') (horder : g.IsOrder l) (hl : l = done ++ o :: rest)
  (hop : g.ops.get? o = some op)

include h horder hl hop

/-- What the next operation does not find was not fed, and nothing provides it. -/
theorem find?_inputs : op.inputs.find? (fun t => decide (g.Dangling t) && !st.contains t) =
      op.inputs.find? fun t => !st'.contains t := by
  refine find?_congr fun t ht => ?_
  unfold Ledger.contains
  by_cases hd : g.Dangling t
  · simp [hd, h.dangling t hd]
  · have hheld := h.provided t hd fun p hp => horder.writers_before hl hop t ht p hp
    simp [hd, Option.isSome_iff_ne_none.2 hheld]

theorem firstUnfed_eq (hfind : op.inputs.find? (fun t => !st'.contains t) = some t) :
    g.firstUnfed st l = some t := by
  have hreads : g.reads l = g.reads done ++ (op.inputs ++ g.reads rest) := by simp [hl, reads, hop]
  have hread := h.read
  grind [firstUnfed, find?_inputs]

theorem step (hg : g.WellFormed) (hfind : op.inputs.find? (fun t => !st'.contains t) = none) :
    Supplied g st (done ++ [o]) (st'.record op.output v) where
  provided t hd hp := by grind [get?_record, provided, WellFormed.producer_eq_some_iff]
  dangling t hd := by
    have hne : op.output ≠ t := by
      rintro rfl
      cases hd.1.symm.trans (hg.producer_output hop)
    rw [get?_record, if_neg hne]
    exact h.dangling t hd
  read := by
    have hread := h.read
    grind [firstUnfed, reads_concat, find?_inputs]

end Supplied

variable [Scalar α]

/-- What a run whose inputs are fed finds unevaluated. -/
theorem after_run_unfed (hg : g.WellFormed) (hl : g.order = .ok l) (horder : g.IsOrder l)
    (hfed : ∀ t ∈ g.inputs, st.get? t ≠ none) :
    After (computeAll lim g) st (fun _ _ => g.firstUnfed st l = none) fun e _ =>
      ∀ t, wantedBy e = some t → e = .unevaluated t ∧ g.firstUnfed st l = some t := by
  refine .bind ((after_checkFed g st).imp ?_ ?_)
  swap
  · grind
  rintro _ _ ⟨rfl, -⟩
  refine .then_ (after_constants fun t e _ _ he u hu => ?_) ?_
  · cases (wantedBy_constantValue he).symm.trans hu
  rintro _ st' ⟨hconst, hkept⟩
  refine .bind (after_check (fun l' hl' => ?_) fun e he => ?_)
  · cases (lift_fault_eval_eq_ok.2 hl).symm.trans hl'
    have hstart : Supplied g _ [] st' := .start hfed (fun t ht hnone => by
      grind) hkept
    refine (after_operations (Supplied g _) horder hstart ?_ ?_).mono fun _ _ h => h.read
    · intro done o rest op st' v hl hop h hv
      obtain ⟨vs, -, hvs, -⟩ := outputValue_ok hop hg hv
      exact h.step horder hl hop hg (find?_of_held hvs)
    · intro done o rest op st' e hl hop h he t ht
      obtain ⟨u, hfind, rfl⟩ := held_error ((held_of_wantedBy he).resolve_left fun hnone => by
        cases hnone.symm.trans ht)
      cases ht
      exact ⟨rfl, h.firstUnfed_eq horder hl hop hfind⟩
  · cases (lift_fault_eval_eq_ok.2 hl).symm.trans he

/-- **The order lists operations that can never be computed**, and a run stops at the first of
them. -/
theorem run_stops_at_first_unfed (h : Graph.Reachable lim g) : ∃ l, g.order = .ok l ∧
    (∀ o op, g.ops.get? o = some op → (∀ p, g.Upstream p o → ¬ g.OnCycle p) → o ∈ l) ∧
    ((∀ o ∈ l, ¬ g.Starved o) ↔ ∀ t ∈ g.reads l, ¬ g.Dangling t) ∧
    (∀ (lim' : Limit) (st : Values α), (∀ t ∈ g.inputs, st.get? t ≠ none) →
      After (computeAll lim' g) st (fun _ _ => g.firstUnfed st l = none) fun e _ =>
        ∀ t, e = .unevaluated t → g.firstUnfed st l = some t) ∧
    ∀ st : Values α, Session g st → (∀ t ∈ g.inputs, st.get? t ≠ none) →
      (∀ t x, g.tensors.get? t = some x → x.spec.role = .constant → x.data ≠ none) →
      ((computeAll .unbounded g).run st).1 = match g.firstUnfed st l with
        | some t => .error (.unevaluated t)
        | none => .ok () := by
  have hg := h.wellFormed
  obtain ⟨l, hl, horder⟩ := hg.order_ok
  refine ⟨l, hl, fun o op hop => horder.mem_of_acyclic hg hop, horder.not_starved_iff, ?_, ?_⟩
  · intro lim' st hfed
    refine (after_run_unfed hg hl horder hfed).imp (fun _ _ hnone => hnone) ?_
    rintro _ _ he t rfl
    exact (he t rfl).2
  · intro st hst hfed hdata
    have hc := h.checked.unbounded
    have hend :=
      (after_run_unfed hg hl horder hfed).and (after_computeAll hg hc (hst.fitting hg hc))
    obtain ⟨_, _, hrun, hnone, -⟩ | ⟨e, st', hrun, hwanted, hlacks, -⟩ := hend.run_cases
    · rw [hrun, hnone]
    · rw [hrun]
      cases hlacks with
      | feed _ _ => cases (hwanted _ rfl).1
      | data hx hrole hnone => exact absurd hnone (hdata _ _ hx hrole)
      | value _ _ _ _ _ _ => rw [(hwanted _ rfl).2]

/-- Nothing writes the tensor 1, which the second operation reads and the third depends on. -/
def unfedOperand : List Call :=
  [.createTensor ⟨.f32, [1], .input, none⟩, .createTensor ⟨.f32, [1], .transient, none⟩,
    .emit (.activation .relu) [⟨0⟩] .transient, .emit (.binary .add) [⟨2⟩, ⟨1⟩] .transient,
    .emit (.activation .relu) [⟨3⟩] .output]

theorem run_stops_at_first_unfed_operand :
    let g := build .word64 unfedOperand
    let st : Values (Exact default) := ((feed .unbounded g ⟨0⟩ #[⟨1⟩]).run .empty).2
    let st' := ((feed .unbounded g ⟨1⟩ #[⟨1⟩]).run st).2
    g.order = .ok [⟨0⟩, ⟨1⟩, ⟨2⟩] ∧ g.Starved ⟨2⟩ ∧
      ((computeAll .unbounded g).run st).1 = .error (.unevaluated ⟨1⟩) ∧
      ((computeAll .unbounded g).run st').1 = .ok () := by
  intro g st st'
  have h : Graph.Reachable .word64 g := reachable_iff_build.2 ⟨unfedOperand, rfl⟩
  have horder : g.order = .ok [⟨0⟩, ⟨1⟩, ⟨2⟩] := by decide +kernel
  obtain ⟨l, hl, -, -, -, hrun⟩ := run_stops_at_first_unfed (α := Exact default) h
  cases hl.symm.trans horder
  have hdata : ∀ t x, g.tensors.get? t = some x → x.spec.role = .constant → x.data ≠ none := by
    intro t x hx hrole
    have hnil : g.constants = [] := by decide +kernel
    exact absurd (mem_constants.2 ⟨x, hx, hrole⟩) (hnil ▸ not_mem_nil)
  refine ⟨horder, ?_, ?_, ?_⟩
  · refine ⟨⟨1⟩, ⟨.binary .add, [⟨2⟩, ⟨1⟩], ⟨3⟩⟩, .inr (.single ?_), by decide +kernel,
      ⟨1⟩, by decide, by decide +kernel⟩
    exact ⟨⟨.activation .relu, [⟨3⟩], ⟨4⟩⟩, by decide +kernel, ⟨3⟩, by decide, by decide +kernel⟩
  · exact (hrun st (.feed .start _ _) (by decide +kernel) hdata).trans (by decide +kernel)
  · exact (hrun st' (.feed (.feed .start _ _) _ _) (by decide +kernel)
      hdata).trans (by decide +kernel)

end Evaluation

end CanvasFusion
