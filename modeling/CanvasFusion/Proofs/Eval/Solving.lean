import CanvasFusion.Proofs.Eval.Safety

/-!
# Runs solve the equations of a graph

A tensor can be fed whatever it is to its graph, so a run may start with stale values for constants
and for tensors that operations compute. It overwrites those, each before anything reads it, and
keeps the rest (`Solved`).

**Theorem (run_solves_equations).** After a run that succeeds, every operation of the dependency
order holds what its kernel computes from the values its inputs hold, every constant holds its data,
and every other tensor what was fed for it last. A second run finds all equations solved and changes
nothing.
-/

namespace CanvasFusion

open List CanvasFusion.Graph Ledger

/-- Recording what is recorded already changes nothing. -/
theorem Ledger.record_eq_self {κ ν : Type} [DecidableEq κ] {l : Ledger κ ν} {k : κ} {v : ν}
    (h : l.get? k = some v) : l.record k v = l := by
  obtain ⟨es⟩ := l
  refine congrArg mk ?_
  change lookup k es = some v at h
  induction es with
  | nil => cases h
  | cons e rest ih => grind [put.eq_def, lookup.eq_def]

variable {α : Type} [Scalar α] {lim : Limit} {g : Graph} {t : TensorId} {o : OpId} {op : Operation}
  {l done rest : List OpId} {st₀ st : Values α} {v : Value α}

namespace Evaluation

theorem outputValue_ok (hop : g.ops.get? o = some op) (hg : g.WellFormed)
    (h : outputValue lim g st op = .ok v) :
    ∃ vs data, held st op.inputs = .ok vs ∧ compute lim op.kind vs
      (g.shapeOf op.output) = .ok data ∧ v = ⟨g.shapeOf op.output, data⟩ := by
  obtain ⟨y, hy⟩ := hg.output_known hop
  unfold outputValue at h
  grind [bind_eq_ok, shape_ok, lift_fault_eval_eq_ok, Value.eq_of_checked]

theorem constantValue_ok (h : constantValue lim g t = .ok v) :
    ∃ x bytes xs, g.tensors.get? t = some x ∧ x.data = some bytes ∧
      x.spec.element.decode bytes = .ok xs ∧
      v = ⟨x.spec.shape, (xs.map Scalar.ofSingle).toArray⟩ := by
  obtain ⟨x, hx, h⟩ := bind_eq_ok.1 h
  rw [lift_fault_eval_eq_ok, Table.get_eq_ok] at hx
  cases hdata : x.data with
  | none =>
    rw [hdata] at h
    cases h
  | some bytes => grind [bind_eq_ok, mapError_eq_ok, Value.eq_of_checked]

/-- What is held when a run that began with the values `st₀` has computed the operations `done`. -/
structure Solved (lim : Limit) (g : Graph) (st₀ : Values α) (done : List OpId) (st : Values α) :
    Prop where
  constant : ∀ t ∈ g.constants, ∃ v, constantValue lim g t = .ok v ∧ st.get? t = some v
  computed : Computed lim g done st
  kept : ∀ t, t ∉ g.constants → (∀ o op, o ∈ done → g.ops.get? o = some op → op.output ≠ t) →
    st.get? t = st₀.get? t

namespace Solved

theorem step (hg : g.WellFormed) (horder : g.IsOrder l) (hl : l = done ++ o :: rest)
    (hop : g.ops.get? o = some op) (h : Solved lim g st₀ done st)
    (hv : outputValue lim g st op = .ok v) :
    Solved lim g st₀ (done ++ [o]) (st.record op.output v) where
  constant t ht := by
    have hne : op.output ≠ t := fun heq => hg.not_source_of_output hop (heq ▸ mem_append_right _ ht)
    rw [get?_record, if_neg hne]
    exact h.constant t ht
  computed := h.computed.step hg horder hl hop hv
  kept t ht hout := by
    rw [get?_record, if_neg (hout o op (mem_append_right _ mem_cons_self) hop)]
    exact h.kept t ht fun o' op' ho' => hout o' op' (mem_append_left _ ho')

theorem input (hg : g.WellFormed) (h : Solved lim g st₀ done st) (ht : t ∈ g.inputs) :
    st.get? t = st₀.get? t :=
  h.kept t (hg.input_not_constant ht) fun _ _ _ hop heq =>
    hg.not_source_of_output hop (heq ▸ mem_append_left _ ht)

/-- Where all equations are solved, a run changes nothing. -/
theorem rerun (h : Solved lim g st₀ l st) (hl : g.order = .ok l) (horder : g.IsOrder l)
    (hfed : ∀ t ∈ g.inputs, st.get? t ≠ none) : (computeAll lim g).run st = (.ok (), st) := by
  have hend : After (computeAll lim g) st (fun _ st' => st' = st) fun _ _ => False := by
    refine .bind ((after_checkFed g st).imp ?_ fun _ _ ⟨_, t, ht, hnone, _⟩ => hfed t ht hnone)
    rintro _ st' ⟨rfl, -⟩
    refine .then_ (.forM (fun _ st' => st' = _) rfl ?_) ?_
    · rintro done t rest _ hconstants rfl
      obtain ⟨w, hw, hget⟩ := h.constant t (hconstants ▸ mem_append_right _ mem_cons_self)
      grind [after_check, after_hold, record_eq_self, After.bind]
    · rintro _ _ rfl
      refine .bind (after_check (fun l' hl' => ?_) fun e he => ?_)
      · cases (lift_fault_eval_eq_ok.2 hl).symm.trans hl'
        refine after_operations (fun _ st' => st' = _) horder rfl ?_ ?_
        · rintro done o rest op _ v rfl hop rfl hv
          obtain ⟨w, hw, hget⟩ := h.computed o op (mem_append_right _ mem_cons_self) hop
          grind [record_eq_self]
        · rintro done o rest op _ e rfl hop rfl he
          obtain ⟨w, hw, -⟩ := h.computed o op (mem_append_right _ mem_cons_self) hop
          cases hw.symm.trans he
      · cases (lift_fault_eval_eq_ok.2 hl).symm.trans he
  obtain ⟨_, _, hrun, rfl⟩ | ⟨_, _, -, hfalse⟩ := hend.run_cases
  · exact hrun
  · exact hfalse.elim

end Solved

/-- What a run that succeeds leaves behind. -/
theorem after_run (hg : g.WellFormed) (st₀ : Values α) : After (computeAll lim g) st₀
    (fun _ st => (∀ t ∈ g.inputs, st₀.get? t ≠ none) ∧
      ∃ l, g.order = .ok l ∧ g.IsOrder l ∧ Solved lim g st₀ l st) fun _ _ => True := by
  obtain ⟨l, hl, horder⟩ := hg.order_ok
  refine .bind ((after_checkFed g st₀).imp ?_ fun _ _ _ => trivial)
  rintro _ st ⟨rfl, hfed⟩
  refine .then_ (after_constants fun _ _ _ _ _ => trivial) ?_
  rintro _ st' ⟨hconstants, hkept⟩
  refine .bind (after_check (fun l' hl' => ?_) fun _ _ => trivial)
  cases (lift_fault_eval_eq_ok.2 hl).symm.trans hl'
  have hstart : Solved lim g st [] st' :=
    ⟨hconstants, fun _ _ ho => (by cases ho), fun t ht _ => hkept t ht⟩
  exact (after_operations (Solved lim g st) horder hstart
    (fun hl hop hst => hst.step hg horder hl hop) fun _ _ _ _ => trivial).mono
    fun _ _ h => ⟨hfed, l, hl, horder, h⟩

/-- **A run solves the equations of its graph**, whatever was fed before, and is then at rest. -/
theorem run_solves_equations (h : Graph.Reachable lim g) {feeds : List (TensorId × Array α)}
    (hfeeds : (feeds.forM fun p => feed lim g p.1 p.2).run .empty = (.ok (), st₀))
    (hrun : (computeAll lim g).run st₀ = (.ok (), st)) :
    (∃ l, g.order = .ok l ∧
      (∀ o ∈ l, ∃ op vs data, g.ops.get? o = some op ∧ held st op.inputs = .ok vs ∧
        compute lim op.kind vs (g.shapeOf op.output) = .ok data ∧
        st.get? op.output = some ⟨g.shapeOf op.output, data⟩) ∧
      ∀ t, t ∉ g.constants → (∀ o op, o ∈ l → g.ops.get? o = some op → op.output ≠ t) →
        st.get? t = (fedData feeds t).map fun data => ⟨g.shapeOf t, data⟩) ∧
    (∀ t ∈ g.constants, ∃ x bytes xs, g.tensors.get? t = some x ∧ x.data = some bytes ∧
      x.spec.element.decode bytes = .ok xs ∧
      st.get? t = some ⟨x.spec.shape, (xs.map Scalar.ofSingle).toArray⟩) ∧
    (∀ t ∈ g.inputs, ∃ data, fedData feeds t = some data ∧ st.get? t = some ⟨g.shapeOf t, data⟩) ∧
    (computeAll lim g).run st = (.ok (), st) := by
  have hg := h.wellFormed
  obtain ⟨-, hheld⟩ := (after_feeds (fun _ => rfl) fun _ _ _ => trivial :
    After _ _ _ fun _ _ => True).of_run hfeeds
  obtain ⟨hfed, l, hl, horder, hsolved⟩ := (after_run hg st₀).of_run hrun
  refine ⟨⟨l, hl, fun o ho => ?_, fun t ht hout => (hsolved.kept t ht hout).trans (hheld t)⟩,
    fun t ht => ?_, fun t ht => ?_, hsolved.rerun hl horder fun t ht => ?_⟩
  · obtain ⟨op, hop⟩ := horder.known ho
    obtain ⟨v, hv, hget⟩ := hsolved.computed o op ho hop
    obtain ⟨vs, data, hvs, hdata, rfl⟩ := outputValue_ok hop hg hv
    exact ⟨op, vs, data, hop, hvs, hdata, hget⟩
  · obtain ⟨v, hv, hget⟩ := hsolved.constant t ht
    obtain ⟨x, bytes, xs, hx, hbytes, hxs, rfl⟩ := constantValue_ok hv
    exact ⟨x, bytes, xs, hx, hbytes, hxs, hget⟩
  · have hsome := hfed t ht
    rw [hheld t] at hsome
    cases hdata : fedData feeds t with
    | none => exact absurd (by rw [hdata]; rfl) hsome
    | some data => exact ⟨data, rfl, by rw [hsolved.input hg ht, hheld t, hdata]; rfl⟩
  · rw [hsolved.input hg ht]
    exact hfed t ht

/-- A constant, a tensor that an operation computes and one that nothing writes. -/
def fedThroughout : List Call :=
  [.createTensor ⟨.f32, [2], .input, none⟩,
    .createConstant ⟨.u8, [2], .constant, none⟩ [2, 3], .createTensor ⟨.f32, [2], .transient, none⟩,
    .emit (.binary .mul) [⟨0⟩, ⟨1⟩] .transient, .emit (.binary .add) [⟨3⟩, ⟨2⟩] .output]

/-- All of them are fed, and the input twice. What was fed for the constant and for the product is
lost. -/
theorem run_solves_equations_fedThroughout :
    let g := build .word64 fedThroughout
    let feeds : List (TensorId × Array (Exact default)) := [(⟨0⟩, #[⟨1⟩, ⟨1⟩]), (⟨1⟩, #[⟨7⟩, ⟨7⟩]),
      (⟨3⟩, #[⟨8⟩, ⟨8⟩]), (⟨2⟩, #[⟨1⟩, ⟨2⟩]), (⟨0⟩, #[⟨5⟩, ⟨-5⟩])]
    let fed := (feeds.forM fun p => feed .word64 g p.1 p.2).run .empty
    let ran := (computeAll .word64 g).run fed.2
    fed.1 = .ok () ∧ ran.1 = .ok () ∧ (ran.2.get? ⟨4⟩).map (·.data) = some #[⟨11⟩, ⟨-13⟩] ∧
      (computeAll .word64 g).run ran.2 = (.ok (), ran.2) := by
  intro g feeds fed ran
  have h : Graph.Reachable .word64 g := reachable_iff_build.2 ⟨fedThroughout, rfl⟩
  have hfed : fed.1 = .ok () := by decide +kernel
  have hran : ran.1 = .ok () := by decide +kernel
  exact ⟨hfed, hran, by decide +kernel,
    (run_solves_equations h (Prod.ext hfed rfl) (Prod.ext hran rfl)).2.2.2⟩

end Evaluation

end CanvasFusion
