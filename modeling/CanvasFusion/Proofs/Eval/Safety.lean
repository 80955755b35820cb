import CanvasFusion.Proofs.Element
import CanvasFusion.Proofs.Eval.Evaluation
import CanvasFusion.Proofs.Eval.Yields
import CanvasFusion.Proofs.Graph.Reachable

/-!
# Evaluations do not fail by themselves

A kernel trusts the shapes of its operands, which were checked when its operation was bound. So what
has to be shown of an evaluation is that it holds, for every tensor, values of the shape that the
graph gives the tensor (`Fitting`). Each step keeps this, whether it succeeds or not.

**Theorem (evaluation_never_faults).** In a reachable graph every kernel fills the shape of its
output and all data can be decoded. A run ends well, or it lacks a feed, the data of a constant, or
the value of a tensor that nothing computes. Whatever it holds then has the shape of its tensor.

The graph may have cycles, and tensors that no operation writes. An operation on a cycle is in no
dependency order, so it is never computed.
-/

namespace CanvasFusion

open List CanvasFusion.Graph Ledger

/-- What a step leaves behind in any case. -/
theorem After.state {ε σ β : Type} {m : ExceptT ε (StateM σ) β} {s : σ} {P : σ → Prop}
    (h : After m s (fun _ s' => P s') fun _ s' => P s') : P (m.run s).2 := by
  obtain ⟨a, s', hrun, hs'⟩ | ⟨e, s', hrun, hs'⟩ := h.run_cases
  · rw [hrun]
    exact hs'
  · rw [hrun]
    exact hs'

variable {α : Type} {g : Graph} {t : TensorId} {x : Tensor} {o : OpId} {op : Operation}
  {st : Values α} {v : Value α} {e : EvalError} {ts : List TensorId} {vs : List (Value α)}

namespace Evaluation

/-! ## Values that fit their tensors -/

/-- Every value held fills the shape of its tensor. -/
def Fitting (g : Graph) (st : Values α) : Prop :=
  ∀ t v, st.get? t = some v → ∃ x, g.tensors.get? t = some x ∧ v.shape = x.spec.shape ∧ v.Full

theorem fitting_empty (g : Graph) : Fitting g (.empty : Values α) := by
  intro t v hv
  cases hv

theorem Fitting.record (h : Fitting g st) (hx : g.tensors.get? t = some x)
    (hshape : v.shape = x.spec.shape) (hfull : v.Full) : Fitting g (st.record t v) := by
  intro u w hw
  rw [get?_record] at hw
  by_cases htu : t = u
  · grind
  · rw [if_neg htu] at hw
    exact h u w hw

/-- The operands of an operation have the shapes that it was checked for. -/
theorem Fitting.operands (h : Fitting g st) (hvs : held st ts = .ok vs) :
    (∀ w ∈ vs, w.Full) ∧ vs.map (·.shape) = ts.map g.shapeOf := by
  have hheld := held_eq_ok.1 hvs
  constructor
  · intro w hw
    obtain ⟨t, -, ht⟩ := forall₂_right_mem hheld hw
    obtain ⟨x, -, -, hfull⟩ := h t w ht
    exact hfull
  · apply Eq.symm
    apply map_eq_map_of_forall₂ hheld
    intro t w _ _ ht
    obtain ⟨x, hx, hshape, -⟩ := h t w ht
    rw [shapeOf_eq hx, hshape]

end Evaluation

/-! ## Kernels and data -/

/-- The data of a tensor encode one value for each element. -/
theorem Graph.Checked.exists_decode (hg : g.Checked .unbounded) (hx : g.tensors.get? t = some x)
    {bytes : List UInt8} (hdata : x.data = some bytes) :
    ∃ xs, x.spec.element.decode bytes = .ok xs ∧ xs.length = x.spec.shape.prod := by
  have hsize := hg.data hx hdata
  rw [TensorSpec.byteSize, Operator.count_unbounded, bind_ok, Limit.mul_unbounded] at hsize
  exact x.spec.element.exists_decode (Except.ok.inj hsize).symm

/-- The kernel of an operation fills the shape of its output. -/
theorem Graph.WellFormed.exists_compute [Scalar α] (hg : g.WellFormed)
    (hop : g.ops.get? o = some op) (hfull : ∀ w ∈ vs, w.Full)
    (hshapes : vs.map (·.shape) = op.inputs.map g.shapeOf) :
    ∃ data, compute .unbounded op.kind vs (g.shapeOf op.output) = .ok data ∧
      data.size = (g.shapeOf op.output).prod := by
  have hinfer := hg.op_shape hop
  rw [← hshapes] at hinfer
  obtain ⟨y, hy, hshape, hy'⟩ := exists_yields hfull hinfer
  rw [← hshape]
  exact ⟨y.data, hy.data, hy'⟩

namespace Evaluation

/-! ## Errors of single steps -/

/-- Values cannot be collected only if one of them is not held. The first one is complained
about. -/
theorem held_error (h : held st ts = .error e) :
    ∃ t, ts.find? (fun t => !st.contains t) = some t ∧ e = .unevaluated t := by
  induction ts with
  | nil => cases h
  | cons t rest ih =>
    unfold held at h
    rw [mapM_cons] at h
    cases hv : st.get? t with
    | none =>
      rw [hv] at h
      cases h
      grind [Ledger.contains]
    | some v =>
      rw [hv, bind_ok] at h
      rw [find?_cons_of_neg (by simp [Ledger.contains, hv])]
      refine ih ?_
      change (held st rest >>= fun vs => .ok (v :: vs)) = _ at h
      cases hrest : held st rest with
      | error e' =>
        rw [hrest] at h
        exact h
      | ok ws =>
        rw [hrest] at h
        cases h

/-! ## What a run lacks -/

/-- What a run can lack: a feed, the data of a constant, or a value that was not fed and that no
operation computes. -/
inductive Lacks (g : Graph) (st : Values α) : EvalError → Prop where
  | feed {t : TensorId} (ht : t ∈ g.inputs) (hnone : st.get? t = none) :
    Lacks g st (.missingFeed t)
  | data {t : TensorId} {x : Tensor} (hx : g.tensors.get? t = some x)
    (hrole : x.spec.role = .constant) (hnone : x.data = none) : Lacks g st (.missingData t)
  | value {t : TensorId} {x : Tensor} {o : OpId} {op : Operation} (hx : g.tensors.get? t = some x)
    (hrole : x.spec.role.isWritable = true) (hproducer : x.producer = none)
    (hop : g.ops.get? o = some op) (ht : t ∈ op.inputs) (hnone : st.get? t = none) :
    Lacks g st (.unevaluated t)

/-- The values held fit their tensors, and those of some tensors are held. -/
structure Ready (g : Graph) (ts : List TensorId) (st : Values α) : Prop where
  fitting : Fitting g st
  holds : ∀ t ∈ ts, st.get? t ≠ none

theorem Ready.record (h : Ready g ts st) (hx : g.tensors.get? t = some x)
    (hshape : v.shape = x.spec.shape) (hfull : v.Full) : Ready g (ts ++ [t]) (st.record t v) := by
  refine ⟨h.fitting.record hx hshape hfull, ?_⟩
  intro u hu
  rw [get?_record]
  by_cases htu : t = u
  · simp [htu]
  · rw [if_neg htu]
    simp only [mem_append, mem_singleton, Ne.symm htu, or_false] at hu
    exact h.holds u hu

theorem after_feed (h : Fitting g st) (t : TensorId) (data : Array α) :
    After (feed .unbounded g t data) st (fun _ st' => Fitting g st') fun _ st' =>
      Fitting g st' := by
  refine .bind (after_check (fun x hx => ?_) fun _ _ => h)
  rw [lift_graph_eval_eq_ok, tensor_eq_ok] at hx
  refine .bind (after_check (fun v hv => after_hold ?_) fun _ _ => h)
  obtain ⟨hsize, rfl⟩ := Value.checked_eq_ok.1 hv
  exact h.record hx rfl hsize

theorem after_checkFed (g : Graph) (st : Values α) :
    After (checkFed g) st (fun _ st' => st' = st ∧ ∀ t ∈ g.inputs, st.get? t ≠ none)
      fun e st' => st' = st ∧ ∃ t ∈ g.inputs, st.get? t = none ∧ e = .missingFeed t := by
  refine .bind (.get ?_)
  cases hfind : g.inputs.find? fun t => !st.contains t with
  | some t =>
    have hnot := find?_some hfind
    refine .throw ⟨rfl, t, mem_of_find?_eq_some hfind, ?_, rfl⟩
    simpa [Ledger.contains] using hnot
  | none =>
    refine .pure ⟨rfl, ?_⟩
    intro t ht
    have hheld := find?_eq_none.1 hfind t ht
    simpa [Ledger.contains, Option.isSome_iff_ne_none] using hheld

variable [Scalar α]

/-- A constant has no value only if it has no data. -/
theorem constantValue_error (hg : g.Checked .unbounded) (hx : g.tensors.get? t = some x)
    (h : (constantValue .unbounded g t : Except EvalError (Value α)) = .error e) :
    x.data = none ∧ e = .missingData t := by
  cases hdata : x.data with
  | none =>
    simp only [constantValue, Table.get_eq_ok.2 hx, lift_fault_eval_ok, bind_ok, hdata] at h
    cases h
    exact ⟨rfl, rfl⟩
  | some bytes =>
    obtain ⟨xs, hxs, hlen⟩ := hg.exists_decode hx hdata
    have hok : x.Holds (α := α) _ := ⟨bytes, xs, hdata, hxs, hlen, rfl⟩
    rw [constantValue_eq_ok.2 ⟨x, hx, hok⟩] at h
    cases h

/-- An operation cannot be computed only if one of its operands is not held. -/
theorem outputValue_error (hg : g.WellFormed) (hst : Fitting g st) (hop : g.ops.get? o = some op)
    (h : outputValue .unbounded g st op = .error e) :
    ∃ t ∈ op.inputs, st.get? t = none ∧ e = .unevaluated t := by
  cases hvs : held st op.inputs with
  | error e' =>
    unfold outputValue at h
    rw [hvs] at h
    cases h
    obtain ⟨t, hfind, rfl⟩ := held_error hvs
    have hnot := find?_some hfind
    exact ⟨t, mem_of_find?_eq_some hfind, by simpa [Ledger.contains] using hnot, rfl⟩
  | ok vs =>
    obtain ⟨y, hy⟩ := hg.output_known hop
    obtain ⟨hfull, hshapes⟩ := hst.operands hvs
    obtain ⟨data, hdata, hsize⟩ := hg.exists_compute hop hfull hshapes
    rw [(outputValue_eq_ok hy).2 ⟨vs, data, held_eq_ok.1 hvs, hdata, hsize, rfl⟩] at h
    cases h

/-! ## Runs -/

/-- The constants are taken. Each one has a value, or no data. -/
theorem after_constants_held (hg : g.Checked .unbounded) (h : Ready g g.inputs st) :
    After (g.constants.forM fun t => do
        let v ← check (constantValue .unbounded g t)
        hold t v) st
      (fun _ st' => Ready g g.sources st') fun e st' => Lacks g st' e ∧ Fitting g st' := by
  refine .forM (fun done st' => Ready g (g.inputs ++ done) st') (by rwa [append_nil]) ?_
  intro done t rest st' hconstants hready
  have hmem : t ∈ g.constants := hconstants ▸ mem_append_right _ mem_cons_self
  obtain ⟨x, hx, hrole⟩ := mem_constants.1 hmem
  refine .bind (after_check (fun v hv => after_hold ?_) fun e he => ?_)
  · grind [constantValue_eq_ok, Ready.record, Tensor.Holds.shape_eq, Tensor.Holds.full]
  · obtain ⟨hnone, rfl⟩ := constantValue_error hg hx he
    exact ⟨.data hx hrole hnone, hready.fitting⟩

/-- The outputs of some operations. -/
def written (g : Graph) (os : List OpId) : List TensorId :=
  os.filterMap fun o => (g.ops.get? o).map (·.output)

/-- The operations of the order are computed. An operand that is not held then has no writer, since
the writers of the operands come first. -/
theorem after_operations_held (hg : g.WellFormed) {l : List OpId} (horder : g.IsOrder l)
    (h : Ready g g.sources st) :
    After (l.forM fun id => do
        let op ← check (liftM (g.ops.get id))
        let v ← check (outputValue .unbounded g (← get) op)
        hold op.output v) st
      (fun _ st' => Fitting g st') fun e st' => Lacks g st' e ∧ Fitting g st' := by
  refine (after_operations (fun done st' => Ready g (g.sources ++ written g done) st') horder
    (by rwa [written, filterMap_nil, append_nil]) ?_ ?_).mono fun _ _ hready => hready.fitting
  · intro done o rest op st' v hl hop hready hv
    obtain ⟨y, hy⟩ := hg.output_known hop
    obtain ⟨vs, data, -, -, hsize, rfl⟩ := (outputValue_eq_ok hy).1 hv
    have hwritten : written g (done ++ [o]) = written g done ++ [op.output] := by
      simp [written, hop]
    rw [hwritten, ← append_assoc]
    exact hready.record hy (shapeOf_eq hy) hsize
  · intro done o rest op st' e hl hop hready he
    obtain ⟨t, ht, hnone, rfl⟩ := outputValue_error hg hready.fitting hop he
    obtain ⟨x, hx⟩ := hg.input_known hop ht
    refine ⟨.value hx ?_ ?_ hop ht hnone, hready.fitting⟩
    · by_contra hrole
      grind [WellFormed.mem_sources, Ready.holds]
    · by_contra hproducer
      obtain ⟨p, hp⟩ := Option.ne_none_iff_exists'.1 hproducer
      grind [producer, written, WellFormed.producer_iff, IsOrder.writers_before, Ready.holds]

/-- How a run ends. -/
theorem after_computeAll (hg : g.WellFormed) (hc : g.Checked .unbounded) (h : Fitting g st) :
    After (computeAll .unbounded g) st (fun _ st' => Fitting g st')
      fun e st' => Lacks g st' e ∧ Fitting g st' := by
  obtain ⟨l, hl, horder⟩ := hg.order_ok
  refine .bind ((after_checkFed g st).imp ?_ ?_)
  · intro _ st' hfed
    obtain ⟨rfl, hinputs⟩ := hfed
    refine .then_ (after_constants_held hc ⟨h, hinputs⟩) ?_
    intro _ st'' hready
    refine .bind (after_check (fun l' hl' => ?_) fun e he => ?_)
    · grind [lift_fault_eval_eq_ok, after_operations_held]
    · rw [lift_fault_eval_eq_ok.2 hl] at he
      cases he
  · intro e st' herr
    obtain ⟨rfl, t, ht, hnone, rfl⟩ := herr
    exact ⟨.feed ht hnone, h⟩

/-- The values held after some feeds and runs, whether they succeeded or not. -/
inductive Session (g : Graph) : Values α → Prop where
  | start : Session g .empty
  | feed {st : Values α} (h : Session g st) (t : TensorId) (data : Array α) :
    Session g ((Evaluation.feed .unbounded g t data).run st).2
  | run {st : Values α} (h : Session g st) : Session g ((computeAll .unbounded g).run st).2

theorem Session.fitting (hg : g.WellFormed) (hc : g.Checked .unbounded) (h : Session g st) :
    Fitting g st := by
  induction h with
  | start => exact fitting_empty g
  | feed _ t data ih => exact (after_feed ih t data).state
  | run _ ih =>
    exact ((after_computeAll hg hc ih).imp (fun _ _ hst => hst) fun _ _ hst => hst.2).state

/-- **An evaluation fails only for what it was not given.** -/
theorem evaluation_never_faults (h : Graph.Reachable .unbounded g) :
    (∀ o op, g.ops.get? o = some op → ∀ vs : List (Value α), (∀ v ∈ vs, v.Full) →
      vs.map (·.shape) = op.inputs.map g.shapeOf →
      ∃ data, compute .unbounded op.kind vs (g.shapeOf op.output) = .ok data ∧
        data.size = (g.shapeOf op.output).prod) ∧
    (∀ t x bytes, g.tensors.get? t = some x → x.data = some bytes →
      ∃ xs, x.spec.element.decode bytes = .ok xs ∧ xs.length = x.spec.shape.prod) ∧
    ∀ st : Values α, Session g st →
      After (computeAll .unbounded g) st (fun _ st' => Fitting g st')
        fun e st' => Lacks g st' e ∧ Fitting g st' := by
  refine ⟨?_, ?_, ?_⟩
  · intro o op hop vs hfull hshapes
    exact h.wellFormed.exists_compute hop hfull hshapes
  · intro t x bytes hx hdata
    exact h.checked.exists_decode hx hdata
  · intro st hst
    exact after_computeAll h.wellFormed h.checked (hst.fitting h.wellFormed h.checked)

/-- Two operations on a cycle, and one that reads a tensor nothing writes. All extents hold a
zero. -/
def halfWritten : List Graph.Call :=
  [.createTensor ⟨.f32, [2, 0], .input, none⟩, .createTensor ⟨.f32, [2, 0], .transient, none⟩,
    .createTensor ⟨.f32, [2, 0], .transient, none⟩, .addOp (.binary .add) [⟨1⟩, ⟨0⟩] [⟨2⟩],
    .addOp (.activation .relu) [⟨2⟩] [⟨1⟩], .createTensor ⟨.f32, [2, 0], .transient, none⟩,
    .emit (.softmax 1) [⟨0⟩] .transient, .emit (.binary .add) [⟨4⟩, ⟨3⟩] .output]

theorem evaluation_never_faults_halfWritten :
    (Graph.build .unbounded halfWritten).order = .ok [⟨2⟩, ⟨3⟩] ∧
    ∃ st : Values (Exact default),
      (feed .unbounded (Graph.build .unbounded halfWritten) ⟨0⟩ #[]).run .empty = (.ok (), st) ∧
      ((computeAll .unbounded (Graph.build .unbounded halfWritten)).run st).1 =
        .error (.unevaluated ⟨3⟩) ∧
      After (computeAll .unbounded (Graph.build .unbounded halfWritten)) st
        (fun _ st' => Fitting (Graph.build .unbounded halfWritten) st')
        fun e st' => Lacks (Graph.build .unbounded halfWritten) st' e ∧
          Fitting (Graph.build .unbounded halfWritten) st' := by
  have h : Graph.Reachable .unbounded (Graph.build .unbounded halfWritten) :=
    Graph.reachable_iff_build.2 ⟨halfWritten, rfl⟩
  refine ⟨by decide +kernel, _, rfl, by decide +kernel, ?_⟩
  exact (evaluation_never_faults h).2.2 _ (.feed .start ⟨0⟩ #[])

end Evaluation

end CanvasFusion
