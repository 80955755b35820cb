import CanvasFusion.Proofs.Eval.Index
import CanvasFusion.Proofs.Graph.Order

/-!
# What an evaluation holds

An evaluation feeds the inputs, takes the constants and computes the operations of the dependency
order. A tensor is written by one operation, so once an operation has been computed its inputs and
its output stay as they are, and what holds of the values right after a step holds of the values at
the end.

**Theorem (evaluate_sound).** An evaluation that goes through holds the fed data, the constants, and
for each operation of the order the output that its kernel computes from the values held.

`Denotes` says which value a tensor of a graph stands for, without an order.

**Theorem (evaluate_complete).** If the sources of a well-formed graph and the outputs of its
operations stand for values, the evaluation goes through, and holds these values.
-/

namespace CanvasFusion

open List CanvasFusion.Graph Ledger Value

variable {α : Type} {g : Graph} {t : TensorId} {o : OpId} {op : Operation}
  {feeds : List (TensorId × Array α)} {st st' : Values α} {v : Value α} {lim : Limit}
  {l done rest : List OpId} {data : Array α} {x : Tensor} {E : EvalError → Values α → Prop}
  {shape : Shape} {ts : List TensorId}

open Evaluation

/-! ## Values and feeds -/

theorem Value.checked_eq_ok :
    checked .unbounded shape data = .ok v ↔ data.size = shape.prod ∧ v = ⟨shape, data⟩ := by
  unfold checked
  rw [Operator.count_unbounded, lift_fault_eval_ok, bind_ok]
  by_cases h : shape.prod = data.size
  · simp only [h, ne_eq, not_true_eq_false, if_false, true_and]
    exact ⟨fun he => (Except.ok.inj he).symm, fun he => congrArg Except.ok he.symm⟩
  · simp only [ne_eq, h, not_false_eq_true, if_true]
    exact ⟨fun he => (by cases he), fun he => absurd he.1.symm h⟩

theorem Value.eq_of_checked (h : checked lim shape data = .ok v) : v = ⟨shape, data⟩ := by
  obtain ⟨n, -, h⟩ := bind_eq_ok.1 h
  split at h
  · cases h
  · exact (Except.ok.inj h).symm

theorem held_eq_ok {vs : List (Value α)} :
    held st ts = .ok vs ↔ List.Forall₂ (fun t v => st.get? t = some v) ts vs := by
  unfold held
  rw [mapM_eq_ok_iff]
  grind

theorem held_congr (h : ∀ t ∈ ts, st'.get? t = st.get? t) : held st' ts = held st ts := by
  unfold held
  induction ts with
  | nil => rfl
  | cons t rest ih => grind

/-- The data fed last for a tensor. -/
def fedData (feeds : List (TensorId × Array α)) (t : TensorId) : Option (Array α) :=
  feeds.foldl (fun last p => if p.1 = t then some p.2 else last) none

theorem fedData_append (feeds : List (TensorId × Array α)) (p : TensorId × Array α) (t : TensorId) :
    fedData (feeds ++ [p]) t = if p.1 = t then some p.2 else fedData feeds t := by
  rw [fedData, foldl_append]
  rfl

theorem mem_of_fedData (h : fedData feeds t = some data) : (t, data) ∈ feeds := by
  induction feeds using reverseRecOn with
  | nil => cases h
  | append_singleton feeds p ih => grind [fedData_append]

/-- The data of a feed fills the tensor that is fed. -/
def Fits (g : Graph) (p : TensorId × Array α) : Prop :=
  ∃ x, g.tensors.get? p.1 = some x ∧ p.2.size = x.spec.shape.prod

/-- The tensor that is fed takes the data of a feed. -/
def Accepts (lim : Limit) (g : Graph) (p : TensorId × Array α) : Prop :=
  ∃ x, g.tensors.get? p.1 = some x ∧ checked lim x.spec.shape p.2 = .ok ⟨x.spec.shape, p.2⟩

theorem accepts_unbounded {p : TensorId × Array α} : Accepts .unbounded g p ↔ Fits g p := by
  unfold Accepts Fits
  simp only [checked_eq_ok, and_true]

theorem after_check {β : Type} {x : Except EvalError β} {Q : β → Values α → Prop}
    (hok : ∀ a, x = .ok a → Q a st) (herr : ∀ e, x = .error e → E e st) :
    After (check x) st Q E := After.ofExcept hok herr

theorem after_hold {Q : Unit → Values α → Prop} (h : Q () (st.record t v)) :
    After (hold t v) st Q E := After.modify h

/-- After feeding, a tensor holds what was fed last for it. -/
theorem after_feeds {f : TensorId × Array α → Evaluation α Unit}
    (hf : ∀ p, f p = feed lim g p.1 p.2)
    (herr : ∀ e st, (∃ p ∈ feeds, ¬ Accepts lim g p) → E e st) :
    After (feeds.forM f) .empty
      (fun _ st => (∀ p ∈ feeds, Accepts lim g p) ∧
        ∀ t, st.get? t = (fedData feeds t).map fun data => ⟨g.shapeOf t, data⟩) E := by
  refine .forM (fun done (st : Values α) => (∀ p ∈ done, Accepts lim g p) ∧
    ∀ t, st.get? t = (fedData done t).map fun data => ⟨g.shapeOf t, data⟩)
    ⟨fun p hp => (by cases hp), fun t => rfl⟩ ?_
  rintro done ⟨t, data⟩ rest st hfeeds ⟨haccepts, hheld⟩
  have hmem : (t, data) ∈ feeds := hfeeds ▸ mem_append_right _ mem_cons_self
  rw [hf]
  refine .bind (after_check (fun x hx => ?_) fun e he => herr e st ⟨_, hmem, ?_⟩)
  · rw [lift_graph_eval_eq_ok, tensor_eq_ok] at hx
    refine .bind (after_check (fun v hv => after_hold ?_) fun e he => herr e st ⟨_, hmem, ?_⟩)
    · cases eq_of_checked hv
      refine ⟨fun p hp => ?_, fun t' => ?_⟩
      · rcases mem_append.1 hp with hp | hp
        · exact haccepts p hp
        · exact mem_singleton.1 hp ▸ ⟨x, hx, hv⟩
      · grind [get?_record, fedData_append, shapeOf_eq]
    · rintro ⟨y, hy, hok⟩
      cases hx.symm.trans hy
      rw [hok] at he
      cases he
  · rintro ⟨y, hy, -⟩
    rw [lift_graph_eval_eq_ok.2 (tensor_eq_ok.2 hy)] at he
    cases he

variable [Scalar α]

/-! ## Single steps -/

/-- The value of a constant. -/
def Tensor.Holds (x : Tensor) (v : Value α) : Prop :=
  ∃ bytes xs, x.data = some bytes ∧ x.spec.element.decode bytes = .ok xs ∧
    xs.length = x.spec.shape.prod ∧ v = ⟨x.spec.shape, (xs.map Scalar.ofSingle).toArray⟩

theorem Tensor.Holds.unique {w : Value α} (hv : x.Holds v) (hw : x.Holds w) : v = w := by
  obtain ⟨bytes, xs, hbytes, hxs, -, rfl⟩ := hv
  obtain ⟨bytes', xs', hbytes', hxs', -, rfl⟩ := hw
  cases hbytes.symm.trans hbytes'
  cases hxs.symm.trans hxs'
  rfl

theorem Tensor.Holds.shape_eq (h : x.Holds v) : v.shape = x.spec.shape := by
  obtain ⟨-, -, -, -, -, rfl⟩ := h
  rfl

theorem Tensor.Holds.full (h : x.Holds v) : v.Full := by
  obtain ⟨bytes, xs, -, -, hlen, rfl⟩ := h
  rw [Value.Full, size_toArray, length_map]
  exact hlen

theorem constantValue_eq_ok : constantValue .unbounded g t = .ok v ↔
    ∃ x, g.tensors.get? t = some x ∧ x.Holds v := by
  unfold constantValue
  simp only [bind_eq_ok, lift_fault_eval_eq_ok, Table.get_eq_ok]
  refine exists_congr fun x => and_congr_right fun _ => ?_
  unfold Tensor.Holds
  split
  · rename_i hdata
    rw [hdata]
    constructor
    · intro h
      cases h
    · rintro ⟨_, _, h, _⟩
      cases h
  · rename_i bytes hdata
    simp only [hdata, Option.some.injEq, exists_and_left, exists_eq_left', bind_eq_ok,
      mapError_eq_ok, checked_eq_ok, size_toArray, length_map]

theorem eq_map_of_forall₂ {ι β : Type} {f : ι → Option β} {g : ι → β} {ts : List ι} {vs : List β}
    (h : List.Forall₂ (fun t v => f t = some v) ts vs) (hg : ∀ t ∈ ts, f t = some (g t)) :
    vs = ts.map g := by
  induction h with
  | nil => rfl
  | cons hv _ ih => grind

/-- The value of an operation's output, by the values of its inputs. -/
theorem outputValue_eq_ok (hx : g.tensors.get? op.output = some x) :
    outputValue .unbounded g st op = .ok v ↔
      ∃ vs data, List.Forall₂ (fun t v => st.get? t = some v) op.inputs vs ∧
        compute .unbounded op.kind vs (g.shapeOf op.output) = .ok data ∧
        data.size = (g.shapeOf op.output).prod ∧ v = ⟨g.shapeOf op.output, data⟩ := by
  unfold outputValue
  rw [shape_ok hx]
  simp only [bind_eq_ok, held_eq_ok, lift_fault_eval_ok, bind_ok, lift_fault_eval_eq_ok,
    checked_eq_ok, exists_and_left]

theorem outputValue_congr {st' : Values α} (h : ∀ t ∈ op.inputs, st'.get? t = st.get? t) :
    outputValue lim g st' op = outputValue lim g st op := by
  unfold outputValue
  rw [held_congr h]

theorem Graph.WellFormed.input_not_constant (hg : g.WellFormed) (ht : t ∈ g.inputs) :
    t ∉ g.constants := by
  grind [mem_constants, mem_inputs]

/-! ## What is held -/

/-- What is held after the operations `done` have been computed. -/
structure Held (g : Graph) (feeds : List (TensorId × Array α)) (done : List OpId) (st : Values α) :
    Prop where
  input : ∀ {t}, t ∈ g.inputs → ∃ data, fedData feeds t = some data ∧
    data.size = (g.shapeOf t).prod ∧ st.get? t = some ⟨g.shapeOf t, data⟩
  constant : ∀ {t}, t ∈ g.constants → ∃ x v, g.tensors.get? t = some x ∧ x.Holds v ∧
    st.get? t = some v
  computed : ∀ {o op}, o ∈ done → g.ops.get? o = some op →
    ∃ v, outputValue .unbounded g st op = .ok v ∧ st.get? op.output = some v

/-- Each of some operations holds what its kernel computes from the values held. -/
def Computed (lim : Limit) (g : Graph) (done : List OpId) (st : Values α) : Prop :=
  ∀ o op, o ∈ done → g.ops.get? o = some op →
    ∃ v, outputValue lim g st op = .ok v ∧ st.get? op.output = some v

section Step

variable (hg : g.WellFormed) (horder : g.IsOrder l) (hl : l = done ++ o :: rest)
  (hop : g.ops.get? o = some op)

include hg horder hl hop

/-- One more operation is computed. Nothing that was computed before reads or writes its output. -/
theorem Computed.step (h : Computed lim g done st) (hv : outputValue lim g st op = .ok v) :
    Computed lim g (done ++ [o]) (st.record op.output v) := by
  have hnodup : (done ++ o :: rest).Nodup := hl ▸ horder.nodup
  have hnew : o ∉ done := fun hmem =>
    (disjoint_of_nodup_append hnodup) hmem mem_cons_self
  have hkeep : ∀ {t}, t ≠ op.output → (st.record op.output v).get? t = st.get? t := fun hne => by
    rw [get?_record, if_neg fun h => hne h.symm]
  -- An operation up to `o` does not read the output of `o`.
  have hreads : ∀ {d r o' op'}, l = d ++ o' :: r → o ∉ d → g.ops.get? o' = some op' →
      ∀ t ∈ op'.inputs, t ≠ op.output := by
    grind [IsOrder.writers_before, WellFormed.producer_output]
  intro o' op' ho' hop'
  rcases mem_append.1 ho' with hmem | hmem
  · obtain ⟨w, hw, hget⟩ := h o' op' hmem hop'
    obtain ⟨d, r, rfl⟩ := append_of_mem hmem
    have hin := hreads (by rw [hl, append_assoc, cons_append])
      (fun hd => hnew (mem_append_left _ hd)) hop'
    have hne : op'.output ≠ op.output := fun heq =>
      hnew (hg.op_eq_of_output hop' hop heq ▸ hmem)
    exact ⟨w, (outputValue_congr fun t ht => hkeep (hin t ht)).trans hw, (hkeep hne).trans hget⟩
  · rw [mem_singleton] at hmem
    subst hmem
    rw [Option.some.inj (hop'.symm.trans hop)]
    have hin := hreads hl hnew hop
    exact ⟨v, (outputValue_congr fun t ht => hkeep (hin t ht)).trans
      hv, by rw [get?_record, if_pos rfl]⟩

theorem Held.step (h : Held g feeds done st) (hv : outputValue .unbounded g st op = .ok v) :
    Held g feeds (done ++ [o]) (st.record op.output v) := by
  have hsource : ∀ {t}, t ∈ g.sources → (st.record op.output v).get? t = st.get? t := fun ht => by
    rw [get?_record, if_neg fun (heq : op.output = _) => hg.not_source_of_output hop (heq ▸ ht)]
  constructor
  case input =>
    intro t ht
    obtain ⟨data, hfed, hsize, hget⟩ := h.input ht
    exact ⟨data, hfed, hsize, (hsource (mem_append_left _ ht)).trans hget⟩
  case constant =>
    intro t ht
    obtain ⟨x, w, hx, hholds, hget⟩ := h.constant ht
    exact ⟨x, w, hx, hholds, (hsource (mem_append_right _ ht)).trans hget⟩
  case computed =>
    intro o' op' ho' hop'
    exact Computed.step hg horder hl hop (fun _ _ => h.computed) hv o' op' ho' hop'

end Step

/-! ## The phases -/

/-- The constants are taken; nothing else changes. -/
theorem after_constants {st₀ : Values α}
    (herr : ∀ t e st, t ∈ g.constants → constantValue (α := α) lim g t = .error e → E e st) :
    After (g.constants.forM fun t => do
        let v ← check (constantValue lim g t)
        hold t v) st₀
      (fun _ st => (∀ t ∈ g.constants, ∃ v, constantValue lim g t = .ok v ∧ st.get? t = some v) ∧
        ∀ t, t ∉ g.constants → st.get? t = st₀.get? t) E := by
  refine .forM (fun done (st : Values α) => (∀ t ∈ done, ∃ v, constantValue lim g t = .ok v ∧
      st.get? t = some v) ∧ ∀ t, t ∉ done → st.get? t = st₀.get? t)
    ⟨fun t ht => (by cases ht), fun t _ => rfl⟩ ?_
  rintro done t rest st hconstants ⟨htaken, hrest⟩
  have hmem : t ∈ g.constants := hconstants ▸ mem_append_right _ mem_cons_self
  refine .bind (after_check (fun v hv => after_hold ⟨fun t' ht' => ?_, fun t' ht' => ?_⟩)
    fun e he => herr t e st hmem he)
  · rw [get?_record]
    grind
  · rw [get?_record, if_neg fun heq => ht' ?_]
    · exact hrest t' fun h => ht' (mem_append_left _ h)
    · exact mem_append_right _ (heq ▸ mem_singleton_self _)

/-- The operations of the order are computed one after the other. -/
theorem after_operations (I : List OpId → Values α → Prop) (horder : g.IsOrder l) (h0 : I [] st)
    (hok : ∀ {done o rest op st v}, l = done ++ o :: rest → g.ops.get? o = some op → I done st →
      outputValue lim g st op = .ok v → I (done ++ [o]) (st.record op.output v))
    (herr : ∀ {done o rest op st e}, l = done ++ o :: rest → g.ops.get? o = some op → I done st →
      outputValue lim g st op = .error e → E e st) :
    After (l.forM fun id => do
        let op ← check (liftM (g.ops.get id))
        let v ← check (outputValue lim g (← get) op)
        hold op.output v) st (fun _ st => I l st) E := by
  refine .forM I h0 fun done o rest st hl hst => ?_
  obtain ⟨op, hop⟩ := horder.known (hl ▸ mem_append_right _ mem_cons_self)
  have hget : (liftM (g.ops.get o) : Except EvalError Operation) = .ok op :=
    lift_fault_eval_eq_ok.2 (Table.get_eq_ok.2 hop)
  refine .bind (after_check (fun op' hop' => ?_) fun e he => by rw [hget] at he; cases he)
  grind [after_check, after_hold, After.bind, After.get]

/-- Why an evaluation does not go through: a feed does not fit, an input is not fed, a constant has
no value, or an operation cannot be computed from the values held. -/
inductive Stuck (g : Graph) (feeds : List (TensorId × Array α)) (e : EvalError) (st : Values α) :
    Prop where
  | feed (h : ∃ p ∈ feeds, ¬ Fits g p)
  | input (h : ∃ t ∈ g.inputs, fedData feeds t = none)
  | constant (h : ∃ t ∈ g.constants, ∀ x v, g.tensors.get? t = some x → ¬ x.Holds (α := α) v)
  | operation {l done rest : List OpId} {o : OpId} {op : Operation} (horder : g.IsOrder l)
      (hl : l = done ++ o :: rest) (hop : g.ops.get? o = some op) (hst : Held g feeds done st)
      (he : outputValue .unbounded g st op = .error e)

variable (feeds) in
/-- How an evaluation ends. -/
theorem after_evaluation (hg : g.WellFormed) {f : TensorId × Array α → Evaluation α Unit}
    (hf : ∀ p, f p = feed .unbounded g p.1 p.2) :
    After (feeds.forM f >>= fun _ => computeAll .unbounded g) .empty
      (fun _ st => (∀ p ∈ feeds, Fits g p) ∧ ∃ l, g.IsOrder l ∧ Held g feeds l st)
      (Stuck g feeds) := by
  obtain ⟨l, hl, horder⟩ := hg.order_ok
  refine .then_ (after_feeds hf fun e st h => .feed ?_) ?_
  · grind [accepts_unbounded]
  rintro _ st ⟨haccepts, hfed⟩
  have hfits : ∀ p ∈ feeds, Fits g p := fun p hp => accepts_unbounded.1 (haccepts p hp)
  refine .bind (.bind (.get ?_))
  split
  · rename_i t hfind
    refine .throw (.input ⟨t, mem_of_find?_eq_some hfind, ?_⟩)
    have hnot := find?_some hfind
    rw [Ledger.contains, hfed t] at hnot
    cases hdata : fedData feeds t with
    | none => rfl
    | some data => simp [hdata] at hnot
  · rename_i hfind
    refine .pure ?_
    refine .then_ (after_constants fun t e st ht he => .constant ⟨t, ht, fun x v hx hv => ?_⟩) ?_
    · rw [constantValue_eq_ok.2 ⟨x, hx, hv⟩] at he
      cases he
    rintro _ st' ⟨hconst, hrest⟩
    refine .bind (after_check (fun l' hl' => ?_) fun e he => ?_)
    · cases (lift_fault_eval_eq_ok.2 hl).symm.trans hl'
      have hstart : Held g feeds [] st' := by
        refine ⟨fun {t} ht => ?_, fun {t} ht => ?_, fun ho => (by cases ho)⟩
        swap
        · grind [constantValue_eq_ok]
        have hheld := find?_eq_none.1 hfind t ht
        rw [Ledger.contains, hfed t] at hheld
        cases hdata : fedData feeds t with
        | none => simp [hdata] at hheld
        | some data =>
          obtain ⟨y, hy, hsize⟩ := hfits _ (mem_of_fedData hdata)
          refine ⟨data, rfl, shapeOf_eq hy ▸ hsize, ?_⟩
          rw [hrest t (hg.input_not_constant ht), hfed t, hdata]
          rfl
      exact (after_operations (Held g feeds) horder hstart
        (fun hl hop hst => hst.step hg horder hl hop)
        fun hl hop hst => .operation horder hl hop hst).mono fun _ st h => ⟨hfits, l, horder, h⟩
    · rw [lift_fault_eval_eq_ok.2 hl] at he
      cases he

/-- **What an evaluation that goes through holds.** -/
theorem evaluate_sound (hg : g.WellFormed) (h : evaluate .unbounded g feeds = .ok st) :
    (∀ p ∈ feeds, Fits g p) ∧ ∃ l, g.IsOrder l ∧ Held g feeds l st := by
  unfold evaluate at h
  dsimp only at h
  split at h
  · rename_i st' hrun
    cases h
    exact (after_evaluation feeds hg fun _ => rfl).of_run hrun
  · cases h

/-! ## Graphs whose tensors stand for values -/

/-- The value a tensor of a graph stands for, when its inputs are fed. -/
inductive Graph.Denotes (g : Graph) (fed : TensorId → Option (Array α)) :
    TensorId → Value α → Prop where
  | input {t : TensorId} {x : Tensor} {data : Array α} (hx : g.tensors.get? t = some x)
      (hrole : x.spec.role = .input) (hfed : fed t = some data)
      (hsize : data.size = x.spec.shape.prod) : Denotes g fed t ⟨x.spec.shape, data⟩
  | constant {t : TensorId} {x : Tensor} {v : Value α} (hx : g.tensors.get? t = some x)
      (hrole : x.spec.role = .constant) (hv : x.Holds v) : Denotes g fed t v
  | computed {o : OpId} {op : Operation} {vs : TensorId → Value α} {data : Array α}
      (hop : g.ops.get? o = some op) (hin : ∀ t ∈ op.inputs, Denotes g fed t (vs t))
      (hdata : compute .unbounded op.kind (op.inputs.map vs) (g.shapeOf op.output) = .ok data)
      (hsize : data.size = (g.shapeOf op.output).prod) :
      Denotes g fed op.output ⟨g.shapeOf op.output, data⟩

variable {fed : TensorId → Option (Array α)} (hg : g.WellFormed)

include hg

namespace Graph.Denotes

theorem of_input (h : g.Denotes fed t v) (hx : g.tensors.get? t = some x)
    (hrole : x.spec.role = .input) : ∃ data, fed t = some data ∧ v = ⟨x.spec.shape, data⟩ := by
  cases h with
  | @input _ y data hy _ hfed _ =>
    cases hx.symm.trans hy
    exact ⟨data, hfed, rfl⟩
  | constant hy hrole' =>
    cases hx.symm.trans hy
    rw [hrole] at hrole'
    cases hrole'
  | computed hop => exact absurd rfl (hg.output_ne hop hx hrole)

theorem of_constant (h : g.Denotes fed t v)
    (hx : g.tensors.get? t = some x) (hrole : x.spec.role = .constant) : x.Holds v := by
  cases h with
  | input hy hrole' =>
    cases hx.symm.trans hy
    rw [hrole] at hrole'
    cases hrole'
  | constant hy _ hv =>
    cases hx.symm.trans hy
    exact hv
  | computed hop => exact absurd rfl (hg.output_ne hop hx hrole)

theorem of_op (hop : g.ops.get? o = some op) (h : g.Denotes fed op.output v) :
    ∃ (vs : TensorId → Value α) (data : Array α), (∀ t ∈ op.inputs, g.Denotes fed t (vs t)) ∧
      compute .unbounded op.kind (op.inputs.map vs) (g.shapeOf op.output) = .ok data ∧
      data.size = (g.shapeOf op.output).prod ∧ v = ⟨g.shapeOf op.output, data⟩ := by
  generalize hout : op.output = t at h
  cases h with
  | input hx hrole | constant hx hrole => exact absurd hout (hg.output_ne hop hx hrole)
  | @computed o' op' vs data hop' hin hdata hsize =>
    have heq := hg.op_eq_of_output hop hop' hout
    grind

/-- A tensor stands for one value only. -/
theorem unique {w : Value α} (hv : g.Denotes fed t v) (hw : g.Denotes fed t w) : w = v := by
  induction hv generalizing w with
  | input hx hrole hfed _ =>
    obtain ⟨data, hdata, rfl⟩ := hw.of_input hg hx hrole
    cases hfed.symm.trans hdata
    rfl
  | constant hx hrole hv => exact (hw.of_constant hg hx hrole).unique hv
  | @computed o op vs data hop _ hdata _ ih => grind [map_congr_left, of_op]

end Graph.Denotes

/-- A tensor that stands for a value is a source or is computed in the order. -/
theorem Graph.Denotes.source_or_listed (horder : g.IsOrder l) (h : g.Denotes fed t v) :
    t ∈ g.sources ∨ ∃ o op, o ∈ l ∧ g.ops.get? o = some op ∧ op.output = t := by
  induction h with
  | input hx hrole | constant hx hrole => exact .inl (hg.source_of_role hx hrole)
  | @computed o op vs data hop _ _ _ ih =>
    refine .inr ⟨o, op, horder.closed hop fun t ht p hp => ?_, hop, rfl⟩
    obtain ⟨x, hx⟩ := hg.input_known hop ht
    obtain ⟨writer, hwriter, hout⟩ := (hg.producer_iff hx).1
      ((producer_eq hx).symm.trans hp)
    grind [WellFormed.not_source_of_output, WellFormed.op_eq_of_output]

/-- The values held are those the tensors stand for. -/
theorem Held.denoted (horder : g.IsOrder l) (hl : l = done ++ rest) (h : Held g feeds done st)
    (hfed : ∀ t ∈ g.inputs, ∀ data, fed t = some data → fedData feeds t = some data)
    (hden : g.Denotes fed t v)
    (ht : t ∈ g.sources ∨ ∃ o op, o ∈ done ∧ g.ops.get? o = some op ∧ op.output = t) :
    st.get? t = some v := by
  induction hden with
  | @input t x data hx hrole hdata hsize =>
    have hmem := hg.mem_inputs.2 ⟨x, hx, hrole⟩
    obtain ⟨data', hdata', -, hget⟩ := h.input hmem
    cases (hfed t hmem data hdata).symm.trans hdata'
    rw [hget, shapeOf_eq hx]
  | @constant t x v hx hrole hv =>
    obtain ⟨y, w, hy, hw, hget⟩ := h.constant (mem_constants.2 ⟨x, hx, hrole⟩)
    cases hx.symm.trans hy
    rw [hget, hv.unique hw]
  | @computed o op vs data hop hin hdata hsize ih =>
    have ho : o ∈ done := by grind [WellFormed.not_source_of_output, WellFormed.op_eq_of_output]
    have hbefore : ∀ t ∈ op.inputs, st.get? t = some (vs t) := by
      intro t hmem
      refine ih t hmem ((hin t hmem).source_or_listed hg horder |>.imp_right ?_)
      rintro ⟨o', op', -, hop', rfl⟩
      obtain ⟨d, r, rfl⟩ := append_of_mem ho
      grind [IsOrder.writers_before, WellFormed.producer_output]
    obtain ⟨w, hw, hget⟩ := h.computed ho hop
    obtain ⟨x, hx⟩ := hg.output_known hop
    obtain ⟨vs', data', hvs', hdata', -, rfl⟩ := (outputValue_eq_ok hx).1 hw
    rw [eq_map_of_forall₂ hvs' hbefore] at hdata'
    cases hdata.symm.trans hdata'
    exact hget

/-- An evaluation that goes through holds the values that tensors stand for. -/
theorem Graph.Denotes.held (h : evaluate .unbounded g feeds = .ok st)
    (hden : g.Denotes (fedData feeds) t v) : st.get? t = some v := by
  obtain ⟨-, l, horder, hst⟩ := evaluate_sound hg h
  exact hst.denoted hg horder (append_nil l).symm (fun _ _ _ hdata => hdata) hden
    (hden.source_or_listed hg horder)

/-- **A graph evaluates to the values that its tensors stand for**, if its sources and all that is
written stand for one. -/
theorem evaluate_complete (hfits : ∀ p ∈ feeds, Fits g p)
    (hfed : ∀ t ∈ g.inputs, ∀ data, fed t = some data → fedData feeds t = some data)
    (hsources : ∀ t ∈ g.sources, ∃ v, g.Denotes fed t v)
    (hwritten : ∀ o op, g.ops.get? o = some op → ∃ v, g.Denotes fed op.output v) :
    ∃ st, evaluate .unbounded g feeds = .ok st ∧
      ∀ t v, g.Denotes fed t v → st.get? t = some v := by
  have hnot : ∀ e st, ¬ Stuck g feeds e st := by
    intro e st hstuck
    cases hstuck with
    | feed h =>
      obtain ⟨p, hp, hnot⟩ := h
      exact hnot (hfits p hp)
    | input h =>
      obtain ⟨t, ht, hnone⟩ := h
      obtain ⟨x, hx, hrole⟩ := hg.mem_inputs.1 ht
      obtain ⟨v, hv⟩ := hsources t (mem_append_left _ ht)
      obtain ⟨data, hdata, -⟩ := hv.of_input hg hx hrole
      rw [hfed t ht data hdata] at hnone
      cases hnone
    | constant h =>
      obtain ⟨t, ht, hnone⟩ := h
      obtain ⟨x, hx, hrole⟩ := mem_constants.1 ht
      obtain ⟨v, hv⟩ := hsources t (mem_append_right _ ht)
      exact hnone x v hx (hv.of_constant hg hx hrole)
    | @operation l done rest o op horder hl hop hst he =>
      obtain ⟨y, hy⟩ := hg.output_known hop
      obtain ⟨v, hv⟩ := hwritten o op hop
      obtain ⟨vs, data, hin, hdata, hsize, rfl⟩ := hv.of_op hg hop
      have hheld : ∀ t ∈ op.inputs, st.get? t = some (vs t) := by
        intro t ht
        refine hst.denoted hg horder hl hfed (hin t ht)
          ((hin t ht).source_or_listed hg horder |>.imp_right ?_)
        grind [IsOrder.writers_before, WellFormed.producer_output]
      have hok := (outputValue_eq_ok hy).2 ⟨_, data,
        forall₂_map_right_iff.2 (forall₂_same.2 hheld), hdata, hsize, rfl⟩
      rw [hok] at he
      cases he
  rcases (after_evaluation feeds hg fun _ => rfl).run_cases with
    ⟨_, st, hrun, -, l, horder, hst⟩ | ⟨e, st, -, hstuck⟩
  · refine ⟨st, ?_, fun t v hv => hst.denoted hg horder (append_nil l).symm hfed hv
      (hv.source_or_listed hg horder)⟩
    unfold evaluate
    dsimp only
    rw [hrun]
  · exact absurd hstuck (hnot e st)

end CanvasFusion
