import CanvasFusion.Proofs.Graph.WellFormed

/-!
# Graphs built by edits

Each edit of a graph is described by the graph it leaves behind. From these descriptions:

**Theorem (wellFormed_build).** Every graph built by calls of the editing interface is well-formed,
whether single calls succeed or fail.

A graph built by `emit` alone is *sequential* in addition: an operation comes after everything it
reads, so nothing runs in a circle, and every tensor that is not fed or fixed is computed.
-/

namespace CanvasFusion.Graph

variable {lim : Limit} {g : Graph} {t out : TensorId} {o : OpId} {x : Tensor} {op : Operation}
  {kind : Operator} {inputs : List TensorId} {s : Shape} {spec : TensorSpec} {P : Graph → Prop}

/-! ## What the checks say -/

theorem mapM_shape_eq_ok {shapes : List Shape} :
    (inputs.mapM fun t => (g.tensor t).map (·.spec.shape)) = .ok shapes ↔
      (∀ t ∈ inputs, ∃ x, g.tensors.get? t = some x) ∧ shapes = inputs.map g.shapeOf := by
  induction inputs generalizing shapes with
  | nil =>
    rw [List.mapM_nil]
    exact ⟨fun h => ⟨fun t ht => (by cases ht), by cases h; rfl⟩, fun h => by rw [h.2]; rfl⟩
  | cons t rest ih =>
    rw [List.mapM_cons]
    simp only [bind_eq_ok, map_eq_ok, tensor_eq_ok]
    constructor
    · rintro ⟨s, ⟨x, hx, rfl⟩, ss, hss, h⟩
      cases h
      grind [shapeOf_eq]
    · rintro ⟨hall, rfl⟩
      obtain ⟨x, hx⟩ := hall t List.mem_cons_self
      refine ⟨x.spec.shape, ⟨x, hx, rfl⟩, rest.map g.shapeOf, ?_, ?_⟩
      · grind
      · rw [List.map_cons, shapeOf_eq hx]
        rfl

theorem inferOutput_eq_ok :
    g.inferOutput lim kind inputs = .ok s ↔
      inputs ≠ [] ∧ (∀ t ∈ inputs, ∃ x, g.tensors.get? t = some x) ∧
        kind.inferShape lim (inputs.map g.shapeOf) = .ok s := by
  unfold inferOutput
  cases inputs with
  | nil => simp [Operator.invalid, bind, Except.bind]
  | cons y ys =>
    simp only [List.isEmpty_cons, Bool.false_eq_true, if_false, bind_eq_ok, mapM_shape_eq_ok]
    grind

/-- What the checks of an operation make sure of. -/
theorem checkOp_eq_ok (h : g.checkOp lim kind inputs out = .ok ()) :
    ∃ y, g.tensors.get? out = some y ∧ y.spec.role.isWritable = true ∧ y.producer = none ∧
      g.inferOutput lim kind inputs = .ok y.spec.shape := by
  unfold checkOp at h
  simp only [bind_eq_ok] at h
  obtain ⟨s, hs, y, hy, h⟩ := h
  obtain ⟨hw, h⟩ := of_guard h
  obtain ⟨hfree, h⟩ := of_guard h
  rw [Option.not_isSome_iff_eq_none] at hfree
  grind [tensor_eq_ok]

/-! ## What the edits do -/

section Edits

variable {α : Type} {Q : α → Graph → Prop} {E : GraphError → Graph → Prop} {role : Role}
  {outputs : List TensorId}

theorem after_createTensor {Q : TensorId → Graph → Prop}
    (h : Q g.tensors.next (g.withTensor (.ofSpec spec))) : After (createTensor spec) g Q E := h

theorem after_createConstant {data : List UInt8} {Q : TensorId → Graph → Prop}
    (hok : TensorSpec.byteSize lim { spec with role := .constant } = .ok data.length →
      Q g.tensors.next
        (g.withTensor { Tensor.ofSpec { spec with role := .constant } with data := some data }))
    (herr : TensorSpec.byteSize lim { spec with role := .constant } ≠ .ok data.length →
      ∀ e, E e g) : After (createConstant lim spec data) g Q E := by
  refine .bind (.ofExcept (fun size hsize => ?_) fun e he => herr (fun hsize => ?_) e)
  · refine .ite (fun h => .bind (.throw (herr (fun hsize' => ?_) _))) fun h => ?_
    · grind [lift_fault_graph_eq_ok]
    · rw [lift_fault_graph_eq_ok] at hsize
      have hlen : data.length = size := not_not.1 h
      exact hok (hlen ▸ hsize)
  · rw [hsize] at he
    cases he

theorem after_setName {n : String} {Q : Unit → Graph → Prop}
    (hok : Q () (g.withTensorChanged t fun x => { x with name := some n }))
    (herr : g.tensors.get? t = none → ∀ e, E e g) : After (setName t n) g Q E := by
  refine .bind (.get (.bind (.ofExcept (fun _ _ => hok) fun e he => ?_)))
  grind [tensor]

theorem after_setOutput {Q : Unit → Graph → Prop}
    (hsame : Q () g)
    (hmark : ∀ x, g.tensors.get? t = some x → x.spec.role = .transient →
      Q () { g.withTensorChanged t fun x => { x with spec := { x.spec with role := .output } } with
        outputs := g.outputs ++ [t] })
    (herr : ∀ e, E e g) : After (setOutput t) g Q E := by
  refine .bind (.get (.bind (.ofExcept (fun x hx => ?_) fun e _ => herr e)))
  rw [tensor_eq_ok] at hx
  cases hr : x.spec.role with
  | input | constant => exact herr _
  | output => exact hsame
  | transient => exact hmark x hx hr

/-- An operation is bound exactly if it has one output and passes the checks. -/
theorem after_addOp_checked {Q : OpId → Graph → Prop}
    (hok : ∀ out, outputs = [out] → g.checkOp lim kind inputs out = .ok () →
      Q g.ops.next (g.withOp ⟨kind, inputs, out⟩))
    (herr : (∀ out, outputs = [out] → g.checkOp lim kind inputs out ≠ .ok ()) → ∀ e, E e g) :
    After (addOp lim kind inputs outputs) g Q E := by
  unfold addOp
  split
  · refine .bind (.get (.bind (.ofExcept (fun _ hc => ?_) fun e he => ?_)))
    · exact hok _ rfl hc
    · grind
  · rename_i hnot
    exact herr (fun out hout => absurd hout (hnot out)) _

theorem after_addOp {Q : OpId → Graph → Prop}
    (hok : ∀ out, outputs = [out] → g.checkOp lim kind inputs out = .ok () →
      Q g.ops.next (g.withOp ⟨kind, inputs, out⟩))
    (herr : ∀ e, E e g) : After (addOp lim kind inputs outputs) g Q E :=
  after_addOp_checked hok fun _ => herr

/-- The graph with one more tensor and the operation that writes it. -/
def emitted (g : Graph) (spec : TensorSpec) (kind : Operator) (inputs : List TensorId) : Graph :=
  (g.withTensor (.ofSpec spec)).withOp ⟨kind, inputs, g.tensors.next⟩

/-- Only the operation itself is new, among the operations. -/
theorem op_of_emitted (h : (g.emitted spec kind inputs).ops.get? o = some op) :
    g.ops.get? o = some op ∨ o = g.ops.next ∧ op = ⟨kind, inputs, g.tensors.next⟩ := by
  rw [emitted, withOp_ops, Table.get?_push] at h
  split_ifs at h with ho
  · exact .inr ⟨ho, (Option.some.inj h).symm⟩
  · exact .inl h

/-- The description of the output that `emit` adds: the element type and the quantization are those
of the first input. -/
def emitSpec (g : Graph) (inputs : List TensorId) (s : Shape) (role : Role) (spec : TensorSpec) :
    Prop :=
  ∃ y ys first, inputs = y :: ys ∧ g.tensors.get? y = some first ∧
    spec = ⟨first.spec.element, s, role, first.spec.quant⟩

/-- A new tensor does not change what is inferred from the old ones. -/
theorem inferOutput_withTensor (hs : g.inferOutput lim kind inputs = .ok s) (x : Tensor) :
    (g.withTensor x).inferOutput lim kind inputs = .ok s := by
  obtain ⟨hne, hin, hshape⟩ := inferOutput_eq_ok.1 hs
  have hmap : inputs.map (g.withTensor x).shapeOf = inputs.map g.shapeOf := by
    refine List.map_congr_left fun t ht => ?_
    obtain ⟨y, hy⟩ := hin t ht
    exact withTensor_shapeOf hy x
  refine inferOutput_eq_ok.2 ⟨hne, fun t ht => ?_, hmap ▸ hshape⟩
  obtain ⟨y, hy⟩ := hin t ht
  exact ⟨y, withTensor_get? hy x⟩

/-- An operation whose shape can be inferred is bound to a new tensor of that shape, but not to a
new input or constant. -/
theorem checkOp_withTensor (hs : g.inferOutput lim kind inputs = .ok spec.shape) :
    (g.withTensor (.ofSpec spec)).checkOp lim kind inputs g.tensors.next =
      if spec.role.isWritable then .ok () else .error (.notWritable g.tensors.next) := by
  have hnext : (g.withTensor (.ofSpec spec)).tensor g.tensors.next = .ok (.ofSpec spec) :=
    tensor_eq_ok.2 (Table.get?_push_next _ _)
  unfold checkOp
  rw [inferOutput_withTensor hs, bind_ok, hnext, bind_ok]
  cases hw : spec.role.isWritable <;> simp [Tensor.ofSpec, hw, bind, Except.bind, pure, Except.pure]

/-- How adding an operation ends: its shape cannot be inferred, or its output is new, and then it is
refused if it is to write an input or a constant. -/
theorem after_emit_cases {Q : TensorId → Graph → Prop}
    (hok : ∀ s spec, g.inferOutput lim kind inputs = .ok s → g.emitSpec inputs s role spec →
      role.isWritable = true → Q g.tensors.next (g.emitted spec kind inputs))
    (hhalf : ∀ s spec, g.inferOutput lim kind inputs = .ok s → g.emitSpec inputs s role spec →
      role.isWritable = false → E (.notWritable g.tensors.next) (g.withTensor (.ofSpec spec)))
    (herr : (∀ s, g.inferOutput lim kind inputs ≠ .ok s) → ∀ e, E e g) :
    After (emit lim kind inputs role) g Q E := by
  unfold emit
  refine .bind (.get (.bind (.ofExcept (fun s hs => ?_) fun e he => ?_)))
  · obtain ⟨hne, hin, -⟩ := inferOutput_eq_ok.1 hs
    split
    · exact absurd rfl hne
    · rename_i y ys
      obtain ⟨first, hfirst⟩ := hin y List.mem_cons_self
      rw [tensor_eq_ok.2 hfirst]
      have hspec : g.emitSpec (y :: ys) s role _ := ⟨y, ys, first, rfl, hfirst, rfl⟩
      refine .bind (.bind (after_createTensor (.bind (.bind (.get (.bind ?_))))))
      rw [@checkOp_withTensor lim g kind _ ⟨_, s, _, _⟩ hs]
      cases hw : role.isWritable with
      | true => exact hok s _ hs hspec hw
      | false => exact hhalf s _ hs hspec hw
  · refine herr (fun s hs => ?_) e
    rw [hs] at he
    cases he

theorem after_emit {Q : TensorId → Graph → Prop}
    (hok : ∀ s spec, g.inferOutput lim kind inputs = .ok s → g.emitSpec inputs s role spec →
      role.isWritable = true → Q g.tensors.next (g.emitted spec kind inputs))
    (herr : ∀ e, E e g) (hhalf : ∀ e spec, E e (g.withTensor (.ofSpec spec))) :
    After (emit lim kind inputs role) g Q E :=
  after_emit_cases hok (fun _ spec _ _ _ => hhalf _ spec) fun _ => herr

/-- An operation is added if its shape can be inferred. -/
theorem after_emit_writable {Q : TensorId → Graph → Prop} (hw : role.isWritable = true)
    (hok : ∀ s spec, g.inferOutput lim kind inputs = .ok s → g.emitSpec inputs s role spec →
      Q g.tensors.next (g.emitted spec kind inputs))
    (herr : (∀ s, g.inferOutput lim kind inputs ≠ .ok s) → ∀ e, E e g) :
    After (emit lim kind inputs role) g Q E :=
  after_emit_cases (fun s spec hs hspec _ => hok s spec hs hspec)
    (fun _ _ _ _ hw' => by cases hw.symm.trans hw') herr

/-- An operation that is to write an input or a constant is refused once its output is there. -/
theorem after_emit_refused {Q : TensorId → Graph → Prop}
    (hs : g.inferOutput lim kind inputs = .ok s)
    (hspec : g.emitSpec inputs s role spec) (hw : role.isWritable = false)
    (hleft : E (.notWritable g.tensors.next) (g.withTensor (.ofSpec spec))) :
    After (emit lim kind inputs role) g Q E := by
  refine after_emit_cases (fun _ _ _ _ hw' => by cases hw.symm.trans hw')
    (fun s' spec' hs' hspec' _ => ?_) fun hnone => absurd hs (hnone s)
  obtain ⟨y, ys, first, rfl, hfirst, rfl⟩ := hspec
  obtain ⟨y', ys', first', heq, hfirst', rfl⟩ := hspec'
  cases heq
  cases hs.symm.trans hs'
  cases hfirst.symm.trans hfirst'
  exact hleft

end Edits

/-! ## Graphs built by calls -/

/-- A call of the editing interface. -/
inductive Call where
  | createTensor (spec : TensorSpec)
  | createConstant (spec : TensorSpec) (data : List UInt8)
  | setName (t : TensorId) (name : String)
  | setOutput (t : TensorId)
  | addOp (kind : Operator) (inputs outputs : List TensorId)
  | emit (kind : Operator) (inputs : List TensorId) (role : Role)

/-- The graph a call leaves behind. A call that fails leaves behind how far it came. -/
def Call.apply (lim : Limit) (g : Graph) : Call → Graph
  | .createTensor spec => (g.run (Graph.createTensor spec)).2
  | .createConstant spec data => (g.run (Graph.createConstant lim spec data)).2
  | .setName t name => (g.run (Graph.setName t name)).2
  | .setOutput t => (g.run (Graph.setOutput t)).2
  | .addOp kind inputs outputs => (g.run (Graph.addOp lim kind inputs outputs)).2
  | .emit kind inputs role => (g.run (Graph.emit lim kind inputs role)).2

/-- The graph that some calls build, one after the other, from nothing. -/
def build (lim : Limit) (calls : List Call) : Graph := calls.foldl (Call.apply lim) .empty

theorem build_concat (lim : Limit) (calls : List Call) (c : Call) :
    build lim (calls ++ [c]) = c.apply lim (build lim calls) := by
  simp [build, List.foldl_append]

/-- What every call keeps is true of the graphs that calls build. -/
theorem build_induction (hempty : P .empty)
    (hstep : ∀ calls, ∀ c : Call, P (build lim calls) → P (c.apply lim (build lim calls)))
    (calls : List Call) : P (build lim calls) := by
  induction calls using List.reverseRecOn with
  | nil => exact hempty
  | append_singleton calls c ih =>
    rw [build_concat]
    exact hstep calls c ih

/-- What holds of the graph an edit leaves behind, in success and failure. -/
theorem After.run_snd {α : Type} {e : Edit α}
    (h : After e g (fun _ g' => P g') fun _ g' => P g') : P (g.run e).2 := by
  grind [After, run]

theorem WellFormed.withOp_of_check (hg : WellFormed g)
    (h : g.checkOp lim kind inputs out = .ok ()) : WellFormed (g.withOp ⟨kind, inputs, out⟩) := by
  grind [checkOp_eq_ok, inferOutput_eq_ok, shapeOf_eq, Operator.inferShape_unbounded, withOp]

theorem WellFormed.emitted (hg : WellFormed g) (hw : spec.role.isWritable = true)
    (hin : ∀ t ∈ inputs, ∃ x, g.tensors.get? t = some x)
    (hs : kind.inferShape .unbounded (inputs.map g.shapeOf) = .ok spec.shape) :
    WellFormed (g.emitted spec kind inputs) := by
  have hnext : (g.withTensor (.ofSpec spec)).tensors.get? g.tensors.next = some (.ofSpec spec) :=
    Table.get?_push_next _ _
  have hmap : inputs.map (g.withTensor (.ofSpec spec)).shapeOf = inputs.map g.shapeOf := by
    grind [List.map_congr_left, withTensor_shapeOf]
  refine (hg.withTensor (x := .ofSpec spec) rfl rfl).withOp (fun t ht => ?_) hnext hw rfl ?_
  · grind [withTensor_get?]
  · rw [hmap, withTensor_shapeOf_next]
    exact hs

theorem WellFormed.apply (hg : WellFormed g) (c : Call) : WellFormed (c.apply lim g) := by
  have hnew : ∀ spec, WellFormed (g.withTensor (.ofSpec spec)) := fun spec =>
    hg.withTensor rfl rfl
  cases c with
  | createTensor spec => exact hnew spec
  | createConstant spec data =>
    exact After.run_snd (after_createConstant (fun _ => hg.withTensor rfl rfl) fun _ _ => hg)
  | setName t name => exact After.run_snd (after_setName (hg.renamed t name) fun _ _ => hg)
  | setOutput t =>
    exact After.run_snd (after_setOutput hg (fun _ hx hr => hg.marked hx hr) fun _ => hg)
  | addOp kind inputs outputs =>
    exact After.run_snd (after_addOp (fun _ _ h => hg.withOp_of_check h) fun _ => hg)
  | emit kind inputs role =>
    refine After.run_snd (after_emit (fun s spec hs hspec hw => ?_) (fun _ => hg) fun _ => hnew)
    obtain ⟨y, ys, first, rfl, hfirst, rfl⟩ := hspec
    grind [inferOutput_eq_ok, Operator.inferShape_unbounded, emitted]

/-- **Every graph built by calls is well-formed.** -/
theorem wellFormed_build (lim : Limit) (calls : List Call) : WellFormed (build lim calls) :=
  build_induction wellFormed_empty (fun _ c hg => hg.apply c) calls

/-! ## Sequential graphs -/

/-- Operations come after what they read, every tensor that is not fed or fixed is written, and an
output has the format of the first input of its operation. -/
structure Sequential (g : Graph) : Prop where
  input_lt : ∀ {o op t}, g.ops.get? o = some op → t ∈ op.inputs → t.index < op.output.index
  producer_lt : ∀ {o op t p}, g.ops.get? o = some op → t ∈ op.inputs → g.producer t = some p →
    p.index < o.index
  written : ∀ {t x}, g.tensors.get? t = some x → x.spec.role.isWritable = true →
    ∃ o, x.producer = some o
  ops_le : g.ops.size ≤ g.tensors.size
  inherits : ∀ {o op}, g.ops.get? o = some op →
    ∃ x rest, op.inputs = x :: rest ∧ g.formatOf op.output = g.formatOf x

namespace Sequential

theorem empty : Sequential empty where
  input_lt h := by cases h
  producer_lt h := by cases h
  written h := by cases h
  ops_le := Nat.le_refl _
  inherits h := by cases h

theorem withTensor (hg : Sequential g) (hwf : WellFormed g)
    (hr : x.spec.role.isWritable = false) : Sequential (g.withTensor x) where
  input_lt h ht := hg.input_lt h ht
  producer_lt {o op t p} h ht hp := by
    obtain ⟨y, hy⟩ := hwf.input_known h ht
    rw [producer_eq (withTensor_get? hy x), ← producer_eq hy] at hp
    exact hg.producer_lt h ht hp
  written {t y} hy hw := by grind [withTensor_tensors, Table.get?_push, written]
  ops_le := by
    rw [withTensor_ops, withTensor_tensors, Table.size_push]
    exact Nat.le_succ_of_le hg.ops_le
  inherits {o op} h := by
    obtain ⟨t, rest, hin, hformat⟩ := hg.inherits h
    obtain ⟨y, hy⟩ := hwf.input_known h (hin ▸ List.mem_cons_self)
    obtain ⟨z, hz⟩ := hwf.output_known h
    refine ⟨t, rest, hin, ?_⟩
    rw [formatOf_eq (withTensor_get? hz x), formatOf_eq (withTensor_get? hy x), ← formatOf_eq hz,
      ← formatOf_eq hy, hformat]

theorem renamed (hg : Sequential g) (t : TensorId) (n : String) :
    Sequential (g.withTensorChanged t fun x => { x with name := some n }) := by
  have hback : ∀ {t' y}, (g.withTensorChanged t fun x => { x with name := some n }).tensors.get?
      t' =
      some y → ∃ x, g.tensors.get? t' = some x ∧ y.spec = x.spec ∧ y.producer = x.producer := by
    grind [withTensorChanged, Table.get?_modify, Option.map_eq_some_iff]
  have hprod : ∀ t', (g.withTensorChanged t fun x => { x with name := some n }).producer t' =
      g.producer t' := by grind [producer, withTensorChanged, Table.get?_modify]
  constructor
  case input_lt => exact hg.input_lt
  case producer_lt =>
    intro o op t' p h ht hp
    rw [hprod] at hp
    exact hg.producer_lt h ht hp
  case written =>
    grind [written]
  case ops_le =>
    rw [withTensorChanged, Table.size_modify]
    exact hg.ops_le
  case inherits =>
    have hformat : ∀ t', (g.withTensorChanged t fun x => { x with name := some n }).formatOf t' =
        g.formatOf t' := by
      intro t'
      simp only [formatOf, withTensorChanged, Table.get?_modify]
      split_ifs
      · cases g.tensors.get? t' <;> rfl
      · rfl
    intro o op h
    rw [hformat]
    simp only [hformat]
    exact hg.inherits h

theorem emitted {s : Shape} {role : Role} (hg : Sequential g) (hwf : WellFormed g)
    (hin : ∀ t ∈ inputs, ∃ x, g.tensors.get? t = some x) (hspec : g.emitSpec inputs s role spec) :
    Sequential (g.emitted spec kind inputs) := by
  -- The producer of a tensor that was there before is the one it had.
  have hprod : ∀ {t x}, g.tensors.get? t = some x →
      (g.emitted spec kind inputs).producer t = g.producer t := by
    intro t x hx
    have hget : (g.emitted spec kind inputs).tensors.get? t =
        some (bound g.ops.next ⟨kind, inputs, g.tensors.next⟩ t x) := by
      rw [Graph.emitted, withOp_get?, withTensor_get? hx]
      rfl
    have hne : t ≠ g.tensors.next := Table.ne_next_of_get? hx
    rw [producer_eq hget, producer_eq hx]
    exact if_neg hne
  constructor
  case input_lt =>
    intro o op t h ht
    rcases op_of_emitted h with h | ⟨-, rfl⟩
    · exact hg.input_lt h ht
    · obtain ⟨x, hx⟩ := hin t ht
      exact Table.lt_of_get? hx
  case producer_lt =>
    intro o op t p h ht hp
    rcases op_of_emitted h with h | ⟨rfl, rfl⟩
    · obtain ⟨x, hx⟩ := hwf.input_known h ht
      rw [hprod hx] at hp
      exact hg.producer_lt h ht hp
    · obtain ⟨x, hx⟩ := hin t ht
      rw [hprod hx, producer_eq hx] at hp
      obtain ⟨op', hop', -⟩ := (hwf.producer_iff hx).1 hp
      exact Table.lt_of_get? hop'
  case written =>
    intro t y hy hw
    rw [Graph.emitted, withOp_get?] at hy
    obtain ⟨x, hx, rfl⟩ := Option.map_eq_some_iff.1 hy
    rw [withTensor_tensors, Table.get?_push] at hx
    split_ifs at hx with ht
    · exact ⟨_, if_pos ht⟩
    · obtain ⟨o, ho⟩ := hg.written hx hw
      exact ⟨o, (if_neg ht).trans ho⟩
  case ops_le =>
    rw [Graph.emitted, withOp_ops, withOp_size, withTensor_tensors, Table.size_push,
      Table.size_push]
    exact Nat.succ_le_succ hg.ops_le
  case inherits =>
    have hformat : ∀ {t x}, g.tensors.get? t = some x →
        (g.emitted spec kind inputs).formatOf t = g.formatOf t := by
      intro t x hx
      rw [formatOf, Graph.emitted, withOp_get?, withTensor_get? hx, formatOf_eq hx]
      rfl
    intro o op h
    rcases op_of_emitted h with h | ⟨-, rfl⟩
    · obtain ⟨t, rest, hop, hold⟩ := hg.inherits h
      obtain ⟨y, hy⟩ := hwf.input_known h (hop ▸ List.mem_cons_self)
      obtain ⟨z, hz⟩ := hwf.output_known h
      exact ⟨t, rest, hop, by rw [hformat hy, hformat hz, hold]⟩
    · obtain ⟨y, ys, first, rfl, hy, rfl⟩ := hspec
      refine ⟨y, ys, rfl, ?_⟩
      rw [hformat hy, formatOf_eq hy, formatOf, Graph.emitted, withOp_get?, withTensor_tensors,
        Table.get?_push_next]
      rfl

/-- Every tensor is a source or written by an operation. -/
theorem source_or_written (hg : Sequential g) (hwf : WellFormed g)
    (hx : g.tensors.get? t = some x) :
    t ∈ g.sources ∨ ∃ o op, g.ops.get? o = some op ∧ op.output = t := by
  cases hw : x.spec.role.isWritable with
  | false => exact .inl (hwf.mem_sources.2 ⟨x, hx, hw⟩)
  | true =>
    obtain ⟨o, ho⟩ := hg.written hx hw
    obtain ⟨op, hop, hout⟩ := (hwf.producer_iff hx).1 ho
    exact .inr ⟨o, op, hop, hout⟩

end Sequential

/-- A source is not written. -/
theorem WellFormed.not_source_of_output (hg : WellFormed g) (h : g.ops.get? o = some op) :
    op.output ∉ g.sources := by
  intro hmem
  obtain ⟨x, hx, hr⟩ := hg.mem_sources.1 hmem
  have hnone := hg.source_free hx hr
  rw [(hg.producer_iff hx).2 ⟨op, h, rfl⟩] at hnone
  cases hnone

theorem WellFormed.source_of_role {role : Role} (hg : WellFormed g) (hx : g.tensors.get? t = some x)
    (hrole : x.spec.role = role) (hr : role.isWritable = false := by rfl) : t ∈ g.sources :=
  hg.mem_sources.2 ⟨x, hx, hrole ▸ hr⟩

theorem WellFormed.output_ne {role : Role} (hg : WellFormed g) (h : g.ops.get? o = some op)
    (hx : g.tensors.get? t = some x) (hrole : x.spec.role = role)
    (hr : role.isWritable = false := by rfl) : op.output ≠ t := fun hout =>
  hg.not_source_of_output h (hout ▸ hg.source_of_role hx hrole hr)

/-! ## Growing graphs -/

/-- The second graph has all tensors and operations of the first. Edges and names may differ. -/
structure Grows (g g' : Graph) : Prop where
  tensor : ∀ {t x}, g.tensors.get? t = some x →
    ∃ x', g'.tensors.get? t = some x' ∧ x'.spec = x.spec ∧ x'.data = x.data
  op : ∀ {o op}, g.ops.get? o = some op → g'.ops.get? o = some op

namespace Grows

variable {g' g'' : Graph}

theorem refl (g : Graph) : Grows g g := ⟨fun h => ⟨_, h, rfl, rfl⟩, id⟩

theorem trans (h : Grows g g') (h' : Grows g' g'') : Grows g g'' where
  tensor hx := by grind [tensor]
  op ho := h'.op (h.op ho)

theorem withTensor (g : Graph) (x : Tensor) : Grows g (g.withTensor x) :=
  ⟨fun h => ⟨_, withTensor_get? h x, rfl, rfl⟩, id⟩

theorem renamed (g : Graph) (t : TensorId) (n : String) :
    Grows g (g.withTensorChanged t fun x => { x with name := some n }) where
  tensor {t' x} hx := by grind [withTensorChanged, Table.get?_modify]
  op := id

theorem emitted (g : Graph) (spec : TensorSpec) (kind : Operator) (inputs : List TensorId) :
    Grows g (g.emitted spec kind inputs) where
  tensor {t x} hx := by
    rw [Graph.emitted, withOp_get?, withTensor_get? hx]
    exact ⟨_, rfl, rfl, rfl⟩
  op ho := by
    rw [Graph.emitted, withOp_ops]
    exact Table.get?_push_of_some ho _

end Grows

section

variable (g : Graph) (spec : TensorSpec) (kind : Operator) (inputs : List TensorId)

/-- The tensor and the operation that `emit` adds. -/
theorem emitted_output : ∃ y, (g.emitted spec kind inputs).tensors.get? g.tensors.next =
      some y ∧ y.spec = spec ∧ y.data = none := by
  rw [Graph.emitted, withOp_get?, withTensor_tensors, Table.get?_push_next]
  exact ⟨_, rfl, rfl, rfl⟩

theorem emitted_size : (g.emitted spec kind inputs).tensors.size = g.tensors.size + 1 := by
  rw [Graph.emitted, withOp_size, withTensor_tensors, Table.size_push]

theorem emitted_op :
    (g.emitted spec kind inputs).ops.get? g.ops.next = some ⟨kind, inputs, g.tensors.next⟩ := by
  rw [Graph.emitted, withOp_ops]
  exact Table.get?_push_next _ _

theorem emitted_ops_size : (g.emitted spec kind inputs).ops.size = g.ops.size + 1 := by
  rw [Graph.emitted, withOp_ops, Table.size_push]
  rfl

end

/-! ## Names -/

/-- The graphs differ in the name of one tensor at most. -/
def Renames (g g' : Graph) : Prop :=
  g' = g ∨ ∃ t n, g' = g.withTensorChanged t fun x => { x with name := some n }

namespace Renames

variable {g' : Graph}

theorem grows (h : Renames g g') : Grows g g' := by
  rcases h with rfl | ⟨t, n, rfl⟩
  · exact .refl _
  · exact .renamed ..

theorem wellFormed (h : Renames g g') (hg : WellFormed g) : WellFormed g' := by
  rcases h with rfl | ⟨t, n, rfl⟩
  · exact hg
  · exact hg.renamed t n

theorem sequential (h : Renames g g') (hg : Sequential g) : Sequential g' := by
  rcases h with rfl | ⟨t, n, rfl⟩
  · exact hg
  · exact hg.renamed t n

theorem size_eq (h : Renames g g') : g'.tensors.size = g.tensors.size := by
  rcases h with rfl | ⟨t, n, rfl⟩
  · rfl
  · exact Table.size_modify ..

theorem ops_eq (h : Renames g g') : g'.ops = g.ops := by
  rcases h with rfl | ⟨t, n, rfl⟩ <;> rfl

end Renames

/-- The name of a tensor, if it has one. -/
def nameOf (g : Graph) (t : TensorId) : Option String := (g.tensors.get? t).bind Tensor.name

/-- The graph with the name of a tensor changed, if there is a new one. -/
def named (g : Graph) (t : TensorId) : Option String → Graph
  | none => g
  | some n => g.withTensorChanged t fun x => { x with name := some n }

theorem renames_named (g : Graph) (t : TensorId) (name : Option String) :
    Renames g (g.named t name) := by
  cases name with
  | none => exact .inl rfl
  | some n => exact .inr ⟨t, n, rfl⟩

@[simp] theorem named_inputs (g : Graph) (t : TensorId) (name : Option String) :
    (g.named t name).inputs = g.inputs := by
  cases name <;> rfl

@[simp] theorem named_outputs (g : Graph) (t : TensorId) (name : Option String) :
    (g.named t name).outputs = g.outputs := by
  cases name <;> rfl

theorem named_get? (g : Graph) (t u : TensorId) (name : Option String) :
    (g.named t name).tensors.get? u = (g.tensors.get? u).map fun x =>
      if u = t then { x with name := name.or x.name } else x := by
  cases name with
  | none => simp [named]
  | some n =>
    rw [named, withTensorChanged, Table.get?_modify]
    by_cases hu : u = t
    · simp [hu]
    · simp [hu]

end CanvasFusion.Graph
