import CanvasFusion.Proofs.Graph.Runnable

/-!
# Reachable graphs

A graph is *reachable* if calls of the editing interface lead to it from the empty graph. Calls that
fail count as well: they lead to the graph that they leave behind.

**Theorem (reachable_consistent).** In a reachable graph the edges are those of its operations, the
lists of inputs and outputs are those of the roles of its tensors, and every operation still passes
the check of its shape.

The edges are functions of the operations alone: `consumers` lists the operations that have the
tensor among their inputs, in order. So two consistent graphs with the same operations have the same
edges.
-/

namespace CanvasFusion

open List CanvasFusion.Graph Table

/-! ## Handles in order -/

section Handles

variable {name : String} {α : Type} {t : Table name α} {h : Handle name} {p : α → Bool}

/-- Two lists of handles in order that have the same members are the same. -/
theorem Handle.eq_of_sorted {l l' : List (Handle name)}
    (hl : l.Pairwise fun a b => a.index < b.index) (hl' : l'.Pairwise fun a b => a.index < b.index)
    (hmem : ∀ a, a ∈ l ↔ a ∈ l') : l = l' := by
  have : Std.Antisymm fun a b : Handle name => a.index < b.index :=
    ⟨fun a b hab hba => absurd hab (Nat.lt_asymm hba)⟩
  have : Std.Irrefl fun a b : Handle name => a.index < b.index := ⟨fun a => Nat.lt_irrefl a.index⟩
  exact hl.eq_of_mem_iff hl' hmem

namespace Table

/-- The handles of the entries that pass a test, in order. -/
def select (t : Table name α) (p : α → Bool) : List (Handle name) :=
  (t.entries.filter fun e => p e.2).map Prod.fst

theorem mem_select : h ∈ t.select p ↔ ∃ a, t.get? h = some a ∧ p a = true := by
  unfold select
  simp only [mem_map, mem_filter, Prod.exists, mem_entries]
  grind

theorem handles_sorted (t : Table name α) : t.handles.Pairwise fun a b => a.index < b.index := by
  rw [handles, pairwise_map]
  exact pairwise_lt_range

theorem select_sorted (t : Table name α) (p : α → Bool) :
    (t.select p).Pairwise fun a b => a.index < b.index := by
  have hsub : (t.select p).Sublist t.handles := by
    rw [← map_fst_entries]
    exact filter_sublist.map Prod.fst
  exact t.handles_sorted.sublist hsub

theorem select_nodup (t : Table name α) (p : α → Bool) : (t.select p).Nodup := by
  refine (t.select_sorted p).imp fun {a b} hlt => ?_
  rintro rfl
  exact Nat.lt_irrefl _ hlt

end Table

end Handles

namespace Graph

variable {lim : Limit} {g : Graph} {t : TensorId} {o : OpId} {x : Tensor} {op : Operation}
  {kind : Operator} {inputs outputs : List TensorId} {s : Shape}

/-! ## What every call keeps -/

/-- The inputs are listed in the order of their handles, and only constants have data. -/
structure Orderly (g : Graph) : Prop where
  inputs_sorted : g.inputs.Pairwise fun t u => t.index < u.index
  data_constant : ∀ {t x bytes}, g.tensors.get? t = some x → x.data = some bytes →
    x.spec.role = .constant

namespace Orderly

theorem empty : Orderly .empty := ⟨List.Pairwise.nil, fun h => by cases h⟩

theorem withTensor (hg : Orderly g) (hwf : g.WellFormed)
    (hx : ∀ bytes, x.data = some bytes → x.spec.role = .constant) : Orderly (g.withTensor x) where
  inputs_sorted := by
    by_cases hr : x.spec.role = .input
    · simp only [Graph.withTensor, hr, if_true]
      refine pairwise_append.2 ⟨hg.inputs_sorted, pairwise_singleton _ _, ?_⟩
      intro t ht u hu
      obtain ⟨y, hy, -⟩ := hwf.mem_inputs.1 ht
      rw [mem_singleton.1 hu]
      exact lt_of_get? hy
    · simpa only [Graph.withTensor, hr, if_false] using hg.inputs_sorted
  data_constant hy hdata := by
    rcases get?_withTensor hy with ⟨-, rfl⟩ | hy
    · exact hx _ hdata
    · exact hg.data_constant hy hdata

theorem withOp (hg : Orderly g) (op : Operation) : Orderly (g.withOp op) where
  inputs_sorted := hg.inputs_sorted
  data_constant {t z bytes} hz hdata := by
    rw [withOp_get?] at hz
    obtain ⟨x, hx, rfl⟩ := Option.map_eq_some_iff.1 hz
    have hrole : x.spec.role = .constant := hg.data_constant hx hdata
    exact hrole

/-- A tensor may change in what its data do not depend on. -/
theorem changed (hg : Orderly g) {f : Tensor → Tensor}
    (hdata : ∀ x, (f x).data = x.data)
    (hrole : ∀ x, g.tensors.get? t = some x → x.spec.role = .constant →
      (f x).spec.role = .constant) :
    Orderly ⟨g.tensors.modify t f, g.ops, g.inputs, outputs⟩ where
  inputs_sorted := hg.inputs_sorted
  data_constant {u z bytes} hz hbytes := by
    rw [get?_modify] at hz
    by_cases hu : u = t
    · rw [if_pos hu] at hz
      grind [Option.map_eq_some_iff, data_constant]
    · rw [if_neg hu] at hz
      exact hg.data_constant hz hbytes

theorem apply (hg : Orderly g) (hwf : g.WellFormed) (c : Call) : Orderly (c.apply lim g) := by
  have hnew : ∀ spec, Orderly (g.withTensor (.ofSpec spec)) := fun spec =>
    hg.withTensor hwf fun bytes hbytes => by cases hbytes
  cases c with
  | createTensor spec => exact hnew spec
  | createConstant spec data =>
    exact After.run_snd (after_createConstant (fun _ => hg.withTensor hwf fun _ _ => rfl)
      fun _ _ => hg)
  | setName t name =>
    exact After.run_snd (after_setName (hg.changed (fun _ => rfl) fun _ _ h => h) fun _ _ => hg)
  | setOutput t =>
    refine After.run_snd (after_setOutput hg (fun x hx hr => ?_) fun _ => hg)
    refine hg.changed (fun _ => rfl) fun y hy hc => ?_
    cases hx.symm.trans hy
    rw [hr] at hc
    cases hc
  | addOp kind inputs outputs =>
    exact After.run_snd (after_addOp (fun _ _ _ => hg.withOp _) fun _ => hg)
  | emit kind inputs role =>
    exact After.run_snd (after_emit (fun _ spec _ _ _ => (hnew spec).withOp _) (fun _ => hg)
      fun _ => hnew)

end Orderly

theorem orderly_build (lim : Limit) (calls : List Call) : Orderly (build lim calls) :=
  build_induction .empty (fun calls c hg => hg.apply (wellFormed_build lim calls) c) calls

/-! ## Reachable graphs -/

/-- Calls of the editing interface lead from the empty graph to this one. -/
inductive Reachable (lim : Limit) : Graph → Prop where
  | empty : Reachable lim .empty
  | createTensor {g : Graph} (h : Reachable lim g) (spec : TensorSpec) :
    Reachable lim (g.run (createTensor spec)).2
  | createConstant {g : Graph} (h : Reachable lim g) (spec : TensorSpec) (data : List UInt8) :
    Reachable lim (g.run (createConstant lim spec data)).2
  | createConstantValues {g : Graph} (h : Reachable lim g) (element : ElementType) (shape : Shape)
    (values : List Single) :
    Reachable lim (g.run (createConstantValues lim element shape values)).2
  | setName {g : Graph} (h : Reachable lim g) (t : TensorId) (name : String) :
    Reachable lim (g.run (setName t name)).2
  | setOutput {g : Graph} (h : Reachable lim g) (t : TensorId) :
    Reachable lim (g.run (setOutput t)).2
  | addOp {g : Graph} (h : Reachable lim g) (kind : Operator) (inputs outputs : List TensorId) :
    Reachable lim (g.run (addOp lim kind inputs outputs)).2
  | emit {g : Graph} (h : Reachable lim g) (kind : Operator) (inputs : List TensorId)
      (role : Role) : Reachable lim (g.run (emit lim kind inputs role)).2

theorem exists_build_apply (c : Call) (h : ∃ calls, build lim calls = g) :
    ∃ calls, build lim calls = c.apply lim g := by
  obtain ⟨calls, rfl⟩ := h
  exact ⟨_, build_concat lim calls c⟩

theorem Reachable.apply (h : Reachable lim g) (c : Call) : Reachable lim (c.apply lim g) := by
  cases c with
  | createTensor spec => exact h.createTensor spec
  | createConstant spec data => exact h.createConstant spec data
  | setName t name => exact h.setName t name
  | setOutput t => exact h.setOutput t
  | addOp kind inputs outputs => exact h.addOp kind inputs outputs
  | emit kind inputs role => exact h.emit kind inputs role

/-- The reachable graphs are those that lists of calls build. -/
theorem reachable_iff_build : Reachable lim g ↔ ∃ calls, build lim calls = g := by
  constructor
  · intro h
    induction h with
    | empty => exact ⟨[], rfl⟩
    | createTensor _ spec ih => exact exists_build_apply (.createTensor spec) ih
    | createConstant _ spec data ih => exact exists_build_apply (.createConstant spec data) ih
    | createConstantValues _ element shape values ih =>
      exact exists_build_apply
        (.createConstant ⟨element, shape, .constant, none⟩ (element.encode values)) ih
    | setName _ t name ih => exact exists_build_apply (.setName t name) ih
    | setOutput _ t ih => exact exists_build_apply (.setOutput t) ih
    | addOp _ kind inputs outputs ih => exact exists_build_apply (.addOp kind inputs outputs) ih
    | emit _ kind inputs role ih => exact exists_build_apply (.emit kind inputs role) ih
  · rintro ⟨calls, rfl⟩
    exact build_induction .empty (fun _ c h => h.apply c) calls

namespace Reachable

theorem wellFormed (h : Reachable lim g) : g.WellFormed := by
  grind [reachable_iff_build, wellFormed_build]

theorem checked (h : Reachable lim g) : g.Checked lim := by
  grind [reachable_iff_build, checked_build]

theorem orderly (h : Reachable lim g) : g.Orderly := by
  grind [reachable_iff_build, orderly_build]

end Reachable

/-! ## Edges and lists, from operations and roles -/

namespace WellFormed

/-- The readers of a tensor, from the operations alone. -/
theorem consumers_eq (hg : g.WellFormed) (t : TensorId) :
    g.consumers t = g.ops.select fun op => t ∈ op.inputs := by
  cases hx : g.tensors.get? t with
  | none =>
    -- No operation reads a tensor that is not there.
    have hnil : g.consumers t = [] := by simp [consumers, hx]
    rw [hnil, eq_comm, eq_nil_iff_forall_not_mem]
    grind [mem_select, input_known]
  | some x =>
    refine Handle.eq_of_sorted ?_ (select_sorted _ _) fun o => ?_
    · rw [mem_consumers hx]
      exact hg.consumers_sorted hx
    · simp [hg.mem_consumers_iff hx, mem_select]

/-- The writer of a tensor, from the operations alone. -/
theorem producer_eq_some_iff (hg : g.WellFormed) :
    g.producer t = some o ↔ ∃ op, g.ops.get? o = some op ∧ op.output = t := by
  constructor
  · intro h
    obtain ⟨x, hx, hp⟩ := Option.bind_eq_some_iff.1 h
    exact (hg.producer_iff hx).1 hp
  · rintro ⟨op, hop, rfl⟩
    exact hg.producer_output hop

theorem inputs_eq (hg : g.WellFormed) (ho : g.Orderly) :
    g.inputs = g.tensors.select fun x => x.spec.role = .input := by
  refine Handle.eq_of_sorted ho.inputs_sorted (select_sorted _ _) fun t => ?_
  simp [hg.mem_inputs, mem_select]

theorem outputs_perm (hg : g.WellFormed) :
    g.outputs.Perm (g.tensors.select fun x => x.spec.role = .output) := by
  grind [select_nodup, mem_select, outputs_nodup, mem_outputs]

end WellFormed

/-- Edges, lists of inputs and outputs and shapes agree with the operations and the roles. -/
structure Consistent (lim : Limit) (g : Graph) : Prop where
  consumers : ∀ t, g.consumers t = g.ops.select fun op => t ∈ op.inputs
  producer : ∀ {t o}, g.producer t = some o ↔ ∃ op, g.ops.get? o = some op ∧ op.output = t
  source : ∀ {t x}, g.tensors.get? t = some x → x.spec.role = .input ∨ x.spec.role = .constant →
    g.producer t = none
  inputs : g.inputs = g.tensors.select fun x => x.spec.role = .input
  /-- Each output is listed once, in an order of its own. -/
  outputs : g.outputs.Perm (g.tensors.select fun x => x.spec.role = .output)
  operands : ∀ {o op}, g.ops.get? o = some op → ∀ t ∈ op.output :: op.inputs,
    g.tensors.contains t = true
  shape : ∀ {o op}, g.ops.get? o = some op →
    ∃ s, g.inferOutput lim op.kind op.inputs = .ok s ∧ g.shape op.output = .ok s

/-- **Every reachable graph is consistent.** -/
theorem reachable_consistent (h : Reachable lim g) : g.Consistent lim where
  consumers := h.wellFormed.consumers_eq
  producer := h.wellFormed.producer_eq_some_iff
  source {t x} hx hr := by
    rw [producer_eq hx]
    refine h.wellFormed.source_free hx ?_
    rcases hr with hr | hr <;> rw [hr] <;> rfl
  inputs := h.wellFormed.inputs_eq h.orderly
  outputs := h.wellFormed.outputs_perm
  operands {o op} hop t ht := by
    have hknown : ∃ x, g.tensors.get? t = some x := by
      rcases List.mem_cons.1 ht with rfl | ht
      · exact h.wellFormed.output_known hop
      · exact h.wellFormed.input_known hop ht
    obtain ⟨x, hx⟩ := hknown
    simpa [Table.contains] using Table.lt_of_get? hx
  shape {o op} hop := by
    obtain ⟨y, hy⟩ := h.wellFormed.output_known hop
    refine ⟨g.shapeOf op.output, ?_, shape_ok hy⟩
    exact inferOutput_eq_ok.2 ⟨h.wellFormed.inputs_ne_nil hop,
      fun t ht => h.wellFormed.input_known hop ht, h.checked.op hop⟩

/-- An operation that reads its own output twice, and a refused one that leaves an input behind. -/
def selfFed : List Call :=
  [.createTensor ⟨.f32, [1], .input, none⟩, .createTensor ⟨.f32, [1], .transient, none⟩,
    .addOp (.binary .add) [⟨1⟩, ⟨1⟩] [⟨1⟩], .emit (.binary .mul) [⟨1⟩, ⟨0⟩] .input,
    .emit (.binary .max) [⟨2⟩, ⟨0⟩] .output, .setOutput ⟨1⟩]

theorem reachable_consistent_selfFed : Reachable .word64 (build .word64 selfFed) ∧
    (build .word64 selfFed).inputs = [⟨0⟩, ⟨2⟩] ∧ (build .word64 selfFed).outputs = [⟨3⟩, ⟨1⟩] ∧
    (build .word64 selfFed).consumers ⟨1⟩ = [⟨0⟩] ∧ (build .word64 selfFed).Consistent .word64 :=
  have h : Reachable .word64 (build .word64 selfFed) := reachable_iff_build.2 ⟨selfFed, rfl⟩
  ⟨h, by decide +kernel, by decide +kernel, by decide +kernel, reachable_consistent h⟩

/-! ## Calls that fail -/

/-- If the edit fails, it leaves the graph as it was. -/
def Edit.Atomic {α : Type} (e : Edit α) (g : Graph) : Prop :=
  ∀ err g', g.run e = (.error err, g') → g' = g

theorem Edit.atomic_of_after {α : Type} {e : Edit α} {Q : α → Graph → Prop}
    (h : After e g Q fun _ g' => g' = g) : e.Atomic g := fun _ _ hrun => h.of_run_error hrun

/-- An operation that is to write an input or a constant is refused, and its output stays. -/
theorem run_emit_refused {role : Role}
    {spec : TensorSpec} (hs : g.inferOutput lim kind inputs = .ok s)
    (hspec : g.emitSpec inputs s role spec) (hw : role.isWritable = false) :
    g.run (emit lim kind inputs role) =
      (.error (.notWritable g.tensors.next), g.withTensor (.ofSpec spec)) := by
  have h : After (emit lim kind inputs role) g (fun _ _ => False) fun e g' =>
      e = .notWritable g.tensors.next ∧ g' = g.withTensor (.ofSpec spec) :=
    after_emit_refused hs hspec hw ⟨rfl, rfl⟩
  rcases h.run_cases with ⟨_, _, -, hfalse⟩ | ⟨e, g', hrun, rfl, rfl⟩
  · cases hfalse
  · exact hrun

theorem withTensor_ne (g : Graph) (x : Tensor) : g.withTensor x ≠ g := by
  intro h
  have hsize : (g.withTensor x).tensors.size = g.tensors.size := by rw [h]
  simp at hsize

theorem exists_emitSpec (hs : g.inferOutput lim kind inputs = .ok s) (role : Role) :
    ∃ spec, g.emitSpec inputs s role spec := by
  obtain ⟨hne, hin, -⟩ := inferOutput_eq_ok.1 hs
  cases inputs with
  | nil => exact absurd rfl hne
  | cons y ys =>
    obtain ⟨first, hfirst⟩ := hin y mem_cons_self
    exact ⟨_, y, ys, first, rfl, hfirst, rfl⟩

/-- **Failed calls leave the graph as it was**, but for operations that are to write an input or a
constant and whose shape can be inferred. These leave their output behind. -/
theorem edits_atomic_iff (lim : Limit) (g : Graph) :
    (∀ spec data, (createConstant lim spec data).Atomic g) ∧
    (∀ element shape values, (createConstantValues lim element shape values).Atomic g) ∧
    (∀ t name, (setName t name).Atomic g) ∧ (∀ t, (setOutput t).Atomic g) ∧
    (∀ kind inputs outputs, (addOp lim kind inputs outputs).Atomic g) ∧
    ∀ kind inputs role,
      ((emit lim kind inputs role).Atomic g ↔
        role.isWritable = true ∨ ∀ s, g.inferOutput lim kind inputs ≠ .ok s) ∧
      ∀ s spec, g.inferOutput lim kind inputs = .ok s → g.emitSpec inputs s role spec →
        role.isWritable = false → g.run (emit lim kind inputs role) =
          (.error (.notWritable g.tensors.next), g.withTensor (.ofSpec spec)) := by
  have hconstant : ∀ spec data, (createConstant lim spec data).Atomic g := fun spec data =>
    Edit.atomic_of_after (after_createConstant (Q := fun _ _ => True) (fun _ => trivial)
      fun _ _ => rfl)
  refine ⟨hconstant, fun _ _ _ => hconstant _ _, fun t name => ?_, fun t => ?_,
    fun kind inputs outputs => ?_, fun kind inputs role => ⟨⟨fun h => ?_, fun h => ?_⟩,
      fun s spec hs hspec hw => run_emit_refused hs hspec hw⟩⟩
  · exact Edit.atomic_of_after (after_setName (Q := fun _ _ => True) trivial fun _ _ => rfl)
  · exact Edit.atomic_of_after (after_setOutput (Q := fun _ _ => True) trivial
      (fun _ _ _ => trivial) fun _ => rfl)
  · exact Edit.atomic_of_after (after_addOp (Q := fun _ _ => True) (fun _ _ _ => trivial)
      fun _ => rfl)
  · by_cases hw : role.isWritable = true
    · exact .inl hw
    · refine .inr fun s hs => ?_
      obtain ⟨spec, hspec⟩ := exists_emitSpec hs role
      have hleft := run_emit_refused hs hspec (Bool.eq_false_of_not_eq_true hw)
      exact withTensor_ne g _ (h _ _ hleft)
  · rcases h with hw | hnone
    · exact Edit.atomic_of_after (after_emit_writable (Q := fun _ _ => True) hw
        (fun _ _ _ _ => trivial) fun _ _ => rfl)
    · refine Edit.atomic_of_after (Q := fun _ _ => True) (.bind (.get (.bind
        (.ofExcept (fun s hs => ?_) fun _ _ => rfl))))
      exact absurd hs (hnone s)

end Graph

end CanvasFusion
