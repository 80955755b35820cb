import CanvasFusion.Proofs.Peak

/-!
# Well-formed graphs

What every graph built by edits satisfies: edges are known from both sides, the lists of inputs and
outputs are exact, and the shape of each written tensor is the one its operation gives in plain
arithmetic. The lemmas here say what adding a tensor, changing one and binding an operation do to a
graph, and that each of them keeps a graph well-formed.
-/

namespace CanvasFusion

open List Option CanvasFusion.Graph Table Handle

/-! ## Tables -/

/-- Induction along the order of creation. -/
theorem Handle.induction {name : String} {P : Handle name → Prop}
    (h : ∀ t, (∀ u : Handle name, u.index < t.index → P u) → P t) (t : Handle name) : P t :=
  (measure index).wf.induction t h

namespace Table

variable {name : String} {α : Type} {t : Table name α} {h k : Handle name} {a : α}

theorem get?_modify (t : Table name α) (h k : Handle name) (f : α → α) :
    (t.modify h f).get? k = if k = h then (t.get? k).map f else t.get? k := by
  obtain ⟨i⟩ := h
  obtain ⟨j⟩ := k
  simp only [get?, modify, Array.getElem?_modify, Handle.mk.injEq, eq_comm]

theorem lt_of_get? (ha : t.get? h = some a) : h.index < t.size :=
  (Array.getElem?_eq_some_iff.1 ha).1

theorem exists_get? (hh : h.index < t.size) : ∃ a, t.get? h = some a :=
  ⟨_, Array.getElem?_eq_getElem hh⟩

theorem get?_eq_none (hh : t.size ≤ h.index) : t.get? h = none :=
  Array.getElem?_eq_none hh

theorem get?_next (t : Table name α) : t.get? t.next = none :=
  get?_eq_none (Nat.le_refl _)

theorem ne_next_of_get? (ha : t.get? h = some a) : h ≠ t.next := by
  rintro rfl
  rw [get?_next] at ha
  cases ha

theorem get?_push_of_some (ha : t.get? h = some a) (b : α) : (t.push b).get? h = some a := by
  rw [get?_push, if_neg (ne_next_of_get? ha), ha]

@[simp] theorem get?_push_next (t : Table name α) (a : α) : (t.push a).get? t.next = some a := by
  rw [get?_push, if_pos rfl]

theorem get_eq_ok : t.get h = .ok a ↔ t.get? h = some a := by
  unfold get
  cases t.get? h <;> simp

theorem getElem?_toList (t : Table name α) (i : Nat) : t.toList[i]? = t.get? ⟨i⟩ := by
  simp [toList, get?]

theorem length_toList (t : Table name α) : t.toList.length = t.size := by
  simp [toList, size]

@[simp] theorem mem_handles : h ∈ t.handles ↔ h.index < t.size := by
  obtain ⟨i⟩ := h
  simp [handles]

theorem mem_entries : (h, a) ∈ t.entries ↔ t.get? h = some a := by
  obtain ⟨i⟩ := h
  unfold entries
  rw [mem_iff_getElem?]
  have hzip : ∀ j, (t.handles.zip t.toList)[j]? = some (⟨i⟩, a) ↔ j = i ∧ t.items[i]? = some a := by
    intro j
    rw [getElem?_zip_eq_some]
    simp only [handles, toList, getElem?_map, map_eq_some_iff, Array.getElem?_toList]
    constructor
    · grind
    · rintro ⟨rfl, ha⟩
      have hlt : j < t.size := (Array.getElem?_eq_some_iff.1 ha).1
      exact ⟨⟨j, by rw [getElem?_range hlt], rfl⟩, ha⟩
  simp only [hzip, exists_eq_left, get?]

theorem nodup_handles (t : Table name α) : t.handles.Nodup := by
  refine Nodup.map (fun i j h => ?_) nodup_range
  exact congrArg index h

theorem length_handles (t : Table name α) : t.handles.length = t.size := by
  simp [handles]

theorem map_fst_entries (t : Table name α) : t.entries.map Prod.fst = t.handles := by
  refine map_fst_zip ?_
  rw [length_handles, length_toList]

end Table

namespace Graph

variable {g : Graph} {t : TensorId} {o : OpId} {x : Tensor} {op : Operation}

/-! ## Reading a graph -/

/-- The shape of a tensor; of none, the empty one. -/
def shapeOf (g : Graph) (t : TensorId) : Shape := ((g.tensors.get? t).map (·.spec.shape)).getD []

theorem shapeOf_eq (h : g.tensors.get? t = some x) : g.shapeOf t = x.spec.shape := by
  simp [shapeOf, h]

/-- The element type and the quantization of a tensor. -/
def formatOf (g : Graph) (t : TensorId) : Option (ElementType × Option Quantization) :=
  (g.tensors.get? t).map fun x => (x.spec.element, x.spec.quant)

theorem formatOf_eq (h : g.tensors.get? t = some x) :
    g.formatOf t = some (x.spec.element, x.spec.quant) := by
  rw [formatOf, h]
  rfl

theorem tensor_eq_ok : g.tensor t = .ok x ↔ g.tensors.get? t = some x := by
  unfold tensor
  cases g.tensors.get? t <;> simp

theorem op_eq_ok : g.op o = .ok op ↔ g.ops.get? o = some op := by
  unfold Graph.op
  cases g.ops.get? o <;> simp

theorem shape_ok (h : g.tensors.get? t = some x) : g.shape t = .ok (g.shapeOf t) := by
  rw [shape, get_eq_ok.2 h, shapeOf_eq h]
  rfl

theorem mem_consumers (h : g.tensors.get? t = some x) : g.consumers t = x.consumers := by
  simp [consumers, h]

theorem producer_eq (h : g.tensors.get? t = some x) : g.producer t = x.producer := by
  simp [producer, h]

theorem mem_constants :
    t ∈ g.constants ↔ ∃ x, g.tensors.get? t = some x ∧ x.spec.role = .constant := by
  unfold constants
  rw [List.mem_map]
  constructor
  · grind [mem_entries]
  · rintro ⟨x, hx, hrole⟩
    exact ⟨(t, x), mem_filter.2 ⟨mem_entries.2 hx, by simpa using hrole⟩, rfl⟩

/-! ## One more tensor, one more operation -/

@[simp] theorem withTensor_tensors (g : Graph) (x : Tensor) :
    (g.withTensor x).tensors = g.tensors.push x := rfl

@[simp] theorem withTensor_ops (g : Graph) (x : Tensor) : (g.withTensor x).ops = g.ops := rfl

theorem withTensor_get? (h : g.tensors.get? t = some x) (y : Tensor) :
    (g.withTensor y).tensors.get? t = some x := get?_push_of_some h y

/-- A tensor after an operation has been bound: a reader of the operation's input gets a consumer,
its output a producer. -/
def bound (id : OpId) (op : Operation) (t : TensorId) (x : Tensor) : Tensor :=
  { x with
    consumers :=
      if op.inputs.contains t && !x.consumers.contains id then x.consumers ++ [id] else x.consumers
    producer := if t = op.output then some id else x.producer }

@[simp] theorem bound_consumers (id : OpId) (op : Operation) (t : TensorId) (x : Tensor) :
    (bound id op t x).consumers =
      if t ∈ op.inputs ∧ id ∉ x.consumers then x.consumers ++ [id] else x.consumers := by
  simp [bound]

theorem foldl_modify_get? (id : OpId) (inputs : List TensorId) (ts : Table "TensorId" Tensor)
    (t : TensorId) :
    (inputs.foldl (fun ts t => ts.modify t fun x =>
      if id ∈ x.consumers then x else { x with consumers := x.consumers ++ [id] }) ts).get? t =
    (ts.get? t).map fun x =>
      if t ∈ inputs ∧ id ∉ x.consumers then { x with consumers := x.consumers ++ [id] } else x := by
  induction inputs generalizing ts with
  | nil => simp
  | cons i rest ih =>
    rw [foldl_cons, ih, get?_modify]
    by_cases hti : t = i
    · subst hti
      rw [if_pos rfl, Option.map_map]
      refine congrArg (Option.map · (ts.get? t)) (funext fun x => ?_)
      by_cases hid : id ∈ x.consumers <;> simp [hid]
    · rw [if_neg hti]
      refine congrArg (Option.map · (ts.get? t)) (funext fun x => ?_)
      simp [hti]

theorem withOp_get? (g : Graph) (op : Operation) (t : TensorId) :
    (g.withOp op).tensors.get? t = (g.tensors.get? t).map (bound g.ops.next op t) := by
  unfold withOp
  rw [get?_modify, foldl_modify_get?]
  by_cases ht : t = op.output
  · rw [if_pos ht, Option.map_map]
    refine congrArg (Option.map · (g.tensors.get? t)) (funext fun x => ?_)
    grind [bound]
  · rw [if_neg ht]
    refine congrArg (Option.map · (g.tensors.get? t)) (funext fun x => ?_)
    by_cases hc : t ∈ op.inputs ∧ g.ops.next ∉ x.consumers <;> simp [bound, ht, hc]

@[simp] theorem withOp_ops (g : Graph) (op : Operation) : (g.withOp op).ops = g.ops.push op := rfl

theorem size_foldl_modify (f : Tensor → Tensor) (inputs : List TensorId)
    (ts : Table "TensorId" Tensor) :
    (inputs.foldl (fun ts t => ts.modify t f) ts).size = ts.size := by
  induction inputs generalizing ts with
  | nil => rfl
  | cons i rest ih => rw [foldl_cons, ih, size_modify]

@[simp] theorem withOp_size (g : Graph) (op : Operation) :
    (g.withOp op).tensors.size = g.tensors.size := by
  unfold withOp
  rw [size_modify, size_foldl_modify]

@[simp] theorem withOp_shapeOf (g : Graph) (op : Operation) (t : TensorId) :
    (g.withOp op).shapeOf t = g.shapeOf t := by
  unfold shapeOf
  rw [withOp_get?, Option.map_map]
  rfl

theorem withTensor_shapeOf (h : g.tensors.get? t = some x) (y : Tensor) :
    (g.withTensor y).shapeOf t = g.shapeOf t := by
  rw [shapeOf_eq h, shapeOf_eq (withTensor_get? h y)]

@[simp] theorem withTensor_shapeOf_next (g : Graph) (y : Tensor) :
    (g.withTensor y).shapeOf g.tensors.next = y.spec.shape :=
  shapeOf_eq (get?_push_next g.tensors y)

theorem shapeOf_modify {f : Tensor → Tensor} (hshape : ∀ x, (f x).spec.shape = x.spec.shape)
    (inputs outputs : List TensorId) (u : TensorId) :
    shapeOf ⟨g.tensors.modify t f, g.ops, inputs, outputs⟩ u = g.shapeOf u := by
  simp only [shapeOf, get?_modify]
  split_ifs
  · rw [Option.map_map]
    simp only [Function.comp_def, hshape]
  · rfl

/-! ## The invariant -/

/-- What every graph built by edits satisfies. -/
structure WellFormed (g : Graph) : Prop where
  input_known : ∀ {o op t}, g.ops.get? o = some op → t ∈ op.inputs → ∃ x, g.tensors.get? t = some x
  output_known : ∀ {o op}, g.ops.get? o = some op → ∃ x, g.tensors.get? op.output = some x
  /-- The readers of a tensor are the operations that have it as an input. -/
  consumers_iff : ∀ {t x o}, g.tensors.get? t = some x →
    (o ∈ x.consumers ↔ ∃ op, g.ops.get? o = some op ∧ t ∈ op.inputs)
  consumers_sorted : ∀ {t x}, g.tensors.get? t = some x →
    x.consumers.Pairwise fun o o' => o.index < o'.index
  /-- The writer of a tensor is the operation that has it as its output. -/
  producer_iff : ∀ {t x o}, g.tensors.get? t = some x →
    (x.producer = some o ↔ ∃ op, g.ops.get? o = some op ∧ op.output = t)
  source_free : ∀ {t x}, g.tensors.get? t = some x → x.spec.role.isWritable = false →
    x.producer = none
  mem_inputs : ∀ {t}, t ∈ g.inputs ↔ ∃ x, g.tensors.get? t = some x ∧ x.spec.role = .input
  inputs_nodup : g.inputs.Nodup
  mem_outputs : ∀ {t}, t ∈ g.outputs ↔ ∃ x, g.tensors.get? t = some x ∧ x.spec.role = .output
  outputs_nodup : g.outputs.Nodup
  /-- The output of an operation has the shape that its inputs give. -/
  op_shape : ∀ {o op}, g.ops.get? o = some op →
    op.kind.inferShape .unbounded (op.inputs.map g.shapeOf) = .ok (g.shapeOf op.output)

theorem wellFormed_empty : WellFormed empty where
  input_known h := by cases h
  output_known h := by cases h
  consumers_iff h := by cases h
  consumers_sorted h := by cases h
  producer_iff h := by cases h
  source_free h := by cases h
  mem_inputs := by simp [empty, get?, Table.empty]
  inputs_nodup := nodup_nil
  mem_outputs := by simp [empty, get?, Table.empty]
  outputs_nodup := nodup_nil
  op_shape h := by cases h

namespace WellFormed

variable (hg : WellFormed g)

include hg

theorem next_not_mem_inputs (h : g.ops.get? o = some op) : g.tensors.next ∉ op.inputs := by
  grind [ne_next_of_get?, input_known]

theorem output_ne_next (h : g.ops.get? o = some op) : op.output ≠ g.tensors.next := by
  obtain ⟨x, hx⟩ := hg.output_known h
  exact ne_next_of_get? hx

theorem lt_of_mem_consumers (hx : g.tensors.get? t = some x) (ho : o ∈ x.consumers) :
    o.index < g.ops.size := by
  obtain ⟨op, hop, -⟩ := (hg.consumers_iff hx).1 ho
  exact lt_of_get? hop

theorem inputs_ne_nil (h : g.ops.get? o = some op) : op.inputs ≠ [] := by
  intro hnil
  have hs := hg.op_shape h
  rw [hnil] at hs
  cases hk : op.kind <;> rw [hk] at hs <;> cases hs

/-- Two operations do not write one tensor. -/
theorem op_eq_of_output {o' : OpId} {op' : Operation} (h : g.ops.get? o = some op)
    (h' : g.ops.get? o' = some op') (heq : op.output = op'.output) : o = o' := by
  obtain ⟨x, hx⟩ := hg.output_known h
  have h₁ := (hg.producer_iff hx).2 ⟨op, h, rfl⟩
  have h₂ := (hg.producer_iff hx).2 ⟨op', h', heq.symm⟩
  exact some.inj (h₁.symm.trans h₂)

theorem producer_output (h : g.ops.get? o = some op) : g.producer op.output = some o := by
  obtain ⟨x, hx⟩ := hg.output_known h
  rw [producer_eq hx, hg.producer_iff hx]
  exact ⟨op, h, rfl⟩

theorem mem_consumers_iff (hx : g.tensors.get? t = some x) :
    o ∈ g.consumers t ↔ ∃ op, g.ops.get? o = some op ∧ t ∈ op.inputs := by
  rw [mem_consumers hx, hg.consumers_iff hx]

theorem mem_sources :
    t ∈ g.sources ↔ ∃ x, g.tensors.get? t = some x ∧ x.spec.role.isWritable = false := by
  rw [sources, mem_append, hg.mem_inputs, mem_constants]
  constructor
  · rintro (⟨x, hx, hr⟩ | ⟨x, hx, hr⟩) <;> exact ⟨x, hx, by rw [hr]; rfl⟩
  · rintro ⟨x, hx, hr⟩
    cases hrole : x.spec.role with
    | input => exact .inl ⟨x, hx, hrole⟩
    | constant => exact .inr ⟨x, hx, hrole⟩
    | output | transient => rw [hrole] at hr; cases hr

theorem sources_nodup : g.sources.Nodup := by
  have hconst : g.constants.Nodup := by
    have hsub : g.constants.Sublist (g.tensors.entries.map Prod.fst) :=
      filter_sublist.map Prod.fst
    exact hsub.nodup (by rw [map_fst_entries]; exact nodup_handles _)
  refine nodup_append.2 ⟨hg.inputs_nodup, hconst, ?_⟩
  grind [mem_constants, mem_inputs]

/-! ## Preservation -/

omit hg in
theorem nodup_if {ts : List TensorId} {c : Prop} [Decidable c] (hts : ts.Nodup) (ht : t ∉ ts) :
    (if c then ts ++ [t] else ts).Nodup := by
  split_ifs
  · simpa using hts.concat ht
  · exact hts

/-- A tensor without edges may be added. -/
theorem withTensor (hp : x.producer = none) (hc : x.consumers = []) :
    WellFormed (g.withTensor x) where
  input_known ho ht := by
    obtain ⟨y, hy⟩ := hg.input_known ho ht
    exact ⟨y, withTensor_get? hy x⟩
  output_known ho := by
    obtain ⟨y, hy⟩ := hg.output_known ho
    exact ⟨y, withTensor_get? hy x⟩
  consumers_iff {t y o} hy := by
    rw [withTensor_tensors, get?_push] at hy
    split_ifs at hy with ht
    · cases hy
      rw [hc]
      refine ⟨fun h => (by cases h), fun ⟨op, hop, hmem⟩ => ?_⟩
      exact absurd (ht ▸ hmem) (hg.next_not_mem_inputs hop)
    · exact hg.consumers_iff hy
  consumers_sorted {t y} hy := by grind [withTensor_tensors, get?_push, consumers_sorted]
  producer_iff {t y o} hy := by
    rw [withTensor_tensors, get?_push] at hy
    split_ifs at hy with ht
    · cases hy
      rw [hp]
      refine ⟨fun h => (by cases h), fun ⟨op, hop, hout⟩ => ?_⟩
      exact absurd (hout.trans ht) (hg.output_ne_next hop)
    · exact hg.producer_iff hy
  source_free {t y} hy hr := by grind [withTensor_tensors, get?_push, source_free]
  mem_inputs {t} := by
    grind [ne_next_of_get?, get?_push, withTensor, mem_inputs]
  inputs_nodup := nodup_if hg.inputs_nodup fun h => by
    grind [ne_next_of_get?, mem_inputs]
  mem_outputs {t} := by
    grind [get?_push, withTensor, ne_next_of_get?, mem_outputs]
  outputs_nodup := nodup_if hg.outputs_nodup fun h => by
    grind [ne_next_of_get?, mem_outputs]
  op_shape {o op} ho := by
    have hmap : op.inputs.map (g.withTensor x).shapeOf = op.inputs.map g.shapeOf := by
      refine map_congr_left fun t ht => ?_
      obtain ⟨y, hy⟩ := hg.input_known ho ht
      exact withTensor_shapeOf hy x
    obtain ⟨y, hy⟩ := hg.output_known ho
    rw [hmap, withTensor_shapeOf hy]
    exact hg.op_shape ho

/-- A tensor may change in what its edges and its shape do not depend on, as long as the lists of
inputs and outputs follow. -/
theorem changed {f : Tensor → Tensor} {inputs outputs : List TensorId}
    (hshape : ∀ x, (f x).spec.shape = x.spec.shape)
    (hw : ∀ x, g.tensors.get? t = some x → (f x).spec.role.isWritable = x.spec.role.isWritable)
    (hp : ∀ x, (f x).producer = x.producer) (hc : ∀ x, (f x).consumers = x.consumers)
    (hin : ∀ {t'}, t' ∈ inputs ↔ ∃ y, (g.tensors.modify t f).get? t' = some y ∧
      y.spec.role = .input)
    (hin_nodup : inputs.Nodup)
    (hout : ∀ {t'}, t' ∈ outputs ↔ ∃ y, (g.tensors.modify t f).get? t' = some y ∧
      y.spec.role = .output)
    (hout_nodup : outputs.Nodup) : WellFormed ⟨g.tensors.modify t f, g.ops, inputs, outputs⟩ := by
  -- Every tensor of the new graph comes from one of the old graph with the same edges.
  have hback : ∀ {t' y}, (g.tensors.modify t f).get? t' = some y →
      ∃ x, g.tensors.get? t' = some x ∧ y.spec.role.isWritable = x.spec.role.isWritable ∧
        y.producer = x.producer ∧ y.consumers = x.consumers := by
    grind [get?_modify, map_eq_some_iff]
  have hforth : ∀ {t' x}, g.tensors.get? t' = some x →
      ∃ y, (g.tensors.modify t f).get? t' = some y := by grind [get?_modify]
  have hshapeOf := shapeOf_modify (g := g) (t := t) hshape inputs outputs
  constructor
  case input_known =>
    grind [input_known]
  case output_known =>
    grind [output_known]
  case consumers_iff =>
    intro t' y o hy
    obtain ⟨x, hx, -, -, hcons⟩ := hback hy
    rw [hcons]
    exact hg.consumers_iff hx
  case consumers_sorted =>
    grind [consumers_sorted]
  case producer_iff =>
    grind [producer_iff]
  case source_free =>
    grind [source_free]
  case mem_inputs => exact hin
  case inputs_nodup => exact hin_nodup
  case mem_outputs => exact hout
  case outputs_nodup => exact hout_nodup
  case op_shape =>
    intro o op ho
    rw [hshapeOf, funext hshapeOf]
    exact hg.op_shape ho

theorem renamed (t : TensorId) (n : String) :
    WellFormed (g.withTensorChanged t fun x => { x with name := some n }) := by
  have hroles : ∀ t' r, (∃ y, (g.tensors.modify t fun x => { x with name := some n }).get? t' =
      some y ∧ y.spec.role = r) ↔ ∃ x, g.tensors.get? t' = some x ∧ x.spec.role = r := by
    intro t' r
    rw [get?_modify]
    split_ifs
    · cases g.tensors.get? t' <;> simp
    · rfl
  exact hg.changed (fun _ => rfl) (fun _ _ => rfl) (fun _ => rfl) (fun _ => rfl)
    (hg.mem_inputs.trans (hroles _ _).symm) hg.inputs_nodup
    (hg.mem_outputs.trans (hroles _ _).symm) hg.outputs_nodup

/-- A transient tensor may become an output. -/
theorem marked (hx : g.tensors.get? t = some x) (hr : x.spec.role = .transient) :
    WellFormed { g.withTensorChanged t fun x =>
        { x with spec := { x.spec with role := .output } } with outputs := g.outputs ++ [t] } := by
  have hnot : t ∉ g.outputs := fun h => by
    grind [mem_outputs]
  refine hg.changed (fun _ => rfl) (fun y hy => ?_) (fun _ => rfl) (fun _ => rfl) (fun {t'} => ?_)
    hg.inputs_nodup (fun {t'} => ?_) (by simpa using hg.outputs_nodup.concat hnot)
  · cases hx.symm.trans hy
    rw [hr]
    rfl
  · refine hg.mem_inputs.trans ?_
    grind [get?_modify]
  · rw [mem_append, hg.mem_outputs, mem_singleton, get?_modify]
    split_ifs with h
    · simp [h, hx]
    · simp [h]

/-- An operation may be bound to a free tensor of the right shape. -/
theorem withOp {y : Tensor} (hin : ∀ t ∈ op.inputs, ∃ x, g.tensors.get? t = some x)
    (hout : g.tensors.get? op.output = some y) (hw : y.spec.role.isWritable = true)
    (hfree : y.producer = none)
    (hs : op.kind.inferShape .unbounded (op.inputs.map g.shapeOf) = .ok (g.shapeOf op.output)) :
    WellFormed (g.withOp op) := by
  have hback : ∀ {t z}, (g.withOp op).tensors.get? t = some z →
      ∃ x, g.tensors.get? t = some x ∧ z = bound g.ops.next op t x := by
    grind [withOp_get?, map_eq_some_iff]
  have hforth : ∀ {t x}, g.tensors.get? t = some x →
      (g.withOp op).tensors.get? t = some (bound g.ops.next op t x) := by
    intro t x hx
    rw [withOp_get?, hx]
    rfl
  have hfresh : ∀ {t x}, g.tensors.get? t = some x → g.ops.next ∉ x.consumers := by
    intro t x hx hmem
    exact absurd (hg.lt_of_mem_consumers hx hmem) (Nat.lt_irrefl _)
  have hroles : ∀ t r, (∃ z, (g.withOp op).tensors.get? t = some z ∧ z.spec.role = r) ↔
      ∃ x, g.tensors.get? t = some x ∧ x.spec.role = r := by
    intro t r
    constructor
    · rintro ⟨z, hz, hr⟩
      obtain ⟨x, hx, rfl⟩ := hback hz
      exact ⟨x, hx, hr⟩
    · rintro ⟨x, hx, hr⟩
      exact ⟨_, hforth hx, hr⟩
  constructor
  case input_known =>
    grind [withOp_ops, get?_push, input_known]
  case output_known =>
    grind [withOp_ops, get?_push, output_known]
  case consumers_iff =>
    intro t z o hz
    obtain ⟨x, hx, rfl⟩ := hback hz
    have hold := hg.consumers_iff hx (o := o)
    rw [withOp_ops, get?_push]
    by_cases ho : o = g.ops.next
    · subst ho
      have hnot := hfresh hx
      by_cases ht : t ∈ op.inputs <;> simp [bound, ht, hnot]
    · by_cases ht : t ∈ op.inputs <;> simp [bound, ht, ho, hfresh hx, hold]
  case consumers_sorted =>
    intro t z hz
    obtain ⟨x, hx, rfl⟩ := hback hz
    have hold := hg.consumers_sorted hx
    by_cases ht : t ∈ op.inputs
    · simp only [bound_consumers, ht, hfresh hx, not_false_eq_true, and_self, if_true]
      refine pairwise_append.2 ⟨hold, pairwise_singleton _ _, fun a ha b hb => ?_⟩
      rw [mem_singleton] at hb
      subst hb
      exact hg.lt_of_mem_consumers hx ha
    · simpa only [bound_consumers, ht, false_and, if_false] using hold
  case producer_iff =>
    intro t z o hz
    obtain ⟨x, hx, rfl⟩ := hback hz
    have hold := hg.producer_iff hx (o := o)
    rw [withOp_ops, get?_push]
    by_cases ht : t = op.output
    · subst ht
      cases hx.symm.trans hout
      -- The tensor was free, so no other operation writes it.
      have hnone : ¬ ∃ op', g.ops.get? o = some op' ∧ op'.output = op.output := by
        rw [← hold, hfree]
        exact fun h => (by cases h)
      by_cases ho : o = g.ops.next
      · subst ho
        simp [bound]
      · grind [bound]
    · by_cases ho : o = g.ops.next
      · subst ho
        have hnot : x.producer ≠ some g.ops.next := fun h => by
          grind [ne_next_of_get?]
        grind [bound]
      · simp [bound, ht, ho, hold]
  case source_free =>
    intro t z hz hr
    obtain ⟨x, hx, rfl⟩ := hback hz
    by_cases ht : t = op.output
    · subst ht
      cases hx.symm.trans hout
      exact absurd (hw.symm.trans hr) (by simp)
    · grind [bound, source_free]
  case mem_inputs => exact fun {t} => hg.mem_inputs.trans (hroles t .input).symm
  case inputs_nodup => exact hg.inputs_nodup
  case mem_outputs => exact fun {t} => hg.mem_outputs.trans (hroles t .output).symm
  case outputs_nodup => exact hg.outputs_nodup
  case op_shape =>
    intro o op' ho
    have hshape : (g.withOp op).shapeOf = g.shapeOf := funext (withOp_shapeOf g op)
    rw [withOp_ops, get?_push] at ho
    rw [hshape]
    grind [op_shape]

end WellFormed

end Graph

end CanvasFusion
