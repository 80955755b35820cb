import CanvasFusion.Proofs.Element
import CanvasFusion.Proofs.Graph.Reachable
import CanvasFusion.Graph.Definition

/-!
# Graphs and their definitions

Rebuilding a graph from a definition adds the tensors one after the other and then binds the
operations (`GraphDef.graph`). It succeeds exactly if the data of every tensor fill its shape and
every operation passes its checks when its turn comes (`ofDef_eq_ok_iff`).

**Theorem (ofDef_toDef).** A reachable graph whose constants have data has a definition, and the
definition gives the graph back: the same tensors and operations under the same handles, with the
same edges, and the same dependency order.

The history that built the graph interleaved tensors and operations and changed roles in between;
the definition replays all tensors first, in their final roles. No check can fail on the way. Shapes
are what they were. A tensor that an operation writes never had a role that forbids it. And a tensor
is free when its writer is bound, because no other operation of the graph writes it.
-/

namespace CanvasFusion

open List Option Table Tensor

/-! ## Loops whose steps are known -/

section Steps

variable {ε σ β : Type} {step : σ → β → σ} {f : β → ExceptT ε (StateM σ) PUnit} {xs : List β}

/-- Every step of a loop passes its test in the state that the steps before it lead to. -/
def Passes (test : σ → β → Prop) (step : σ → β → σ) : σ → List β → Prop
  | _, [] => True
  | s, x :: rest => test s x ∧ Passes test step (step s x) rest

/-- A loop does one step after the other as long as the tests are passed. -/
theorem After.forM_passes {test : σ → β → Prop}
    (h : ∀ s x, After (f x) s (fun _ s' => test s x ∧ s' = step s x) fun _ _ => ¬ test s x) (s : σ)
    (xs : List β) :
    After (xs.forM f) s (fun _ s' => Passes test step s xs ∧ s' = xs.foldl step s)
      fun _ _ => ¬ Passes test step s xs := by
  induction xs generalizing s with
  | nil => exact .pure ⟨trivial, rfl⟩
  | cons x rest ih =>
    change After (f x >>= fun _ => rest.forM f) s _ _
    refine .bind ((h s x).imp (fun _ s' => ?_) fun _ _ hx hall => hx hall.1)
    rintro ⟨hx, rfl⟩
    refine (ih (step s x)).imp (fun _ s'' => ?_) fun _ _ hrest hall => hrest hall.2
    rintro ⟨hrest, rfl⟩
    exact ⟨⟨hx, hrest⟩, rfl⟩

theorem passes_iff_forall {test : β → Prop} {s : σ} :
    Passes (fun _ => test) step s xs ↔ ∀ x ∈ xs, test x := by
  induction xs generalizing s with
  | nil => simp [Passes]
  | cons x rest ih => simp [Passes, ih]

/-- What a step needs of its item alone holds of every item. -/
theorem Passes.forall_mem {test : σ → β → Prop} {Q : β → Prop} (hQ : ∀ s x, test s x → Q x) {s : σ}
    (h : Passes test step s xs) : ∀ x ∈ xs, Q x := by
  induction xs generalizing s with
  | nil => exact forall_mem_nil _
  | cons x rest ih => exact forall_mem_cons.2 ⟨hQ s x h.1, ih h.2⟩

/-- Tests that do not depend on the state can be made beforehand. -/
theorem After.forM_forall {test : β → Prop}
    (h : ∀ s x, After (f x) s (fun _ s' => test x ∧ s' = step s x) fun _ _ => ¬ test x) (s : σ)
    (xs : List β) :
    After (xs.forM f) s (fun _ s' => (∀ x ∈ xs, test x) ∧ s' = xs.foldl step s)
      fun _ _ => ¬ ∀ x ∈ xs, test x :=
  (After.forM_passes h s xs).imp (fun _ _ hpass => ⟨passes_iff_forall.1 hpass.1, hpass.2⟩)
    fun _ _ hnot hall => hnot (passes_iff_forall.2 hall)

end Steps

namespace Table

variable {name : String} {α : Type} {t u : Table name α}

theorem mem_toList {a : α} : a ∈ t.toList ↔ ∃ h, t.get? h = some a := by
  rw [mem_iff_getElem?]
  exact ⟨fun ⟨i, hi⟩ => ⟨⟨i⟩, by rw [← hi, getElem?_toList]⟩,
    fun ⟨h, hh⟩ => ⟨h.index, by rw [getElem?_toList, hh]⟩⟩

theorem eq_of_toList (h : t.toList = u.toList) : t = u := by
  obtain ⟨a⟩ := t
  obtain ⟨b⟩ := u
  exact congrArg mk (Array.toList_inj.1 h)

theorem modify_push_next (t : Table name α) (a : α) (f : α → α) :
    (t.push a).modify t.next f = t.push (f a) := by
  refine eq_of_toList (ext_getElem? fun i => ?_)
  simp only [getElem?_toList, get?_modify, get?_push]
  grind

end Table

/-- A tensor without its edges. -/
def Tensor.bare (x : Tensor) : Tensor := { x with producer := none, consumers := [] }

/-! ## What a definition describes -/

/-- The tensor a definition describes, without edges. One with data is a constant. -/
def TensorDef.tensor (d : TensorDef) : Tensor where
  name := d.name
  spec := ⟨d.element, d.shape, if d.data.isSome then .constant else d.role, d.quant⟩
  data := d.data.map d.element.encode
  producer := none
  consumers := []

/-- Data fill the shape, and a constant has data. -/
def TensorDef.Fits (lim : Limit) (d : TensorDef) : Prop :=
  match d.data with
  | some values => d.tensor.spec.byteSize lim = .ok (d.element.encode values).length
  | none => d.role ≠ .constant

/-- The operation a definition describes. -/
def OperationDef.operation (d : OperationDef) : Operation :=
  ⟨d.kind, d.inputs.map Handle.mk, ⟨d.outputs.headD 0⟩⟩

/-- The operation has one output, and all its positions are tensors of the graph, and it passes the
checks. -/
structure OperationDef.Fits (lim : Limit) (count : Nat) (g : Graph) (d : OperationDef) : Prop where
  inputs : ∀ p ∈ d.inputs, p < count
  outputs : ∃ p, d.outputs = [p] ∧ p < count
  check : g.checkOp lim d.kind d.operation.inputs d.operation.output = .ok ()

/-- The tensors of a definition, without operations. -/
def Graph.ofTensors (ds : List TensorDef) : Graph :=
  ds.foldl (fun g d => g.withTensor d.tensor) .empty

/-- The graph with the operations of a definition. -/
def Graph.withOps (g : Graph) (ds : List OperationDef) : Graph :=
  ds.foldl (fun g d => g.withOp d.operation) g

/-- The graph a definition describes. -/
def GraphDef.graph (d : GraphDef) : Graph := (Graph.ofTensors d.tensors).withOps d.ops

/-- Every tensor and every operation of a definition fits. -/
structure GraphDef.Fits (lim : Limit) (d : GraphDef) : Prop where
  tensors : ∀ t ∈ d.tensors, t.Fits lim
  ops : Passes (OperationDef.Fits lim d.tensors.length) (fun g o => g.withOp o.operation)
    (Graph.ofTensors d.tensors) d.ops

namespace Graph

variable {lim : Limit} {g g' : Graph} {t out : TensorId} {o : OpId} {x : Tensor} {op : Operation}
  {count : Nat} {d : GraphDef} {spec : TensorSpec}

/-! ## Rebuilding -/

theorem named_withTensor (g : Graph) (x : Tensor) (n : String) :
    (g.withTensor x).withTensorChanged g.tensors.next (fun y => { y with name := some n }) =
      g.withTensor { x with name := some n } := by
  simp only [withTensorChanged, withTensor, modify_push_next]

theorem after_named {e : Edit TensorId} {name : Option String} {P : Prop} (hx : x.name = none)
    (h : After e g (fun id g' => P ∧ id = g.tensors.next ∧ g' = g.withTensor x) fun _ _ => ¬ P) :
    After (e >>= fun id => if let some n := name then setName id n else pure ()) g
      (fun _ g' => P ∧ g' = g.withTensor { x with name := name }) fun _ _ => ¬ P := by
  refine h.then_ fun id g' => ?_
  rintro ⟨hP, rfl, rfl⟩
  cases name with
  | none =>
    refine .pure ⟨hP, ?_⟩
    rw [← hx]
  | some n => grind [after_setName, named_withTensor, withTensor_tensors, get?_push_next]

theorem after_addTensorDef (lim : Limit) (g : Graph) (d : TensorDef) :
    After (addTensorDef lim d) g (fun _ g' => d.Fits lim ∧ g' = g.withTensor d.tensor)
      fun _ _ => ¬ d.Fits lim := by
  obtain ⟨name, element, shape, role, quant, data⟩ := d
  cases data with
  | some values =>
    exact after_named (x := { TensorDef.tensor ⟨none, element, shape, role, quant, some values⟩ with
      name := none }) rfl
      (after_createConstant (fun h => ⟨h, rfl, rfl⟩) fun h _ => h)
  | none =>
    by_cases hrole : role = .constant
    · subst hrole
      exact .bind (.get (.bind (.throw fun h => h rfl)))
    · cases role with
      | constant => exact absurd rfl hrole
      | input | output | transient => exact after_named rfl (after_createTensor ⟨hrole, rfl, rfl⟩)

theorem resolve_eq_ok {positions : List Nat} {ts : List TensorId} :
    resolve count positions = .ok ts ↔
      (∀ p ∈ positions, p < count) ∧ ts = positions.map Handle.mk := by
  unfold resolve
  induction positions generalizing ts with
  | nil =>
    rw [mapM_nil]
    exact ⟨fun h => ⟨by simp, by cases h; rfl⟩, fun h => by rw [h.2]; rfl⟩
  | cons p rest ih =>
    rw [mapM_cons]
    by_cases hp : p < count
    · simp only [hp, if_true, bind_ok, bind_eq_ok, ih, mem_cons, forall_eq_or_imp, true_and,
        map_cons]
      constructor
      · rintro ⟨ts', ⟨hrest, rfl⟩, h⟩
        exact ⟨hrest, (Except.ok.inj h).symm⟩
      · rintro ⟨hrest, rfl⟩
        exact ⟨_, ⟨hrest, rfl⟩, rfl⟩
    · simp only [hp, if_false, mem_cons, forall_eq_or_imp, false_and, iff_false]
      exact fun h => by cases h

theorem after_addOperationDef (lim : Limit) (count : Nat) (g : Graph) (d : OperationDef) :
    After (addOperationDef lim count d) g
      (fun _ g' => d.Fits lim count g ∧ g' = g.withOp d.operation)
      fun _ _ => ¬ d.Fits lim count g := by
  refine .bind (.ofExcept (fun inputs hinputs => ?_) fun e he hfits => ?_)
  · obtain ⟨hin, rfl⟩ := resolve_eq_ok.1 hinputs
    refine .bind (.ofExcept (fun outputs houtputs => ?_) fun e he hfits => ?_)
    · obtain ⟨hout, rfl⟩ := resolve_eq_ok.1 houtputs
      obtain ⟨kind, ins, outs⟩ := d
      refine .bind
        (after_addOp_checked (fun out heq hc => .pure ?_) fun hnot _ hfits => ?_)
      · obtain ⟨p, hp, rfl⟩ := map_eq_singleton_iff.1 heq
        subst hp
        exact ⟨⟨hin, ⟨p, rfl, hout p mem_cons_self⟩, hc⟩, rfl⟩
      · obtain ⟨p, rfl, -⟩ := hfits.outputs
        exact hnot ⟨p⟩ rfl hfits.check
    · obtain ⟨p, hp, hlt⟩ := hfits.outputs
      rw [resolve_eq_ok.2 ⟨by simpa [hp] using hlt, rfl⟩] at he
      cases he
  · rw [resolve_eq_ok.2 ⟨hfits.inputs, rfl⟩] at he
    cases he

theorem after_addDef (lim : Limit) (d : GraphDef) :
    After (addDef lim d) .empty (fun _ g => d.Fits lim ∧ g = d.graph) fun _ _ => ¬ d.Fits lim := by
  refine .bind ((After.forM_forall (after_addTensorDef lim) .empty d.tensors).imp
    (fun _ g => ?_) fun _ _ hnot hfits => hnot hfits.tensors)
  rintro ⟨htensors, rfl⟩
  refine (After.forM_passes (after_addOperationDef lim d.tensors.length) _ d.ops).imp
    (fun _ g => ?_) fun _ _ hnot hfits => hnot hfits.ops
  rintro ⟨hops, rfl⟩
  exact ⟨⟨htensors, hops⟩, rfl⟩

/-- **A definition that fits is rebuilt, and no other.** -/
theorem ofDef_eq_ok_iff : ofDef lim d = .ok g ↔ d.Fits lim ∧ d.graph = g := by
  unfold ofDef Graph.run
  rcases (after_addDef lim d).run_cases with ⟨a, s, hrun, hfits, rfl⟩ | ⟨e, s, hrun, hnot⟩
  · rw [hrun]
    simp [hfits]
  · grind

/-! ## The tensors and operations of a rebuilt graph -/

theorem ofTensors_concat (ds : List TensorDef) (d : TensorDef) :
    ofTensors (ds ++ [d]) = (ofTensors ds).withTensor d.tensor := by
  simp [ofTensors, foldl_append]

theorem ofTensors_toList (ds : List TensorDef) :
    (ofTensors ds).tensors.toList = ds.map TensorDef.tensor := by
  induction ds using reverseRecOn with
  | nil => rfl
  | append_singleton ds d ih => simp [ofTensors_concat, ih]

theorem wellFormed_ofTensors (ds : List TensorDef) : WellFormed (ofTensors ds) := by
  induction ds using reverseRecOn with
  | nil => exact wellFormed_empty
  | append_singleton ds d ih =>
    rw [ofTensors_concat]
    exact ih.withTensor rfl rfl

theorem ofTensors_ops (ds : List TensorDef) : (ofTensors ds).ops = .empty := by
  induction ds using reverseRecOn with
  | nil => rfl
  | append_singleton ds d ih => rw [ofTensors_concat, withTensor_ops, ih]

theorem orderly_ofTensors (ds : List TensorDef) : Orderly (ofTensors ds) := by
  induction ds using reverseRecOn with
  | nil => exact .empty
  | append_singleton ds d ih =>
    grind [ofTensors_concat, wellFormed_ofTensors, map_eq_some_iff, TensorDef.tensor,
      Orderly.withTensor]

/-- Binding an operation changes nothing about tensors but their edges. -/
theorem withOp_bare (g : Graph) (op : Operation) :
    (g.withOp op).tensors.toList.map Tensor.bare = g.tensors.toList.map Tensor.bare := by
  refine ext_getElem? fun i => ?_
  simp only [getElem?_map, getElem?_toList, withOp_get?, Option.map_map]
  rfl

theorem withOps_bare (g : Graph) (ds : List OperationDef) :
    (g.withOps ds).tensors.toList.map Tensor.bare = g.tensors.toList.map Tensor.bare := by
  induction ds generalizing g with
  | nil => rfl
  | cons d rest ih => exact (ih (g.withOp d.operation)).trans (withOp_bare g d.operation)

theorem withOps_ops (g : Graph) (ds : List OperationDef) :
    (g.withOps ds).ops.toList = g.ops.toList ++ ds.map OperationDef.operation := by
  induction ds generalizing g with
  | nil => simp [withOps]
  | cons d rest ih =>
    refine (ih (g.withOp d.operation)).trans ?_
    simp

theorem graph_bare (d : GraphDef) :
    d.graph.tensors.toList.map Tensor.bare = d.tensors.map TensorDef.tensor := by
  rw [GraphDef.graph, withOps_bare, ofTensors_toList, List.map_map]
  rfl

theorem graph_ops (d : GraphDef) : d.graph.ops.toList = d.ops.map OperationDef.operation := by
  rw [GraphDef.graph, withOps_ops, ofTensors_ops]
  rfl

/-! ## The definition of a graph -/

theorem toDef_eq_ok {ds : List TensorDef}
    (h : List.Forall₂ (fun x d => tensorDef x = .ok d) g.tensors.toList ds) :
    g.toDef = .ok ⟨ds, g.ops.toList.map operationDef⟩ := by
  unfold toDef
  rw [mapM_eq_ok_iff.2 h]
  rfl

theorem exists_count_of_byteSize {size : Nat}
    (h : spec.byteSize lim = .ok size) : ∃ n, size = n * spec.element.width := by
  obtain ⟨n, -, hn⟩ := bind_eq_ok.1 h
  refine ⟨n, ?_⟩
  unfold Limit.mul Limit.check at hn
  grind

/-- Data that fill their shape have values, which take as many bytes. -/
theorem exists_decode_of_byteSize {bytes : List UInt8}
    (h : spec.byteSize lim = .ok bytes.length) : ∃ values, spec.element.decode bytes = .ok values ∧
      (spec.element.encode values).length = bytes.length := by
  grind [exists_count_of_byteSize, ElementType.length_encode, ElementType.exists_decode]

/-- The definition of a tensor describes the tensor, up to edges and the bytes of its data. -/
structure Describes (lim : Limit) (x : Tensor) (d : TensorDef) : Prop where
  eq_ok : tensorDef x = .ok d
  name : d.tensor.name = x.name
  spec : d.tensor.spec = x.spec
  data : d.tensor.data.map List.length = x.data.map List.length
  fits : d.Fits lim

theorem exists_describes (hfill : ∀ bytes, x.data = some bytes →
      x.spec.byteSize lim = .ok bytes.length)
    (hconstant : x.data.isSome = true ↔ x.spec.role = .constant) : ∃ d, Describes lim x d := by
  cases hdata : x.data with
  | none =>
    have hrole : x.spec.role ≠ .constant := fun h => by
      grind
    refine ⟨⟨x.name, x.spec.element, x.spec.shape, x.spec.role, x.spec.quant, none⟩, ?_, rfl, rfl,
      ?_, hrole⟩
    · simp only [tensorDef, hdata]
      rfl
    · rw [hdata]
      rfl
  | some bytes =>
    have hrole : x.spec.role = .constant := hconstant.1 (by simp [hdata])
    obtain ⟨values, hvalues, hlen⟩ := exists_decode_of_byteSize (hfill bytes hdata)
    have hspec :
        (⟨x.spec.element, x.spec.shape, .constant, x.spec.quant⟩ : TensorSpec) = x.spec := by
      rw [← hrole]
    refine ⟨⟨x.name, x.spec.element, x.spec.shape, x.spec.role, x.spec.quant, some values⟩, ?_, rfl,
      hspec, ?_, ?_⟩
    · simp only [tensorDef, hdata, hvalues]
      rfl
    · rw [hdata]
      exact congrArg some hlen
    · change TensorSpec.byteSize lim ⟨x.spec.element, x.spec.shape, .constant, x.spec.quant⟩ = _
      grind

theorem operation_operationDef (op : Operation) : (operationDef op).operation = op := by
  obtain ⟨kind, inputs, output⟩ := op
  simp [operationDef, OperationDef.operation, Function.comp_def]

/-! ## Replaying the operations -/

theorem checkOp_ok {kind : Operator} {inputs : List TensorId} {y : Tensor}
    (hs : g.inferOutput lim kind inputs = .ok y.spec.shape) (hy : g.tensors.get? out = some y)
    (hw : y.spec.role.isWritable = true) (hfree : y.producer = none) :
    g.checkOp lim kind inputs out = .ok () := by
  unfold checkOp
  rw [hs, bind_ok, tensor_eq_ok.2 hy, bind_ok]
  simp only [ne_eq, not_true_eq_false, if_false, hw, hfree, Bool.not_true, Bool.false_eq_true,
    isSome_none]
  rfl

/-- The second graph has the tensors of the first, with their descriptions. -/
def SameSpecs (g g' : Graph) : Prop :=
  ∀ t, (g'.tensors.get? t).map Tensor.spec = (g.tensors.get? t).map Tensor.spec

namespace SameSpecs

theorem exists_tensor (h : SameSpecs g g') (hx : g.tensors.get? t = some x) :
    ∃ y, g'.tensors.get? t = some y ∧ y.spec = x.spec := by
  have ht := h t
  grind [map_eq_some_iff]

theorem shapeOf_eq (h : SameSpecs g g') (t : TensorId) : g'.shapeOf t = g.shapeOf t := by
  have ht := h t
  unfold shapeOf
  cases hx : g.tensors.get? t <;> cases hy : g'.tensors.get? t <;> simp_all

theorem withOp (h : SameSpecs g g') (op : Operation) : SameSpecs g (g'.withOp op) := by
  intro t
  rw [withOp_get?, Option.map_map, ← h t]
  rfl

end SameSpecs

/-- An operation of a graph fits once more where only operations before it are bound. -/
theorem fits_operationDef (hg : g.WellFormed) (hc : g.Checked lim) (hsame : SameSpecs g g')
    (hg' : g'.WellFormed) (hop : g.ops.get? o = some op)
    (hbefore : ∀ {p q}, g'.ops.get? p = some q → p ≠ o ∧ g.ops.get? p = some q) :
    (operationDef op).Fits lim g.tensors.size g' := by
  obtain ⟨x, hx⟩ := hg.output_known hop
  obtain ⟨y, hy, hspec⟩ := hsame.exists_tensor hx
  refine ⟨?_, ⟨op.output.index, rfl, lt_of_get? hx⟩, ?_⟩
  · intro p hp
    obtain ⟨t, ht, rfl⟩ := mem_map.1 hp
    obtain ⟨z, hz⟩ := hg.input_known hop ht
    exact lt_of_get? hz
  · rw [operation_operationDef]
    have hproducer : x.producer = some o := (hg.producer_iff hx).2 ⟨op, hop, rfl⟩
    refine checkOp_ok (inferOutput_eq_ok.2 ⟨hg.inputs_ne_nil hop, fun t ht => ?_, ?_⟩) hy ?_ ?_
    · grind [WellFormed.input_known, SameSpecs.exists_tensor]
    · rw [← shapeOf_eq hy, hsame.shapeOf_eq, funext hsame.shapeOf_eq]
      exact hc.op hop
    · -- The tensor is written in the graph, so its role allows it.
      by_contra hw
      rw [hspec, Bool.not_eq_true] at hw
      grind [WellFormed.source_free]
    · -- Another writer would be one of the graph as well.
      by_contra hbound
      obtain ⟨p, hp⟩ := ne_none_iff_exists'.1 hbound
      grind [WellFormed.producer_iff]

/-- The operations of a graph can be bound again, in order, to tensors as the graph has them. -/
theorem passes_operationDefs (hg : g.WellFormed) (hc : g.Checked lim) {done rest : List Operation}
    (hops : g.ops.toList = done ++ rest) (hsame : SameSpecs g g') (hg' : g'.WellFormed)
    (hdone : g'.ops.toList = done) :
    Passes (OperationDef.Fits lim g.tensors.size) (fun g o => g.withOp o.operation) g'
      (rest.map operationDef) := by
  induction rest generalizing g' done with
  | nil => trivial
  | cons op rest ih =>
    have hop : g.ops.get? ⟨done.length⟩ = some op := by
      rw [← getElem?_toList, hops]
      simp
    have hbefore : ∀ {p q}, g'.ops.get? p = some q →
        p ≠ (⟨done.length⟩ : OpId) ∧ g.ops.get? p = some q := by
      intro p q hq
      have hlt : p.index < done.length := by
        rw [← hdone, Table.length_toList]
        exact lt_of_get? hq
      refine ⟨fun heq => ?_, ?_⟩
      · grind
      · rw [← getElem?_toList, hdone] at hq
        rw [← getElem?_toList, hops, getElem?_append_left hlt, hq]
    have hfits := fits_operationDef hg hc hsame hg' hop hbefore
    refine ⟨hfits, ih ?_ (hsame.withOp _) (hg'.withOp_of_check hfits.check) rfl⟩
    rw [hops, withOp_ops, toList_push, hdone, operation_operationDef, append_assoc,
      singleton_append]

/-! ## The graph of a definition that fits -/

theorem WellFormed.withOps {ds : List OperationDef} (hg : g.WellFormed)
    (h : Passes (OperationDef.Fits lim count) (fun g o => g.withOp o.operation) g ds) :
    (g.withOps ds).WellFormed := by
  induction ds generalizing g with
  | nil => exact hg
  | cons d rest ih => exact ih (hg.withOp_of_check h.1.check) h.2

theorem Orderly.withOps (hg : g.Orderly) (ds : List OperationDef) : (g.withOps ds).Orderly := by
  induction ds generalizing g with
  | nil => exact hg
  | cons d rest ih => exact ih (hg.withOp d.operation)

theorem wellFormed_graph (h : d.Fits lim) : d.graph.WellFormed :=
  (wellFormed_ofTensors d.tensors).withOps h.ops

theorem orderly_graph (d : GraphDef) : d.graph.Orderly :=
  (orderly_ofTensors d.tensors).withOps d.ops

/-! ## Dependency order -/

/-- The dependency order is found from the operations and their edges alone. -/
theorem order_congr (hops : g'.ops = g.ops) (hproducer : ∀ t, g'.producer t = g.producer t)
    (hconsumers : ∀ t, g'.consumers t = g.consumers t) : g'.order = g.order := by
  have hpending : g'.pendingInputs = g.pendingInputs := by grind [pendingInputs]
  have hrelease : g'.release = g.release := by grind [release]
  have hschedule : ∀ steps s listed, g'.schedule steps s listed = g.schedule steps s listed := by
    intro steps
    induction steps with
    | zero => rintro ⟨pending, _ | ⟨id, queue⟩⟩ listed <;> rfl
    | succ steps ih =>
      rintro ⟨pending, _ | ⟨id, queue⟩⟩ listed
      · rfl
      · simp only [schedule, hops, hconsumers, hrelease, ih]
  simp only [order, hops, hpending, hschedule]

/-! ## Round trip -/

/-- What a definition keeps of a tensor: its name, its description and the size of its data. -/
def outline (x : Tensor) : Option String × TensorSpec × Option Nat :=
  (x.name, x.spec, x.data.map List.length)

/-- The second graph is the first one, up to the bytes of data and the order of outputs. -/
structure Restores (g g' : Graph) : Prop where
  tensors : g'.tensors.toList.map outline = g.tensors.toList.map outline
  ops : g'.ops = g.ops
  producer : ∀ t, g'.producer t = g.producer t
  consumers : ∀ t, g'.consumers t = g.consumers t
  inputs : g'.inputs = g.inputs
  outputs : g'.outputs.Perm g.outputs
  order : g'.order = g.order

theorem sameSpecs_of_outline (h : g'.tensors.toList.map outline = g.tensors.toList.map outline) :
    SameSpecs g g' := by
  intro t
  have ht := congrArg (fun l => (l[t.index]?).map fun o => o.2.1) h
  simp only [getElem?_map, getElem?_toList, Option.map_map] at ht
  exact ht

theorem SameSpecs.select_role (h : SameSpecs g g') (role : Role) :
    (g'.tensors.select fun x => x.spec.role = role) =
      g.tensors.select fun x => x.spec.role = role := by
  refine Handle.eq_of_sorted (select_sorted _ _) (select_sorted _ _) fun t => ?_
  have ht := h t
  simp only [mem_select]
  cases hx : g.tensors.get? t <;> cases hy : g'.tensors.get? t <;> simp_all

/-- Edges, lists and the order follow from the operations and the roles. -/
theorem restores_of_outline (hg : g.WellFormed) (ho : g.Orderly) (hg' : g'.WellFormed)
    (ho' : g'.Orderly) (htensors : g'.tensors.toList.map outline = g.tensors.toList.map outline)
    (hops : g'.ops = g.ops) : g.Restores g' := by
  have hproducer : ∀ t, g'.producer t = g.producer t := by
    intro t
    refine ext fun o => ?_
    rw [hg'.producer_eq_some_iff, hg.producer_eq_some_iff, hops]
  have hconsumers : ∀ t, g'.consumers t = g.consumers t := by grind [WellFormed.consumers_eq]
  have hsame := sameSpecs_of_outline htensors
  refine ⟨htensors, hops, hproducer, hconsumers, ?_, ?_, order_congr hops hproducer hconsumers⟩
  · rw [hg'.inputs_eq ho', hg.inputs_eq ho, hsame.select_role]
  · refine hg'.outputs_perm.trans ?_
    rw [hsame.select_role]
    exact hg.outputs_perm.symm

theorem graph_outline (d : GraphDef) :
    d.graph.tensors.toList.map outline = d.tensors.map fun t => outline t.tensor := by
  have h := congrArg (map outline) (graph_bare d)
  rw [List.map_map, List.map_map] at h
  exact h

/-- Each tensor of a reachable graph can be described. -/
theorem exists_definitions (h : Reachable lim g)
    (hdata : ∀ t x, g.tensors.get? t = some x → x.spec.role = .constant → x.data.isSome = true) :
    ∃ describe : Tensor → TensorDef, ∀ x ∈ g.tensors.toList, Describes lim x (describe x) := by
  have : Nonempty TensorDef := ⟨⟨none, .f32, [], .input, none, none⟩⟩
  have hx : ∀ x ∈ g.tensors.toList, ∃ d, Describes lim x d := by
    intro x hx
    obtain ⟨t, ht⟩ := mem_toList.1 hx
    refine exists_describes (fun bytes => h.checked.data ht) ⟨fun hsome => ?_, hdata t x ht⟩
    obtain ⟨bytes, hbytes⟩ := isSome_iff_exists.1 hsome
    exact h.orderly.data_constant ht hbytes
  choose! describe hdescribe using hx
  exact ⟨describe, hdescribe⟩

/-- **A reachable graph whose constants have data is restored from its definition.** -/
theorem ofDef_toDef (h : Reachable lim g)
    (hdata : ∀ t x, g.tensors.get? t = some x → x.spec.role = .constant → x.data.isSome = true) :
    ∃ d g', g.toDef = .ok d ∧ ofDef lim d = .ok g' ∧ g.Restores g' := by
  obtain ⟨describe, hdescribe⟩ := exists_definitions h hdata
  let d : GraphDef := ⟨g.tensors.toList.map describe, g.ops.toList.map operationDef⟩
  have hdef : g.toDef = .ok d := by
    refine toDef_eq_ok (List.forall₂_map_right_iff.2 (List.forall₂_same.2 fun x hx => ?_))
    exact (hdescribe x hx).eq_ok
  have houtline : ∀ ops, (GraphDef.graph ⟨d.tensors, ops⟩).tensors.toList.map outline =
      g.tensors.toList.map outline := by
    intro ops
    rw [graph_outline, List.map_map]
    refine List.map_congr_left fun x hx => ?_
    have hd := hdescribe x hx
    simp only [Function.comp_apply, outline, hd.name, hd.spec, hd.data]
  have hops : d.graph.ops = g.ops := by
    refine Table.eq_of_toList ?_
    rw [graph_ops, List.map_map]
    exact (List.map_congr_left fun op _ => operation_operationDef op).trans (List.map_id _)
  have hfits : d.Fits lim := by
    constructor
    · intro t ht
      obtain ⟨x, hx, rfl⟩ := List.mem_map.1 ht
      exact (hdescribe x hx).fits
    · -- All tensors stand in their final roles before the first operation is bound.
      have hcount : d.tensors.length = g.tensors.size := by
        rw [List.length_map, Table.length_toList]
      rw [hcount]
      refine passes_operationDefs h.wellFormed h.checked
        (List.nil_append _).symm (sameSpecs_of_outline (houtline []))
        (wellFormed_ofTensors d.tensors) ?_
      rw [ofTensors_ops]
      rfl
  have hrestores := restores_of_outline h.wellFormed h.orderly (wellFormed_graph hfits)
    (orderly_graph d) (houtline d.ops) hops
  exact ⟨d, d.graph, hdef, ofDef_eq_ok_iff.2 ⟨hfits, rfl⟩, hrestores⟩

/-- An operation that is bound before the one that writes its input, a named constant, and outputs
that are marked in another order than that of their handles. -/
def outOfOrder : List Call :=
  [.createTensor ⟨.f32, [2], .input, none⟩,
    .createConstant ⟨.i32, [2], .input, some ⟨.ofInt 2, 1⟩⟩ [1, 2, 3, 4, 255, 255, 255, 127],
    .setName ⟨1⟩ "weights", .createTensor ⟨.f32, [2], .transient, none⟩,
    .emit (.binary .add) [⟨2⟩, ⟨1⟩] .output, .addOp (.binary .mul) [⟨0⟩, ⟨0⟩] [⟨2⟩],
    .emit (.binary .max) [⟨3⟩, ⟨1⟩] .output, .setOutput ⟨2⟩]

theorem ofDef_toDef_outOfOrder :
    (build .word64 outOfOrder).outputs = [⟨3⟩, ⟨4⟩, ⟨2⟩] ∧
    ((build .word64 outOfOrder).order = .ok [⟨1⟩, ⟨0⟩, ⟨2⟩]) ∧
    ∃ d g', (build .word64 outOfOrder).toDef = .ok d ∧ ofDef .word64 d = .ok g' ∧
      (build .word64 outOfOrder).Restores g' := by
  have h : Reachable .word64 (build .word64 outOfOrder) := reachable_iff_build.2 ⟨outOfOrder, rfl⟩
  refine ⟨by decide +kernel, by decide +kernel, ofDef_toDef h fun t x hx hr => ?_⟩
  have hall : ∀ x ∈ (build .word64 outOfOrder).tensors.toList,
      x.spec.role = .constant → x.data.isSome = true := by decide +kernel
  exact hall x (Table.mem_toList.2 ⟨t, hx⟩) hr

end Graph

end CanvasFusion
