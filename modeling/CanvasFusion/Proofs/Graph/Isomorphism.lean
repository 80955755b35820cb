import Mathlib.Logic.Equiv.Defs
import CanvasFusion.Proofs.Graph.Building
import CanvasFusion.Proofs.Related

/-!
# Graphs up to numbering

Tensors and operations are numbered in the order in which a graph is built. Two graphs are
*isomorphic* when they differ in these numbers only (`Graph.Iso`), apart from names and from the
order of outputs, constants and readers, which the numbers bring with them.

Graphs that are derived from isomorphic ones, such as their working copies, are related in a weaker
way: they *match* (`Graph.Matches`). Their tensors and operations correspond one to one, with the
same shapes, roles and operators, and corresponding operations read and write corresponding tensors.
-/

namespace CanvasFusion

open Option

/-- The operation on renumbered tensors. -/
def Operation.renumber (op : Operation) (ρ : TensorId → TensorId) : Operation :=
  ⟨op.kind, op.inputs.map ρ, ρ op.output⟩

namespace Graph

variable {g g' : Graph} {t t' u u' : TensorId} {o o' p p' : OpId} {op op' : Operation} {x : Tensor}

/-! ## Isomorphic graphs -/

/-- What a tensor is made of, apart from its name and from the operations around it. -/
def contents (g : Graph) (t : TensorId) : Option (TensorSpec × Option (List UInt8)) :=
  (g.tensors.get? t).map fun x => (x.spec, x.data)

/-- The second graph is the first with its tensors and operations renumbered. -/
structure Iso (g g' : Graph) where
  tensor : TensorId ≃ TensorId
  op : OpId ≃ OpId
  contents_eq : ∀ t, g'.contents (tensor t) = g.contents t
  ops_eq : ∀ o, g'.ops.get? (op o) = (g.ops.get? o).map (·.renumber tensor)
  inputs_eq : g'.inputs = g.inputs.map tensor

namespace Iso

/-- The renumbering back. -/
def symm (φ : Iso g g') : Iso g' g where
  tensor := φ.tensor.symm
  op := φ.op.symm
  contents_eq t := by rw [← φ.contents_eq, Equiv.apply_symm_apply]
  ops_eq o := by
    have hid : ∀ op : Operation, (op.renumber φ.tensor).renumber φ.tensor.symm = op := fun op => by
      simp [Operation.renumber]
    have h := φ.ops_eq (φ.op.symm o)
    rw [Equiv.apply_symm_apply] at h
    rw [h, map_map, show (Operation.renumber · φ.tensor.symm) ∘ (Operation.renumber · φ.tensor) =
      id from funext hid, map_id_fun, id]
  inputs_eq := by simp [φ.inputs_eq]

variable (φ : Iso g g')

theorem tensor_eq (hx : g.tensors.get? t = some x) :
    ∃ x', g'.tensors.get? (φ.tensor t) = some x' ∧ x'.spec = x.spec := by
  grind [contents, map_eq_some_iff, contents_eq]

theorem op_eq (hop : g.ops.get? o = some op) :
    g'.ops.get? (φ.op o) = some (op.renumber φ.tensor) := by
  rw [φ.ops_eq, hop]
  rfl

theorem shape_eq (t : TensorId) : g'.shapeOf (φ.tensor t) = g.shapeOf t := by
  have h := congrArg (Option.map fun c => c.1.shape) (φ.contents_eq t)
  unfold contents at h
  rw [map_map, map_map] at h
  exact congrArg (·.getD []) h

theorem mem_sources (hg : g.WellFormed) (hg' : g'.WellFormed) (ht : t ∈ g.sources) :
    φ.tensor t ∈ g'.sources := by
  obtain ⟨x, hx, hrole⟩ := hg.mem_sources.1 ht
  obtain ⟨x', hx', hspec⟩ := φ.tensor_eq hx
  exact hg'.mem_sources.2 ⟨x', hx', hspec ▸ hrole⟩

end Iso

/-! ## Graphs that match -/

/-- Tensors and operations of the graphs correspond, and look the same but for their numbers. -/
structure Matches (R : TensorId → TensorId → Prop) (S : OpId → OpId → Prop) (g g' : Graph) :
    Prop where
  tensor : ∀ {t t'}, R t t' → ∃ x x', g.tensors.get? t = some x ∧ g'.tensors.get? t' = some x' ∧
    x.spec.shape = x'.spec.shape ∧ x.spec.role = x'.spec.role
  unique : ∀ {t t' u u'}, R t t' → R u u' → (t = u ↔ t' = u')
  left : ∀ {t x}, g.tensors.get? t = some x → ∃ t', R t t'
  right : ∀ {t' x'}, g'.tensors.get? t' = some x' → ∃ t, R t t'
  op : ∀ {o o'}, S o o' → ∃ op op', g.ops.get? o = some op ∧ g'.ops.get? o' = some op' ∧
    op.kind = op'.kind ∧ List.Forall₂ R op.inputs op'.inputs ∧ R op.output op'.output
  op_left : ∀ {o op}, g.ops.get? o = some op → ∃ o', S o o'
  op_right : ∀ {o' op'}, g'.ops.get? o' = some op' → ∃ o, S o o'

namespace Matches

/-- A graph matches itself. -/
theorem refl (hg : g.WellFormed) : Matches (fun t t' => t = t' ∧ ∃ x, g.tensors.get? t = some x)
    (fun o o' => o = o' ∧ ∃ op, g.ops.get? o = some op) g g where
  tensor := by grind
  unique := by grind
  left hx := ⟨_, rfl, _, hx⟩
  right hx := ⟨_, rfl, _, hx⟩
  op := by
    rintro o _ ⟨rfl, op, hop⟩
    refine ⟨op, op, hop, hop, rfl, List.forall₂_same.2 fun x hx => ⟨rfl, hg.input_known hop hx⟩,
      rfl, hg.output_known hop⟩
  op_left hop := ⟨_, rfl, _, hop⟩
  op_right hop := ⟨_, rfl, _, hop⟩

variable {R : TensorId → TensorId → Prop} {S : OpId → OpId → Prop} (h : Matches R S g g')

include h

theorem symm : Matches (fun t' t => R t t') (fun o' o => S o o') g' g where
  tensor ht := by
    obtain ⟨x, x', hx, hx', hshape, hrole⟩ := h.tensor ht
    exact ⟨x', x, hx', hx, hshape.symm, hrole.symm⟩
  unique ht hu := (h.unique ht hu).symm
  left := h.right
  right := h.left
  op ho := by
    obtain ⟨op, op', hop, hop', hkind, hinputs, hout⟩ := h.op ho
    exact ⟨op', op, hop', hop, hkind.symm, hinputs.flip, hout⟩
  op_left := h.op_right
  op_right := h.op_left

theorem shape_eq (ht : R t t') : g.shape t = g'.shape t' := by
  obtain ⟨x, x', hx, hx', hshape, -⟩ := h.tensor ht
  rw [shape_ok hx, shape_ok hx', shapeOf_eq hx, shapeOf_eq hx', hshape]

theorem shapeOf_eq (ht : R t t') : g.shapeOf t = g'.shapeOf t' := by
  obtain ⟨x, x', hx, hx', hshape, -⟩ := h.tensor ht
  rw [Graph.shapeOf_eq hx, Graph.shapeOf_eq hx', hshape]

theorem mem_sources (hg : g.WellFormed) (hg' : g'.WellFormed) (ht : R t t') :
    t ∈ g.sources ↔ t' ∈ g'.sources := by
  obtain ⟨x, x', hx, hx', -, hrole⟩ := h.tensor ht
  grind [WellFormed.mem_sources]

/-- The operation that writes a tensor corresponds to one that writes the corresponding tensor. -/
theorem written (hop : g.ops.get? o = some op) (hout : R op.output t') :
    ∃ o' op', S o o' ∧ g'.ops.get? o' = some op' ∧ op'.output = t' ∧ op.kind = op'.kind ∧
      List.Forall₂ R op.inputs op'.inputs := by
  obtain ⟨o', ho⟩ := h.op_left hop
  obtain ⟨op₁, op', hop₁, hop', hkind, hinputs, hout'⟩ := h.op ho
  cases hop.symm.trans hop₁
  exact ⟨o', op', ho, hop', (h.unique hout' hout).1 rfl, hkind, hinputs⟩

theorem op_unique (hg : g.WellFormed) (hg' : g'.WellFormed) (ho : S o o') (hp : S p p') :
    o = p ↔ o' = p' := by
  obtain ⟨op, op', hop, hop', -, -, hout⟩ := h.op ho
  obtain ⟨qp, qp', hqp, hqp', -, -, hqout⟩ := h.op hp
  constructor
  · rintro rfl
    cases hop.symm.trans hqp
    exact hg'.op_eq_of_output hop' hqp' ((h.unique hout hqout).1 rfl)
  · rintro rfl
    cases hop'.symm.trans hqp'
    exact hg.op_eq_of_output hop hqp ((h.unique hout hqout).2 rfl)

end Matches

end Graph

end CanvasFusion
