import CanvasFusion.Proofs.Graph.Building

/-!
# The interface of a graph that grows

The inputs of a graph, its outputs and the names of its tensors are what a caller sees of it. A new
tensor joins one of the two lists if its role says so, at the end, and changes nothing about the
tensors that were there before (`Enters`). A graph that has been continued by steps of this kind,
none of them an input, has the same inputs and some more outputs (`Continues`).
-/

namespace CanvasFusion.Graph

variable {g g' g'' : Graph} {outs outs' : List TensorId} {t y : TensorId} {role : Role}
  {name : Option String} {x : Tensor}

/-! ## One more tensor -/

/-- A tensor has entered the graph, with a role and maybe a name. -/
structure Enters (role : Role) (name : Option String) (y : TensorId) (g g' : Graph) : Prop where
  fresh : g.tensors.get? y = none
  inputs : g'.inputs = g.inputs ++ if role = .input then [y] else []
  outputs : g'.outputs = g.outputs ++ if role = .output then [y] else []
  tensor : ∀ {t x}, g.tensors.get? t = some x →
    ∃ x', g'.tensors.get? t = some x' ∧ x'.spec = x.spec ∧ x'.name = x.name
  entered : ∃ x, g'.tensors.get? y = some x ∧ x.spec.role = role ∧ x.name = name

theorem enters_withTensor (g : Graph) (x : Tensor) :
    Enters x.spec.role x.name g.tensors.next g (g.withTensor x) where
  fresh := Table.get?_next g.tensors
  inputs := by
    rw [withTensor]
    split_ifs <;> simp
  outputs := by
    rw [withTensor]
    split_ifs <;> simp
  tensor hx := ⟨_, withTensor_get? hx x, rfl, rfl⟩
  entered := ⟨x, Table.get?_push_next g.tensors x, rfl, rfl⟩

namespace Enters

/-- Giving the new tensor a name. -/
theorem named (h : Enters role none y g g') (name : Option String) :
    Enters role name y g (g'.named y name) where
  fresh := h.fresh
  inputs := (named_inputs ..).trans h.inputs
  outputs := (named_outputs ..).trans h.outputs
  tensor {t x} hx := by grind [named_get?, tensor, fresh]
  entered := by grind [named_get?, entered]

theorem withOp (h : Enters role name y g g') (op : Operation) :
    Enters role name y g (g'.withOp op) :=
  { h with
    tensor := fun hx => by grind [bound, withOp_get?, tensor]
    entered := by grind [bound, withOp_get?, entered] }

end Enters

/-! ## Graphs that are continued -/

/-- The second graph continues the first: it has the same inputs and some more outputs, and tensors
keep their descriptions and their names. -/
structure Continues (outs : List TensorId) (g g' : Graph) : Prop where
  inputs : g'.inputs = g.inputs
  outputs : g'.outputs = g.outputs ++ outs
  tensor : ∀ {t x}, g.tensors.get? t = some x →
    ∃ x', g'.tensors.get? t = some x' ∧ x'.spec = x.spec ∧ x'.name = x.name

namespace Continues

theorem refl (g : Graph) : Continues [] g g :=
  ⟨rfl, (List.append_nil _).symm, fun hx => ⟨_, hx, rfl, rfl⟩⟩

theorem trans (h : Continues outs g g') (h' : Continues outs' g' g'') :
    Continues (outs ++ outs') g g'' where
  inputs := h'.inputs.trans h.inputs
  outputs := by rw [h'.outputs, h.outputs, List.append_assoc]
  tensor hx := by grind [tensor]

end Continues

theorem Enters.continues (h : Enters role name y g g') (hrole : role ≠ .input) :
    Continues (if role = .output then [y] else []) g g' where
  inputs := by rw [h.inputs, if_neg hrole, List.append_nil]
  outputs := h.outputs
  tensor := h.tensor

end CanvasFusion.Graph
