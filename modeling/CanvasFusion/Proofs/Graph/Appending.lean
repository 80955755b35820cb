import CanvasFusion.Proofs.Graph.Runnable

/-!
# Operations at the end of a graph

An emitter appends operations to a graph, each with a new output. `Emits` says that a graph is
another one with a list of operations at its end. Its step is `Emits.snoc`: one more operation,
whose output has the next number. In a list that is `chained`, each operation reads the output of
the one before.
-/

namespace CanvasFusion

open List Table

namespace Graph

variable {g₀ g g' : Graph} {ops : List Operation} {outs : List TensorId} {op : Operation}
  {kind : Operator} {inputs : List TensorId} {x y : TensorId} {s : Shape} {i n : Nat}

/-! ## Operations at the end of a graph -/

/-- The second graph is the first with some operations added, each of which has a new output. Those
in `outs` are outputs of the graph. -/
structure Emits (g₀ g : Graph) (ops : List Operation) (outs : List TensorId) : Prop where
  grows : g₀.Grows g
  runnable : g.Runnable
  continues : Continues outs g₀ g
  size_eq : g.tensors.size = g₀.tensors.size + ops.length
  ops_eq : g.ops.toList = g₀.ops.toList ++ ops

namespace Emits

theorem refl (hg : g.Runnable) : g.Emits g [] [] :=
  ⟨.refl g, hg, .refl g, rfl, (append_nil _).symm⟩

section Next

variable {role : Role} (h : g₀.Emits g ops outs) (hadds : g.Adds g' role kind inputs y s)

include h hadds

theorem snoc : g₀.Emits g' (ops ++ [⟨kind, inputs, y⟩])
    (outs ++ if role = .output then [y] else []) where
  grows := h.grows.trans hadds.grows
  runnable := hadds.runnable
  continues := h.continues.trans hadds.continues
  size_eq := by simp [hadds.size_eq, h.size_eq, Nat.add_assoc]
  ops_eq := by simp [hadds.ops_eq, h.ops_eq]

/-- The output that the next operation will have. -/
theorem fresh_eq : y = ⟨g₀.tensors.size + ops.length⟩ := by
  rw [hadds.fresh, Table.next, h.size_eq]

end Next

theorem size_le (h : g₀.Emits g ops outs) : g₀.tensors.size ≤ g.tensors.size :=
  h.size_eq ▸ Nat.le_add_right _ _

theorem ops_size (h : g₀.Emits g ops outs) : g.ops.size = g₀.ops.size + ops.length := by
  rw [← length_toList, h.ops_eq, length_append, length_toList]

theorem get?_op (h : g₀.Emits g ops outs) (hop : ops[i]? = some op) :
    g.ops.get? ⟨g₀.ops.size + i⟩ = some op := by
  rw [← getElem?_toList, h.ops_eq, ← length_toList,
    getElem?_append_right (by simp)]
  simpa using hop

theorem exists_op (h : g₀.Emits g ops outs) (hop : op ∈ ops) : ∃ o, g.ops.get? o = some op := by
  obtain ⟨i, hi⟩ := mem_iff_getElem?.1 hop
  exact ⟨_, h.get?_op hi⟩

end Emits

/-! ## Chains -/

/-- The tensors of a chain from `x`, whose other tensors are numbered from `n` on. -/
def link (x : TensorId) (n : Nat) : Nat → TensorId
  | 0 => x
  | i + 1 => ⟨n + i⟩

/-- Operations of one input, each applied to the output of the one before. -/
def chained (x : TensorId) (n : Nat) (kinds : List Operator) : List Operation :=
  kinds.mapIdx fun i kind => ⟨kind, [link x n i], link x n (i + 1)⟩

theorem length_chained (x : TensorId) (n : Nat) (kinds : List Operator) :
    (chained x n kinds).length = kinds.length := by
  simp [chained]

theorem chained_snoc (x : TensorId) (n : Nat) (kinds : List Operator) (kind : Operator) :
    chained x n (kinds ++ [kind]) = chained x n kinds ++
      [⟨kind, [link x n kinds.length], link x n (kinds.length + 1)⟩] := by
  simp [chained, mapIdx_append]

end Graph

end CanvasFusion
