import CanvasFusion.Proofs.Graph.Definition
import CanvasFusion.Proofs.Related
import CanvasFusion.Proofs.Storage

/-!
# Graphs that were saved and loaded

A graph lists its outputs in the order in which they were marked. A definition keeps the role of a
tensor, but not when the tensor got it, so the graph that is loaded from a definition lists its
outputs in the order of their handles.

**Theorem (reloaded_outputs).** Loading a saved graph sorts its outputs by handle: the list is kept
exactly if the outputs were marked in that order. Every evaluation holds the same values as before,
and the values of the outputs are permuted with the outputs.

Constants are saved as numbers. Their bytes may change, but the values that the bytes are decoded to
do not (`decode_encode_of_decode`), and an evaluation sees nothing else of them.
-/

namespace CanvasFusion

open Evaluation List Table Tensor

/-- What an evaluation sees of a tensor: its description, and the values that its data encode. -/
def Tensor.content (x : Tensor) : TensorSpec × Option (Except SizeMismatch (List Single)) :=
  (x.spec, x.data.map x.spec.element.decode)

namespace Graph

variable {lim : Limit} {g g' : Graph} {t : TensorId} {x : Tensor} {d : GraphDef}

/-! ## The order of outputs -/

/-- The outputs were marked in the order of their handles. -/
def MarkedInOrder (g : Graph) : Prop := g.outputs.Pairwise fun t u => t.index < u.index

instance : Decidable g.MarkedInOrder :=
  inferInstanceAs (Decidable (g.outputs.Pairwise fun t u => t.index < u.index))

theorem MarkedInOrder.withTensor (h : g.MarkedInOrder) (hg : g.WellFormed) (x : Tensor) :
    (g.withTensor x).MarkedInOrder := by
  by_cases hr : x.spec.role = .output
  · simp only [MarkedInOrder, Graph.withTensor, hr, if_true]
    refine pairwise_append.2 ⟨h, pairwise_singleton _ _, ?_⟩
    intro t ht u hu
    obtain ⟨y, hy, -⟩ := hg.mem_outputs.1 ht
    rw [mem_singleton.1 hu]
    exact lt_of_get? hy
  · simpa only [MarkedInOrder, Graph.withTensor, hr, if_false] using h

theorem markedInOrder_ofTensors (ds : List TensorDef) : (ofTensors ds).MarkedInOrder := by
  induction ds using reverseRecOn with
  | nil => exact Pairwise.nil
  | append_singleton ds d ih =>
    rw [ofTensors_concat]
    exact ih.withTensor (wellFormed_ofTensors ds) d.tensor

theorem withOps_outputs (g : Graph) (ds : List OperationDef) :
    (g.withOps ds).outputs = g.outputs := by
  induction ds generalizing g with
  | nil => rfl
  | cons d rest ih => exact ih (g.withOp d.operation)

/-- A definition marks the outputs in the order of their handles. -/
theorem markedInOrder_graph (d : GraphDef) : d.graph.MarkedInOrder := by
  simp only [MarkedInOrder, GraphDef.graph, withOps_outputs]
  exact markedInOrder_ofTensors d.tensors

/-- Among graphs with the same outputs, only one order is that of the handles. -/
theorem outputs_eq_iff (hperm : g'.outputs.Perm g.outputs) (h' : g'.MarkedInOrder) :
    g'.outputs = g.outputs ↔ g.MarkedInOrder := by
  grind [MarkedInOrder, Handle.eq_of_sorted]

/-! ## Saved graphs -/

/-- A definition that was made from a graph and can be loaded. -/
structure Saved (lim : Limit) (g : Graph) (d : GraphDef) : Prop where
  tensors : List.Forall₂ (Describes lim) g.tensors.toList d.tensors
  ops : d.ops = g.ops.toList.map operationDef

theorem exists_saved (h : Reachable lim g)
    (hdata : ∀ t x, g.tensors.get? t = some x → x.spec.role = .constant → x.data.isSome = true) :
    ∃ d, Saved lim g d := by
  obtain ⟨describe, hdescribe⟩ := exists_definitions h hdata
  refine ⟨⟨g.tensors.toList.map describe, _⟩, ?_, rfl⟩
  exact forall₂_map_right_iff.2 (forall₂_same.2 hdescribe)

/-- What the definition of a tensor keeps of it is kept of all the tensors of a graph. -/
theorem Saved.map_tensor {β : Type} (h : Saved lim g d) {f : Tensor → β}
    (hf : ∀ x t, Describes lim x t → f t.tensor = f x) (hbare : ∀ x : Tensor, f x.bare = f x)
    (ops : List OperationDef) :
    (GraphDef.graph ⟨d.tensors, ops⟩).tensors.toList.map f = g.tensors.toList.map f := by
  have hgraph := congrArg (map f) (graph_bare ⟨d.tensors, ops⟩)
  rw [map_map, map_map, show f ∘ bare = f from funext hbare] at hgraph
  rw [hgraph]
  apply Eq.symm
  apply map_eq_map_of_forall₂ h.tensors
  grind

theorem Saved.outline (h : Saved lim g d) (ops : List OperationDef) :
    (GraphDef.graph ⟨d.tensors, ops⟩).tensors.toList.map outline =
      g.tensors.toList.map outline := by
  apply h.map_tensor
  · intro x t ht
    simp only [Graph.outline, ht.name, ht.spec, ht.data]
  · intro x
    rfl

theorem Saved.toDef (h : Saved lim g d) : g.toDef = .ok d := by
  obtain ⟨tensors, ops⟩ := d
  rw [toDef_eq_ok (h.tensors.imp fun x t ht => ht.eq_ok), ← h.ops]

theorem Saved.graph_ops (h : Saved lim g d) : d.graph.ops = g.ops := by
  apply eq_of_toList
  rw [Graph.graph_ops, h.ops, map_map]
  exact (map_congr_left fun op _ => operation_operationDef op).trans (map_id _)

theorem Saved.fits (h : Saved lim g d) (hg : g.WellFormed) (hc : g.Checked lim) : d.Fits lim := by
  constructor
  · intro t ht
    obtain ⟨x, -, hx⟩ := forall₂_right_mem h.tensors ht
    exact hx.fits
  · have hcount : d.tensors.length = g.tensors.size := by rw [← h.tensors.length_eq, length_toList]
    rw [hcount, h.ops]
    have hsame : SameSpecs g (ofTensors d.tensors) := sameSpecs_of_outline (h.outline [])
    have hnone : (ofTensors d.tensors).ops.toList = [] := by
      rw [ofTensors_ops]
      rfl
    exact passes_operationDefs hg hc rfl hsame (wellFormed_ofTensors d.tensors) hnone

/-! ## Values of constants -/

/-- The second graph has the tensors of the first, with their descriptions and values. -/
def SameContents (g g' : Graph) : Prop :=
  ∀ t, (g'.tensors.get? t).map content = (g.tensors.get? t).map content

theorem SameContents.cases (h : SameContents g g') (t : TensorId) :
    (g.tensors.get? t = none ∧ g'.tensors.get? t = none) ∨
      ∃ x y, g.tensors.get? t = some x ∧ g'.tensors.get? t = some y ∧ y.content = x.content := by
  have ht := h t
  cases hx : g.tensors.get? t <;> cases hy : g'.tensors.get? t <;> simp_all

/-- Data are decoded to the same values once they were encoded from their values. -/
theorem Describes.content {t : TensorDef} (h : Describes lim x t) :
    t.tensor.content = x.content := by
  have heq := h.eq_ok
  apply Prod.ext h.spec
  cases hx : x.data with
  | none =>
    simp only [tensorDef, hx, bind_eq_ok] at heq
    obtain ⟨data, hdata, ht⟩ := heq
    cases hdata
    cases ht
    simp [Tensor.content, hx, TensorDef.tensor]
  | some bytes =>
    simp only [tensorDef, hx, bind_eq_ok, map_eq_ok, mapError_eq_ok] at heq
    obtain ⟨data, ⟨values, hvalues, rfl⟩, ht⟩ := heq
    cases ht
    simp [Tensor.content, hx, TensorDef.tensor, hvalues,
      ElementType.decode_encode_of_decode hvalues]

theorem Saved.sameContents (h : Saved lim g d) : SameContents g d.graph := by
  intro t
  have hall : d.graph.tensors.toList.map content = g.tensors.toList.map content :=
    h.map_tensor (fun x t ht => ht.content) (fun x => rfl) d.ops
  have ht := congrArg (·[t.index]?) hall
  simpa only [getElem?_map, getElem?_toList] using ht

/-! ## Evaluations -/

section Evaluation

variable {α : Type}

theorem SameContents.feed_eq (h : SameContents g g') (t : TensorId) (data : Array α) :
    feed lim g' t data = feed lim g t data := by
  obtain ⟨hx, hy⟩ | ⟨x, y, hx, hy, hxy⟩ := h.cases t
  · simp only [feed, tensor, hx, hy]
  · have hspec : y.spec = x.spec := congrArg Prod.fst hxy
    simp only [feed, tensor, hx, hy]
    show (check (Value.checked lim y.spec.shape data) >>= hold t) =
      (check (Value.checked lim x.spec.shape data) >>= hold t)
    rw [hspec]

/-- Outputs in another order have the same values in that order. -/
theorem exists_outputs_perm (h : g'.outputs.Perm g.outputs) {values : Values α}
    {vs : List (Value α)} (hvs : Evaluation.outputs g values = .ok vs) :
    ∃ vs', Evaluation.outputs g' values = .ok vs' ∧ vs'.Perm vs := by
  obtain ⟨vs', hvs', hperm⟩ := perm_comp_forall₂ h (mapM_eq_ok_iff.1 hvs)
  exact ⟨vs', mapM_eq_ok_iff.2 hvs', hperm⟩

variable [Scalar α]

theorem constantValue_of_get? (hx : g.tensors.get? t = some x) :
    (constantValue lim g t : Except EvalError (Value α)) =
      match x.content with
      | (_, none) => .error (.missingData t)
      | (spec, some values) =>
        values.mapError (fun m => EvalError.graph (.dataSize m)) >>= fun xs =>
          Value.checked lim spec.shape (xs.map Scalar.ofSingle).toArray := by
  simp only [constantValue, Table.get, hx, lift_fault_eval_ok, bind_ok, content]
  cases x.data with
  | none | some bytes => rfl

theorem SameContents.constantValue_eq (h : SameContents g g') (t : TensorId) :
    (constantValue lim g' t : Except EvalError (Value α)) =
      constantValue lim g t := by
  obtain ⟨hx, hy⟩ | ⟨x, y, hx, hy, hxy⟩ := h.cases t
  · simp only [constantValue, Table.get, hx, hy]
  · rw [constantValue_of_get? hx, constantValue_of_get? hy, hxy]

theorem SameContents.outputValue_eq (h : SameContents g g') (values : Values α) (op : Operation) :
    outputValue lim g' values op = outputValue lim g values op := by
  have hshape : g'.shape op.output = g.shape op.output := by
    obtain ⟨hx, hy⟩ | ⟨x, y, hx, hy, hxy⟩ := h.cases op.output
    · simp only [shape, Table.get, hx, hy]
    · have hspec : y.spec = x.spec := congrArg Prod.fst hxy
      simp only [shape, Table.get, hx, hy, hspec, Except.map]
  simp only [outputValue, hshape]

/-- An evaluation depends on the operations, their order, and the contents of the tensors. -/
theorem SameContents.evaluate_eq (hc : SameContents g g') (h : g.Restores g')
    (feeds : List (TensorId × Array α)) : evaluate lim g' feeds = evaluate lim g feeds := by
  have hconstants : g'.constants = g.constants :=
    (sameSpecs_of_outline h.tensors).select_role .constant
  have hfed : (checkFed g' : Evaluation α Unit) = checkFed g := by simp only [checkFed, h.inputs]
  simp only [evaluate, computeAll, hc.feed_eq, hfed, hconstants, hc.constantValue_eq,
    h.order, h.ops, hc.outputValue_eq]

end Evaluation

/-- **Loading a saved graph sorts its outputs by handle, and changes nothing else that an evaluation
shows.** -/
theorem reloaded_outputs (h : Reachable lim g)
    (hdata : ∀ t x, g.tensors.get? t = some x → x.spec.role = .constant → x.data.isSome = true) :
    ∃ d g', g.toDef = .ok d ∧ ofDef lim d = .ok g' ∧
      g'.outputs.Perm g.outputs ∧ g'.MarkedInOrder ∧
      (g'.outputs = g.outputs ↔ g.MarkedInOrder) ∧
      ∀ (α : Type) [Scalar α] (lim' : Limit) (feeds : List (TensorId × Array α)),
        evaluate lim' g' feeds = evaluate lim' g feeds ∧
        ∀ (values : Values α) (vs : List (Value α)), Evaluation.outputs g values = .ok vs →
          (∃ vs', Evaluation.outputs g' values = .ok vs' ∧ vs'.Perm vs) ∧
          (g.MarkedInOrder → Evaluation.outputs g' values = .ok vs) := by
  obtain ⟨d, hsaved⟩ := exists_saved h hdata
  have hfits := hsaved.fits h.wellFormed h.checked
  have hrestores := restores_of_outline h.wellFormed h.orderly (wellFormed_graph hfits)
    (orderly_graph d) (hsaved.outline d.ops) hsaved.graph_ops
  have hiff := outputs_eq_iff hrestores.outputs (markedInOrder_graph d)
  refine ⟨d, d.graph, hsaved.toDef, ofDef_eq_ok_iff.2 ⟨hfits, rfl⟩, hrestores.outputs,
    markedInOrder_graph d, hiff, ?_⟩
  intro α _ lim' feeds
  refine ⟨hsaved.sameContents.evaluate_eq hrestores feeds, ?_⟩
  intro values vs hvs
  refine ⟨exists_outputs_perm hrestores.outputs hvs, ?_⟩
  intro horder
  rw [Evaluation.outputs, hiff.2 horder]
  exact hvs

theorem reloaded_outputs_outOfOrder :
    (build .word64 outOfOrder).outputs = [⟨3⟩, ⟨4⟩, ⟨2⟩] ∧
    ¬ (build .word64 outOfOrder).MarkedInOrder ∧
    ∃ d g', (build .word64 outOfOrder).toDef = .ok d ∧ ofDef .word64 d = .ok g' ∧
      g'.outputs = [⟨2⟩, ⟨3⟩, ⟨4⟩] := by
  have houtputs : (build .word64 outOfOrder).outputs = [⟨3⟩, ⟨4⟩, ⟨2⟩] := by decide +kernel
  have h : Reachable .word64 (build .word64 outOfOrder) := reachable_iff_build.2 ⟨outOfOrder, rfl⟩
  have hall : ∀ x ∈ (build .word64 outOfOrder).tensors.toList,
      x.spec.role = .constant → x.data.isSome = true := by decide +kernel
  obtain ⟨d, g', hd, hg', hperm, horder, -⟩ :=
    reloaded_outputs h fun t x hx hr => hall x (Table.mem_toList.2 ⟨t, hx⟩) hr
  refine ⟨houtputs, by decide +kernel, d, g', hd, hg', ?_⟩
  apply Handle.eq_of_sorted horder (by decide)
  intro t
  rw [hperm.mem_iff, houtputs]
  simp only [List.mem_cons, List.not_mem_nil, or_false]
  tauto

end Graph

end CanvasFusion
