import CanvasFusion.Proofs.Element
import CanvasFusion.Proofs.Eval.Evaluation
import CanvasFusion.Proofs.Eval.Yields
import CanvasFusion.Proofs.Graph.Runnable

/-!
# Running a graph

`Models` is an assignment of values to the tensors of a graph that its constants and operations
agree with. What a graph computes is read off such an assignment, without an order of evaluation.

**Theorem (Runnable.evaluates).** A graph that lacks nothing but its inputs evaluates on all feeds
that fit and leave no input out, to an assignment that models it (`Runnable.exists_models`).
-/

namespace CanvasFusion

open List

variable {α : Type} [Scalar α] {g : Graph} {t : TensorId} {o : OpId} {op : Operation} {v : Value α}
  {x : Tensor}

/-- Values for the tensors of a graph that its constants and operations agree with. -/
structure Graph.Models (g : Graph) (V : TensorId → Value α) : Prop where
  shape : ∀ {t x}, g.tensors.get? t = some x → (V t).shape = g.shapeOf t
  full : ∀ {t x}, g.tensors.get? t = some x → (V t).Full
  constant : ∀ {t x}, g.tensors.get? t = some x → x.spec.role = .constant → x.Holds (V t)
  op : ∀ {o op}, g.ops.get? o = some op →
    compute .unbounded op.kind (op.inputs.map V) (g.shapeOf op.output) = .ok (V op.output).data

namespace Graph.Models

theorem of_has {V : TensorId → Value α} (h : g.Models V) {s : Shape} (ht : g.Has t s) :
    (V t).Full ∧ (V t).shape = s := by
  obtain ⟨x, hx⟩ := ht.known
  exact ⟨h.full hx, (h.shape hx).trans ht.shapeOf_eq⟩

variable {V : TensorId → Value α} (h : g.Models V) (hg : g.WellFormed)

include h hg

theorem full_inputs (hop : g.ops.get? o = some op) : ∀ w ∈ op.inputs.map V, w.Full := by
  grind [WellFormed.input_known, full]

/-- The value of an output is what its operation yields. -/
theorem yields (hop : g.ops.get? o = some op) : op.kind.Yields (op.inputs.map V) (V op.output) := by
  obtain ⟨y, hy⟩ := hg.output_known hop
  have hshapes : (op.inputs.map V).map (·.shape) = op.inputs.map g.shapeOf := by
    grind [map_congr_left, WellFormed.input_known, shape]
  refine ⟨?_, ?_⟩
  · rw [hshapes, h.shape hy]
    exact hg.op_shape hop
  · rw [h.shape hy]
    exact h.op hop

end Graph.Models

/-- A constant with its data has a value. -/
theorem Graph.Stocked.exists_holds (hg : g.Stocked) (hx : g.tensors.get? t = some x)
    (hrole : x.spec.role = .constant) : ∃ v : Value α, x.Holds v := by
  obtain ⟨data, hdata, hsize⟩ := hg.constant hx hrole
  have hlen : data.length = x.spec.shape.prod * x.spec.element.width := by
    rw [TensorSpec.byteSize, Operator.count_unbounded, bind_ok, Limit.mul_unbounded] at hsize
    exact (Except.ok.inj hsize).symm
  obtain ⟨xs, hxs, hcount⟩ := x.spec.element.exists_decode hlen
  exact ⟨_, data, xs, hdata, hxs, hcount, rfl⟩

namespace Graph.Denotes

variable {fed : TensorId → Option (Array α)}

theorem full (h : g.Denotes fed t v) : v.Full := by
  cases h with
  | input _ _ _ hsize | computed _ _ _ hsize => exact hsize
  | constant _ _ hv => exact hv.full

theorem shape_eq (h : g.Denotes fed t v) : v.shape = g.shapeOf t := by
  cases h with
  | input hx => exact (Graph.shapeOf_eq hx).symm
  | constant hx _ hv => exact hv.shape_eq.trans (Graph.shapeOf_eq hx).symm
  | computed => rfl

end Graph.Denotes

/-- Every tensor of a runnable graph stands for a value, once the inputs are fed. -/
theorem Graph.Runnable.exists_denotes (hg : g.Runnable) {fed : TensorId → Option (Array α)}
    (hfed : ∀ t ∈ g.inputs, ∃ data, fed t = some data ∧ data.size = (g.shapeOf t).prod)
    (hx : g.tensors.get? t = some x) : ∃ v, g.Denotes fed t v := by
  -- The inputs of an operation come before its output.
  induction t using Handle.induction generalizing x with
  | _ t ih =>
    cases hw : x.spec.role.isWritable with
    | true =>
      obtain ⟨o, ho⟩ := hg.sequential.written hx hw
      obtain ⟨op, hop, rfl⟩ := (hg.wellFormed.producer_iff hx).1 ho
      have hin : ∀ t, ∃ v, t ∈ op.inputs → g.Denotes fed t v := by
        intro t
        by_cases ht : t ∈ op.inputs
        · obtain ⟨y, hy⟩ := hg.wellFormed.input_known hop ht
          obtain ⟨v, hv⟩ := ih _ (hg.sequential.input_lt hop ht) hy
          exact ⟨v, fun _ => hv⟩
        · exact ⟨⟨[], #[]⟩, fun h => absurd h ht⟩
      choose vs hvs using hin
      have hshapes : (op.inputs.map vs).map (·.shape) = op.inputs.map g.shapeOf := by
        rw [map_map]
        exact map_congr_left fun t ht => (hvs t ht).shape_eq
      have hfulls : ∀ w ∈ op.inputs.map vs, w.Full := by grind [Denotes.full]
      have hinfer := hg.wellFormed.op_shape hop
      rw [← hshapes] at hinfer
      obtain ⟨y, hy, hshape, hfull⟩ := exists_yields hfulls hinfer
      exact ⟨_, .computed hop hvs (hshape ▸ hy.data) (hshape ▸ hfull)⟩
    | false =>
      cases hrole : x.spec.role with
      | input =>
        obtain ⟨data, hdata, hsize⟩ := hfed t (hg.wellFormed.mem_inputs.2 ⟨x, hx, hrole⟩)
        exact ⟨_, .input hx hrole hdata (Graph.shapeOf_eq hx ▸ hsize)⟩
      | constant =>
        obtain ⟨v, hv⟩ := hg.stocked.exists_holds (α := α) hx hrole
        exact ⟨v, .constant hx hrole hv⟩
      | output | transient => rw [hrole] at hw; cases hw

/-- **A runnable graph has a model**, once the inputs are fed. -/
theorem Graph.Runnable.exists_models (hg : g.Runnable) {fed : TensorId → Option (Array α)}
    (hfed : ∀ t ∈ g.inputs, ∃ data, fed t = some data ∧ data.size = (g.shapeOf t).prod) :
    ∃ V : TensorId → Value α, g.Models V ∧
      (∀ t x, g.tensors.get? t = some x → g.Denotes fed t (V t)) ∧
      ∀ t ∈ g.inputs, fed t = some (V t).data := by
  have hexists : ∀ t, ∃ v, ∀ x, g.tensors.get? t = some x → g.Denotes fed t v := by
    intro t
    cases hx : g.tensors.get? t with
    | none => exact ⟨⟨[], #[]⟩, fun x h => (by cases h)⟩
    | some x =>
      obtain ⟨v, hv⟩ := hg.exists_denotes hfed hx
      exact ⟨v, fun _ _ => hv⟩
  choose V hV using hexists
  refine ⟨V, ⟨fun hx => (hV _ _ hx).shape_eq, fun hx => (hV _ _ hx).full,
    fun hx hrole => (hV _ _ hx).of_constant hg.wellFormed hx hrole, fun {o op} hop => ?_⟩, hV,
    fun t ht => ?_⟩
  · obtain ⟨y, hy⟩ := hg.wellFormed.output_known hop
    obtain ⟨vs, data, hin, hdata, -, heq⟩ := (hV _ y hy).of_op hg.wellFormed hop
    have hvs : op.inputs.map V = op.inputs.map vs := by
      refine map_congr_left fun t ht => ?_
      obtain ⟨x, hx⟩ := hg.wellFormed.input_known hop ht
      exact (hin t ht).unique hg.wellFormed (hV t x hx)
    rw [hvs, hdata, heq]
  · grind [WellFormed.mem_inputs, wellFormed, Denotes.of_input]

/-- Every entry of the feeds has the size of its tensor, and no input is left out. -/
structure Graph.FedBy (g : Graph) (feeds : List (TensorId × Array α)) : Prop where
  fits : ∀ p ∈ feeds, Fits g p
  inputs : ∀ t ∈ g.inputs, fedData feeds t ≠ none

/-- **A runnable graph evaluates** on feeds that fit and leave no input out. -/
theorem Graph.Runnable.evaluates (hg : g.Runnable) {feeds : List (TensorId × Array α)}
    (hfeeds : g.FedBy feeds) :
    ∃ (st : Values α) (V : TensorId → Value α), evaluate .unbounded g feeds = .ok st ∧ g.Models V ∧
      (∀ t x, g.tensors.get? t = some x → st.get? t = some (V t)) ∧
      ∀ t ∈ g.inputs, fedData feeds t = some (V t).data := by
  have hfed : ∀ t ∈ g.inputs, ∃ data, fedData feeds t = some data ∧
      data.size = (g.shapeOf t).prod := by
    intro t ht
    obtain ⟨data, hdata⟩ := Option.ne_none_iff_exists'.1 (hfeeds.inputs t ht)
    obtain ⟨x, hx, hsize⟩ := hfeeds.fits _ (mem_of_fedData hdata)
    exact ⟨data, hdata, Graph.shapeOf_eq hx ▸ hsize⟩
  obtain ⟨V, hmodels, hV, hinputs⟩ := hg.exists_models hfed
  have hsources : ∀ t ∈ g.sources, ∃ v, g.Denotes (fedData feeds) t v := by
    grind [WellFormed.mem_sources, wellFormed]
  have hwritten : ∀ o op, g.ops.get? o = some op → ∃ v, g.Denotes (fedData feeds) op.output v := by
    intro o op hop
    obtain ⟨y, hy⟩ := hg.wellFormed.output_known hop
    exact ⟨_, hV _ y hy⟩
  obtain ⟨st, hst, hden⟩ := evaluate_complete hg.wellFormed hfeeds.fits (fun _ _ _ hdata => hdata)
    hsources hwritten
  grind

theorem exists_evaluated (g : Graph) (feeds : List (TensorId × Array α))
    (h : (evaluate .unbounded g feeds).toBool = true) :
    ∃ values, evaluate .unbounded g feeds = .ok values := by
  cases hr : evaluate .unbounded g feeds with
  | error e => simp [hr, Except.toBool] at h
  | ok values => exact ⟨values, rfl⟩

end CanvasFusion
