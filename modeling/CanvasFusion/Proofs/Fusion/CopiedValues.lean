import CanvasFusion.Proofs.Eval.Running
import CanvasFusion.Proofs.Fusion.WorkingCopy

/-!
# The values of the working copy

If the batch of the source is the number of samples, cloning changes no shape and no operator. So
the values of an evaluation of the source are values for the working copy.

**Theorem (exists_models).** There is an assignment of values to the tensors of the working copy
that agrees with its constants and operations (`Models`), and that gives each copy the value of the
tensor it is of.
-/

namespace CanvasFusion

variable {α : Type} [Scalar α]

theorem eq_map_of_forall₂_related {ι κ β : Type} {R : ι → κ → Prop} {f : ι → Option β} {f' : κ → β}
    {xs : List ι} {ys : List κ} {vs : List β} (hv : List.Forall₂ (fun x v => f x = some v) xs vs)
    (h : List.Forall₂ R xs ys) (hR : ∀ x y, R x y → f x = some (f' y)) : vs = ys.map f' := by
  induction h generalizing vs with
  | nil =>
    cases hv
    rfl
  | cons hxy _ ih =>
    cases hv with
    | cons hxv hrest => grind

namespace Context

variable {ctx ctx₀ : Context} {t c : TensorId} {feeds : List (TensorId × Array α)}
  {values : Values α} {l : List OpId}

section Copies

variable (hsource : ctx₀.source.WellFormed) (h : Copying ctx₀ ctx)

include hsource h

/-- A copied tensor has a value in every evaluation. -/
theorem copied_available (horder : ctx₀.source.IsOrder l) (ht : ctx.cloneOf.get? t = some c) :
    t ∈ ctx₀.source.sources ∨
      ∃ o op, o ∈ l ∧ ctx₀.source.ops.get? o = some op ∧ op.output = t := by
  have hsrc : ctx.source = ctx₀.source := by rw [h.frame]
  induction c using Handle.induction generalizing t with
  | _ c ih =>
    cases h.copied ht with
    | @input x y hx hrole hy hspec hdata | @constant x y hx hrole hy hspec hdata =>
      rw [hsrc] at hx
      exact .inl (hsource.source_of_role hx hrole)
    | @written o o' op op' hop hout hsupported hop' hout' hkind hinputs =>
      rw [hsrc] at hop
      subst hout hout'
      refine .inr ⟨o, op, horder.closed hop fun x hx p hp => ?_, hop, rfl⟩
      obtain ⟨y, hy, hxy⟩ : ∃ y ∈ op'.inputs, ctx.cloneOf.get? x = some y := by
        obtain ⟨i, hi, rfl⟩ := List.getElem_of_mem hx
        have hi' : i < op'.inputs.length := hinputs.length_eq ▸ hi
        exact ⟨_, List.getElem_mem hi', hinputs.get hi hi'⟩
      obtain ⟨z, hz⟩ := hsource.input_known hop hx
      obtain ⟨writer, hwriter, hwrites⟩ := (hsource.producer_iff hz).1
        ((Graph.producer_eq hz).symm.trans hp)
      -- The inputs of the copy come before its output.
      rcases ih _ (h.sequential.input_lt hop' hy) hxy with
        hmem | ⟨p', writer', hp', hwriter', hwrites'⟩
      · exact absurd hmem (hwrites ▸ hsource.not_source_of_output hwriter)
      · rwa [hsource.op_eq_of_output hwriter hwriter' (hwrites.trans hwrites'.symm)]

/-- **The values of the source are values for the working copy.** -/
theorem exists_models (haxes : ctx₀.axes.Valid) (hb : ctx₀.KeepsBatch)
    (heval : evaluate .unbounded ctx₀.source feeds = .ok values) :
    ∃ V : TensorId → Value α, ctx.cloned.Models V ∧
      (∀ t c, ctx.cloneOf.get? t = some c → values.get? t = some (V c)) ∧
      ∀ t c, t ∈ ctx₀.source.inputs → ctx.cloneOf.get? t = some c →
        fedData feeds t = some (V c).data := by
  have hsrc : ctx.source = ctx₀.source := by rw [h.frame]
  have haxes' : ctx.axes.Valid := by rw [h.frame]; exact haxes
  obtain ⟨-, l, horder, hheld⟩ := evaluate_sound hsource heval
  have hvalue : ∀ t c, ctx.cloneOf.get? t = some c →
      ∃ v, values.get? t = some v ∧ v.Full ∧ v.shape = ctx₀.source.shapeOf t := by
    intro t c ht
    rcases copied_available hsource h horder ht with hmem | ⟨o, op, ho, hop, rfl⟩
    · rcases List.mem_append.1 hmem with hmem | hmem
      · obtain ⟨data, -, hsize, hget⟩ := hheld.input hmem
        exact ⟨_, hget, hsize, rfl⟩
      · obtain ⟨x, v, hx, hv, hget⟩ := hheld.constant hmem
        exact ⟨v, hget, hv.full, hv.shape_eq.trans (Graph.shapeOf_eq hx).symm⟩
    · obtain ⟨v, hv, hget⟩ := hheld.computed ho hop
      obtain ⟨x, hx⟩ := hsource.output_known hop
      obtain ⟨vs, data, -, -, hsize, rfl⟩ := (outputValue_eq_ok hx).1 hv
      exact ⟨_, hget, hsize, rfl⟩
  have hexists : ∀ c, ∃ v : Value α, ∀ t, ctx.cloneOf.get? t = some c → values.get? t = some v := by
    intro c
    by_cases hc : ∃ t, ctx.cloneOf.get? t = some c
    · obtain ⟨t, ht⟩ := hc
      obtain ⟨v, hv, -⟩ := hvalue t c ht
      exact ⟨v, fun t' ht' => h.injective ht ht' ▸ hv⟩
    · exact ⟨⟨[], #[]⟩, fun t ht => absurd ⟨t, ht⟩ hc⟩
  choose V hV using hexists
  have hshaped : ∀ {c y}, ctx.cloned.tensors.get? c = some y →
      (V c).Full ∧ (V c).shape = ctx.cloned.shapeOf c := by
    intro c y hc
    obtain ⟨t, ht⟩ := h.covered hc
    obtain ⟨v, hv, hfull, hshape⟩ := hvalue t c ht
    cases hv.symm.trans (hV c t ht)
    exact ⟨hfull, hshape.trans (h.shape_eq hb haxes hsource ht).symm⟩
  refine ⟨V, ⟨fun hc => (hshaped hc).2, fun hc => (hshaped hc).1, ?_, ?_⟩,
    fun t c ht => hV c t ht, ?_⟩
  · intro c y hy hrole
    obtain ⟨t, ht⟩ := h.covered hy
    cases h.copied ht with
    | @input x y' hx hrole' hy' hspec hdata => grind
    | @constant x y' hx hrole' hy' hspec hdata =>
      cases hy.symm.trans hy'
      rw [hsrc] at hx
      obtain ⟨x', v, hx', hv, hget⟩ := hheld.constant (Graph.mem_constants.2 ⟨x, hx, hrole'⟩)
      cases hx.symm.trans hx'
      cases hget.symm.trans (hV c t ht)
      obtain ⟨bytes, xs, hbytes, hxs, hlen, hveq⟩ := hv
      rw [hbytes] at hdata
      exact ⟨bytes, xs, hdata, hspec ▸ hxs, hspec ▸ hlen, hspec ▸ hveq⟩
    | written hop hout hsupported hop' hout' hkind hinputs =>
      exact absurd hout' (h.wellFormed.output_ne hop' hy hrole)
  · intro o' op' hop'
    obtain ⟨y, hy⟩ := h.wellFormed.output_known hop'
    obtain ⟨t, ht⟩ := h.covered hy
    cases h.copied ht with
    | input hx hrole hy' hspec hdata | constant hx hrole hy' hspec hdata =>
      exact absurd rfl (h.wellFormed.output_ne hop' hy' ((congrArg (·.role) hspec).trans hrole))
    | @written o o'' op op'' hop hout hsupported hop'' hout' hkind hinputs =>
      cases h.wellFormed.op_eq_of_output hop'' hop' hout'
      cases hop''.symm.trans hop'
      subst hout
      rw [hsrc] at hop
      have ho : o ∈ l := by
        rcases copied_available hsource h horder ht with hmem | ⟨o₂, op₂, ho₂, hop₂, hout₂⟩
        · exact absurd hmem (hsource.not_source_of_output hop)
        · rwa [hsource.op_eq_of_output hop hop₂ hout₂.symm]
      obtain ⟨v, hv, hget⟩ := hheld.computed ho hop
      obtain ⟨x, hx⟩ := hsource.output_known hop
      obtain ⟨vs, data, hvs, hdata, -, rfl⟩ := (outputValue_eq_ok hx).1 hv
      have hvs' : vs = op'.inputs.map V :=
        eq_map_of_forall₂_related hvs hinputs fun x y hxy => hV y x hxy
      rw [(h.keepsBatch hb).copiedKind_eq haxes' (hsrc ▸ hsource) hkind,
        h.shape_eq hb haxes hsource ht, ← hvs', hdata,
        ← Option.some.inj (hget.symm.trans (hV _ _ ht))]
  · intro t c ht hc
    obtain ⟨data, hfed, -, hget⟩ := hheld.input ht
    grind

end Copies

end Context

end CanvasFusion
