import CanvasFusion.Proofs.Eval.Arrangement
import CanvasFusion.Proofs.Eval.Elementwise
import CanvasFusion.Proofs.Eval.Reduction
import CanvasFusion.Proofs.Eval.Window

/-!
# What operators yield

An operator takes values to a value of the shape that inference gives for their shapes (`Yields`).
Each operator has a lemma that says what the elements of that value are, and

**Theorem (exists_yields).** Operators are total: where inference gives a shape, the kernel fills
it.
-/

namespace CanvasFusion

open Operator List Shape

open Value

variable {α : Type} [Scalar α] {kind : Operator} {vs rest : List (Value α)} {x y y' a b w : Value α}
  {p : Conv2d} {s : Shape} {axis : Nat}

/-- The operator takes the values `vs` to the value `y`. -/
structure Operator.Yields (kind : Operator) (vs : List (Value α)) (y : Value α) : Prop where
  shape : kind.inferShape .unbounded (vs.map (·.shape)) = .ok y.shape
  data : compute .unbounded kind vs y.shape = .ok y.data

theorem Operator.Yields.unique (h : kind.Yields vs y) (h' : kind.Yields vs y') : y' = y := by
  obtain ⟨s, data⟩ := y
  cases h.shape.symm.trans h'.shape
  cases h.data.symm.trans h'.data
  rfl

/-! ## Operator by operator -/

/-- A convolution of two operands, or of three with the bias. -/
theorem compute_conv (hrest : rest.length ≤ 1) (hfull : ∀ v ∈ x :: w :: rest, v.Full)
    (hshape : Operator.ConvShape p x.shape w.shape (rest.head?.map (·.shape)) s) :
    compute .unbounded (.conv2d p) (x :: w :: rest) s =
      .ok (ofFn s (convolved p x w rest.head?)).data := by
  match rest, hrest with
  | [], _ => grind [compute, convolve_ok]
  | [b], _ => grind [compute, convolve_ok]

theorem yields_conv
    (hfull : ∀ v ∈ x :: w :: rest, v.Full) (h : (conv2d p).Yields (x :: w :: rest) y) :
    Operator.ConvShape p x.shape w.shape (rest.head?.map (·.shape)) y.shape ∧
      y = ofFn y.shape (convolved p x w rest.head?) := by
  obtain ⟨s, data⟩ := y
  obtain ⟨sx, sw, srest, hshapes, hlen, hshape⟩ := inferShape_conv h.shape
  cases hshapes
  rw [length_map] at hlen
  rw [head?_map] at hshape
  exact ⟨hshape, congrArg (mk s)
    (Except.ok.inj (h.data.symm.trans (compute_conv hlen hfull hshape)))⟩

theorem yields_pool {p : Pool2d} (hx : x.Full) (h : (pool2d p).Yields [x] y) :
    Operator.PoolShape p x.shape y.shape ∧ y = ofFn y.shape (pooled p x) := by
  obtain ⟨s, data⟩ := y
  have hshape := inferPool_eq_ok h.shape
  exact ⟨hshape, congrArg (mk s) (Except.ok.inj (h.data.symm.trans (pool_ok hx hshape)))⟩

/-- What padding yields: the elements moved behind the front, and the value everywhere else. -/
structure Padded (p : ConstantPad) (x y : Value α) : Prop where
  shape : Operator.PadShape p x.shape y.shape
  full : y.Full
  inner : ∀ i, x.shape.Within i → y.cell (moved i p.front) = x.cell i
  outer : ∀ j, y.shape.Within j → (∀ i, x.shape.Within i → moved i p.front ≠ j) →
    y.cell j = Scalar.ofSingle p.value

theorem yields_pad {p : ConstantPad} (hx : x.Full) (h : (pad p).Yields [x] y) : Padded p x y := by
  have hshape := inferPad_eq_ok h.shape
  obtain ⟨data', hdata, hfull, hinner, houter⟩ := padWith_ok hx hshape (Scalar.ofSingle p.value)
  cases h.data.symm.trans hdata
  exact ⟨hshape, hfull, fun i hi => cell_congr (hinner i hi), fun j hj hnot =>
    cell_eq_of_element? (houter j hj hnot)⟩

theorem yields_activation {f : Activation} (h : (activation f).Yields [x] y) :
    y = ⟨x.shape, x.data.map (Scalar.activate f)⟩ := by
  obtain ⟨s, data⟩ := y
  cases h.shape
  cases h.data
  rfl

theorem yields_binary {kind : BinaryKind} (ha : a.Full) (hb : b.Full)
    (h : (binary kind).Yields [a, b] y) :
    broadcast a.shape b.shape = .ok y.shape ∧
      y = ofFn y.shape fun index =>
        kind.apply (a.cell (spreadIndex a.shape index)) (b.cell (spreadIndex b.shape index)) := by
  obtain ⟨s, data⟩ := y
  have hshape : broadcast a.shape b.shape = .ok s := h.shape
  exact ⟨hshape, congrArg (mk s) (Except.ok.inj (h.data.symm.trans (combine_ok ha hb hshape)))⟩

theorem yields_transpose {perm : List Nat} (hx : x.Full)
    (h : (Operator.transpose perm).Yields [x] y) :
    isPermutation perm x.shape.length = true ∧
      y = ofFn (perm.map x.shape.extent) fun j => x.cell (sourceIndex perm j) := by
  obtain ⟨s, data⟩ := y
  obtain ⟨hperm, rfl⟩ : _ ∧ s = _ := Operator.inferTranspose_eq_ok h.shape
  exact ⟨hperm, congrArg (mk _) (Except.ok.inj (h.data.symm.trans (transpose_ok hx hperm)))⟩

theorem yields_reshape {target : List Nat} (h : (reshape target).Yields [x] y) :
    prod target = x.shape.prod ∧ y = ⟨target, x.data⟩ := by
  obtain ⟨s, data⟩ := y
  obtain ⟨rfl, hprod⟩ : s = target ∧ _ := inferReshape_eq_ok h.shape
  cases h.data
  exact ⟨hprod, rfl⟩

/-- What concatenation yields: each input in its block. -/
structure Concatenated (axis : Nat) (vs : List (Value α)) (y : Value α) : Prop where
  shape : ∃ s, Operator.ConcatShape axis s (vs.map (·.shape)) y.shape
  full : y.Full
  block : ∀ k x, vs[k]? = some x → ∀ i, x.shape.Within i →
    y.cell (inBlock axis (blockStart axis vs k) i) = x.cell i

theorem yields_concat (hfull : ∀ v ∈ vs, v.Full)
    (h : (concat axis).Yields vs y) : Concatenated axis vs y := by
  obtain ⟨sx, srest, hshapes, hshape⟩ := inferShape_concat h.shape
  rw [← hshapes] at hshape
  obtain ⟨data', hdata, hfull', hblock⟩ := concatenate_ok hshape hfull Scalar.zero
  cases vs with
  | nil => cases hshapes
  | cons x rest =>
    cases h.data.symm.trans hdata
    exact ⟨⟨sx, hshape⟩, hfull', fun k x hk i hi => cell_congr (hblock k x hk i hi)⟩

/-- Every element of a concatenation is one of an input. -/
theorem Concatenated.exists_source {j : Index} (h : Concatenated axis vs y)
    (hj : y.shape.Within j) : ∃ k x i, vs[k]? = some x ∧ x.shape.Within i ∧
      j = inBlock axis (blockStart axis vs k) i := by
  obtain ⟨s, hs⟩ := h.shape
  exact hs.exists_source hj

theorem yields_slice {start size : List Nat} (hx : x.Full) (h : (slice start size).Yields [x] y) :
    Operator.SliceShape start size x.shape ∧
      y = ofFn size fun j => x.cell (moved j start) := by
  obtain ⟨s, data⟩ := y
  obtain ⟨rfl, hshape⟩ : s = size ∧ _ := inferSlice_eq_ok h.shape
  exact ⟨hshape, congrArg (mk _) (Except.ok.inj (h.data.symm.trans (sliceAt_ok hx hshape)))⟩

/-! ## Totality -/

/-- **Where inference gives a shape, the kernel fills it.** -/
theorem exists_yields (hfull : ∀ v ∈ vs, v.Full)
    (hs : kind.inferShape .unbounded (vs.map (·.shape)) = .ok s) :
    ∃ y : Value α, kind.Yields vs y ∧ y.shape = s ∧ y.Full := by
  suffices h : ∃ data, compute .unbounded kind vs s = .ok data ∧ data.size = s.prod by
    obtain ⟨data, hdata, hsize⟩ := h
    exact ⟨⟨s, data⟩, ⟨hs, hdata⟩, rfl, hsize⟩
  have hunary : kind.isUnary = true → ∃ x, vs = [x] ∧ x.Full := fun hkind => by
    grind [inferShape_unary, map_eq_singleton_iff]
  cases kind with
  | conv2d p =>
    obtain ⟨sx, sw, srest, hshapes, hrest, hshape⟩ := inferShape_conv hs
    obtain ⟨x, tail, rfl, rfl, htail⟩ := map_eq_cons_iff.1 hshapes
    obtain ⟨w, rest, rfl, rfl, rfl⟩ := map_eq_cons_iff.1 htail
    rw [length_map] at hrest
    rw [head?_map] at hshape
    exact ⟨_, compute_conv hrest hfull hshape, full_ofFn _ _⟩
  | pool2d p =>
    obtain ⟨x, rfl, hx⟩ := hunary rfl
    exact ⟨_, pool_ok hx (inferPool_eq_ok hs), full_ofFn _ _⟩
  | pad p =>
    obtain ⟨x, rfl, hx⟩ := hunary rfl
    obtain ⟨data, hdata, hsize, -⟩ := padWith_ok hx (inferPad_eq_ok hs) _
    exact ⟨data, hdata, hsize⟩
  | activation f =>
    obtain ⟨x, rfl, hx⟩ := hunary rfl
    cases hs
    exact ⟨_, rfl, full_map hx _⟩
  | binary k =>
    obtain ⟨sa, sb, hshapes, hshape⟩ := inferShape_binary hs
    obtain ⟨a, tail, rfl, rfl, htail⟩ := map_eq_cons_iff.1 hshapes
    obtain ⟨b, rfl, rfl⟩ := map_eq_singleton_iff.1 htail
    exact ⟨_, combine_ok (hfull a (by simp)) (hfull b (by simp)) hshape, full_ofFn _ _⟩
  | reduce k axes keepDims =>
    obtain ⟨x, rfl, hx⟩ := hunary rfl
    exact reduce_ok hx hs
  | transpose perm =>
    obtain ⟨x, rfl, hx⟩ := hunary rfl
    obtain ⟨hperm, rfl⟩ := inferTranspose_eq_ok hs
    exact ⟨_, transpose_ok hx hperm, full_ofFn _ _⟩
  | reshape target =>
    obtain ⟨x, rfl, hx⟩ := hunary rfl
    obtain ⟨rfl, hprod⟩ := inferReshape_eq_ok hs
    exact ⟨_, rfl, hx.trans hprod.symm⟩
  | concat axis =>
    obtain ⟨sx, srest, hshapes, hshape⟩ := inferShape_concat hs
    rw [← hshapes] at hshape
    cases vs with
    | nil => cases hshapes
    | cons x rest =>
      obtain ⟨data, hdata, hsize, -⟩ := concatenate_ok hshape hfull Scalar.zero
      exact ⟨data, hdata, hsize⟩
  | slice start size =>
    obtain ⟨x, rfl, hx⟩ := hunary rfl
    obtain ⟨rfl, hshape⟩ := inferSlice_eq_ok hs
    exact ⟨_, sliceAt_ok hx hshape, full_ofFn _ _⟩
  | softmax axis =>
    obtain ⟨x, rfl, hx⟩ := hunary rfl
    have hs' : inferSoftmax axis x.shape = .ok s := hs
    unfold inferSoftmax at hs'
    by_cases haxis : x.shape.rank ≤ axis
    · rw [if_pos haxis] at hs'
      cases hs'
    · rw [if_neg haxis] at hs'
      cases hs'
      exact softmax_ok hx (Nat.lt_of_not_le haxis)

end CanvasFusion
