import CanvasFusion.Proofs.Eval.Exact
import CanvasFusion.Proofs.Eval.Index
import CanvasFusion.Proofs.Eval.Limits

/-!
# Reductions

A reduction runs once through its input and takes each element into the place of the output that
belongs to its coordinates off the reduced axes. Read at one place, this is a fold over the elements
that belong to it, in the order in which they are stored (`reduce_eq`).

A kept axis has extent one, so it bears neither on how far apart the others are stored nor on the
place of an index.
-/

namespace CanvasFusion

open Operator Shape List Limit

open Value

variable {α : Type} {x : Value α} {out s : Shape} {index j : Index} {rank i : Nat}
  {axes axes' seen : List Nat} {keepDims : Bool}

/-! ## Axes -/

theorem checkAxes_eq_ok_iff : checkAxes rank seen axes = .ok () ↔
    (∀ a ∈ axes, a < rank ∧ a ∉ seen) ∧ axes.Nodup := by
  induction axes generalizing seen with
  | nil => simp [checkAxes]
  | cons a axes ih =>
    unfold checkAxes
    split_ifs with hbad
    · refine iff_of_false (fun h => by cases h) fun h => ?_
      grind
    · rw [ih]
      push Not at hbad
      simp only [mem_cons, forall_eq_or_imp, nodup_cons, hbad.1, hbad.2, not_or, true_and,
        not_false_eq_true]
      constructor
      · rintro ⟨h, hnodup⟩
        exact ⟨fun b hb => ⟨(h b hb).1, (h b hb).2.2⟩, fun ha => (h a ha).2.1 rfl, hnodup⟩
      · rintro ⟨h, hnot, hnodup⟩
        exact ⟨fun b hb => ⟨(h b hb).1, fun heq => hnot (heq ▸ hb), (h b hb).2⟩, hnodup⟩

theorem inferReduce_eq_ok_iff : inferReduce axes keepDims s = .ok out ↔
    (∀ a ∈ axes, a < s.length) ∧ axes.Nodup ∧ reducedShape axes keepDims s = out := by
  unfold inferReduce
  rw [bind_eq_ok]
  constructor
  · rintro ⟨⟨⟩, hchecked, hout⟩
    obtain ⟨hlt, hnodup⟩ := checkAxes_eq_ok_iff.1 hchecked
    exact ⟨fun a ha => (hlt a ha).1, hnodup, Except.ok.inj hout⟩
  · rintro ⟨hlt, hnodup, rfl⟩
    exact ⟨(), checkAxes_eq_ok_iff.2 ⟨fun a ha => ⟨hlt a ha, not_mem_nil⟩, hnodup⟩, rfl⟩

/-- The list with what stands at some axes replaced, or dropped. The first entry stands at
`axis`. -/
def fillAxes (axes : List Nat) (fill : Option Nat) : Nat → List Nat → List Nat
  | _, [] => []
  | axis, i :: rest =>
    if axis ∈ axes then fill.toList ++ fillAxes axes fill (axis + 1) rest
    else i :: fillAxes axes fill (axis + 1) rest

theorem filterMap_zipIdx (axes : List Nat) (fill : Option Nat) (axis : Nat) (l : List Nat) :
    ((l.zipIdx axis).filterMap fun p => if p.2 ∈ axes then fill else some p.1) =
      fillAxes axes fill axis l := by
  induction l generalizing axis with
  | nil => rfl
  | cons i rest ih => grind [fillAxes]

theorem reducedShape_eq : reducedShape axes keepDims s =
    fillAxes axes (if keepDims then some 1 else none) 0 s := filterMap_zipIdx _ _ _ _

theorem keptIndex_eq : keptIndex axes keepDims index =
    fillAxes axes (if keepDims then some 0 else none) 0 index := filterMap_zipIdx _ _ _ _

theorem fillAxes_perm (h : axes'.Perm axes) : fillAxes axes' = fillAxes axes := by
  funext fill axis l
  induction l generalizing axis with
  | nil => rfl
  | cons i rest ih => simp only [fillAxes, h.mem_iff, ih]

/-- The coordinates of an index off some axes. -/
def offAxes (axes : List Nat) (index : Index) : List Nat := fillAxes axes none 0 index

/-- The coordinates of an output index off the reduced axes, which may be dropped already. -/
def outputCoordinates (axes : List Nat) (keepDims : Bool) (index : Index) : List Nat :=
  if keepDims then offAxes axes index else index

theorem within_keptIndex (h : s.Within index) :
    (reducedShape axes keepDims s).Within (keptIndex axes keepDims index) := by
  rw [reducedShape_eq, keptIndex_eq]
  suffices H : ∀ axis, Within (fillAxes axes (if keepDims then some 1 else none) axis s)
      (fillAxes axes (if keepDims then some 0 else none) axis index) from H 0
  intro axis
  induction h generalizing axis with
  | nil => exact .nil
  | @cons i d index s hid h ih =>
    by_cases haxis : axis ∈ axes
    · cases keepDims with
      | false => simpa [fillAxes, haxis] using ih (axis + 1)
      | true => simpa [fillAxes, haxis, Within] using ih (axis + 1)
    · simpa [fillAxes, haxis, Within, hid] using ih (axis + 1)

/-- An element is taken into the place of its coordinates off the reduced axes. -/
theorem keptIndex_eq_iff (hi : s.Within index) (hj : (reducedShape axes keepDims s).Within j) :
    keptIndex axes keepDims index = j ↔ offAxes axes index = outputCoordinates axes keepDims j := by
  rw [reducedShape_eq] at hj
  rw [keptIndex_eq, outputCoordinates]
  cases keepDims with
  | false => rfl
  | true =>
    suffices H : ∀ axis j, Within (fillAxes axes (some 1) axis s) j →
        (fillAxes axes (some 0) axis index = j ↔
          fillAxes axes none axis index = fillAxes axes none axis j) from H 0 j hj
    clear hj j
    induction hi with
    | nil =>
      intro axis j hj
      cases hj
      exact iff_of_true rfl rfl
    | @cons i d index s hid h ih =>
      intro axis j hj
      by_cases haxis : axis ∈ axes
      · simp only [fillAxes, haxis, if_true] at hj ⊢
        cases hj with
        | @cons k _ j _ hk hj =>
          obtain rfl : k = 0 := Nat.lt_one_iff.1 hk
          simpa [fillAxes, haxis] using ih (axis + 1) j hj
      · simp only [fillAxes, haxis, if_false] at hj ⊢
        cases hj with
        | @cons k _ j _ hk hj => simpa [fillAxes, haxis] using fun _ => ih (axis + 1) j hj

/-- A kept axis does not move any place. -/
theorem outputCoordinates_indexAt (axes : List Nat) (keepDims : Bool) (s : Shape) (k : Nat) :
    (reducedShape axes keepDims s).prod = (reducedShape axes false s).prod ∧
      outputCoordinates axes keepDims ((reducedShape axes keepDims s).indexAt k) =
        (reducedShape axes false s).indexAt k := by
  rw [reducedShape_eq, reducedShape_eq, outputCoordinates]
  cases keepDims with
  | false => exact ⟨rfl, rfl⟩
  | true =>
    unfold offAxes
    generalize 0 = axis
    induction s generalizing axis with
    | nil => exact ⟨rfl, rfl⟩
    | cons d ds ih => grind [fillAxes, indexAt]

/-! ## Folding -/

/-- A buffer with one element overwritten. -/
theorem write_ofFn {F : Index → α} (hj : s.Within j) (a : α) :
    write (ofFn s F).data (s.position j) a = .ok (ofFn s (Function.update F j a)).data := by
  rw [write, if_pos ((full_ofFn s F).symm ▸ hj.position_lt)]
  refine congrArg Except.ok (Array.ext_getElem? fun k => ?_)
  simp only [Value.ofFn, Array.getElem?_setIfInBounds, Array.getElem?_ofFn, Array.size_ofFn]
  by_cases hk : k < s.prod
  · have hplace : s.position j = k ↔ s.indexAt k = j :=
      ⟨fun h => h ▸ indexAt_position hj, fun h => h ▸ position_indexAt hk⟩
    grind
  · have hne : s.position j ≠ k := fun h => hk (h ▸ hj.position_lt)
    simp [hk, hne]

/-- A buffer into which every element of a value is taken, each at a place `φ index`. -/
theorem foldIndexed_accumulate {f : Array α → Index → α → Except Fault (Array α)}
    {φ : Index → Index} {g : α → α → α} (hx : x.Full) (a₀ : α)
    (hf : ∀ F index a, x.shape.Within index → f (ofFn s F).data index a =
      .ok (ofFn s (Function.update F (φ index) (g (F (φ index)) a))).data) :
    x.foldIndexed f (ofFn s fun _ => a₀).data = .ok (ofFn s fun j =>
      ((x.data.toList.zipIdx.filter fun p => φ (x.shape.indexAt p.2) = j).map (·.1)).foldl g
        a₀).data := by
  -- Read at one place, an element that belongs elsewhere does nothing.
  suffices H : ∀ (es : List (α × Nat)) F, (∀ e ∈ es, e.2 < x.shape.prod) →
      es.foldlM (fun data e => do
        let index ← x.shape.unravel e.2
        f data index e.1) (ofFn s F).data = .ok (ofFn s fun j =>
        ((es.filter fun p => φ (x.shape.indexAt p.2) = j).map (·.1)).foldl g (F j)).data from
    H _ _ fun e he => lt_of_mem_zipIdx hx he
  intro es
  induction es with
  | nil => exact fun _ _ => rfl
  | cons e es ih =>
    intro F hes
    have hlt := hes e mem_cons_self
    simp only [foldlM_cons]
    rw [unravel_ok hlt, bind_ok, hf _ _ _ (within_indexAt hlt), bind_ok,
      ih _ fun e' he' => hes e' (mem_cons_of_mem e he')]
    refine congrArg (Except.ok ∘ data ∘ ofFn s) (funext fun j => ?_)
    grind

/-- The elements with given coordinates off some axes, in row-major order. -/
def Value.line (x : Value α) (axes : List Nat) (coordinates : List Nat) : List α :=
  (x.data.toList.zipIdx.filter fun p => offAxes axes (x.shape.indexAt p.2) = coordinates).map (·.1)

variable [Scalar α] {kind : ReduceKind}

/-- The fold over a line. A mean is divided by the number of elements of a line, if there are
any. -/
def reducedElement (kind : ReduceKind) (axes : List Nat) (x : Value α) (coordinates : List Nat) :
    α :=
  let total := (x.line axes coordinates).foldl kind.step (Scalar.ofSingle kind.initial)
  let count := (axes.map x.shape.extent).prod
  if kind = .mean ∧ 0 < count then Scalar.div total (Scalar.ofCount count) else total

theorem reduce_eq (hx : x.Full) (haxes : ∀ a ∈ axes, a < x.shape.length) :
    reduce .unbounded kind axes keepDims x (reducedShape axes keepDims x.shape) =
      .ok (ofFn (reducedShape axes false x.shape) (reducedElement kind axes x)).data := by
  have hextents : axes.mapM (Size.entry x.shape) = .ok (axes.map x.shape.extent) :=
    mapM_ok fun a ha => entry_ok (haxes a ha)
  unfold reduce
  rw [filled_ok, bind_ok, strides_ok, bind_ok, hextents, bind_ok,
    show unbounded.product (axes.map x.shape.extent) = .ok (axes.map x.shape.extent).prod from
      count_unbounded _, bind_ok, foldIndexed_accumulate hx _ (g := kind.step)
      (φ := keptIndex axes keepDims)]
  swap
  · intro F index a hin
    have hkept : Within (reducedShape axes keepDims x.shape) _ := within_keptIndex hin
    have hread := read_ok (full_ofFn (reducedShape axes keepDims x.shape) F) hkept
    rw [cell_ofFn hkept] at hread
    rw [ravel_ok hkept.length_eq, bind_ok]
    exact (congrArg (· >>= _) hread).trans (write_ofFn hkept _)
  have hplaces := outputCoordinates_indexAt axes keepDims x.shape
  have htotals : ∀ F : List α → α, (ofFn (reducedShape axes keepDims x.shape) fun j =>
      F ((x.data.toList.zipIdx.filter fun p => keptIndex axes keepDims (x.shape.indexAt p.2) =
        j).map (·.1))).data =
      (ofFn (reducedShape axes false x.shape) fun c => F (x.line axes c)).data := by
    intro F
    refine Array.ext (by simp [Value.ofFn, (hplaces 0).1]) fun k hk _ => ?_
    have hk' : k < (reducedShape axes keepDims x.shape).prod := by simpa [Value.ofFn] using hk
    simp only [Value.ofFn, Array.getElem_ofFn]
    refine congrArg (F ∘ map _) (filter_congr fun p hp => ?_)
    rw [decide_eq_decide, keptIndex_eq_iff (within_indexAt (lt_of_mem_zipIdx hx hp))
      (within_indexAt hk'), (hplaces k).2]
  rw [bind_ok, htotals fun line => line.foldl kind.step (Scalar.ofSingle kind.initial)]
  refine congrArg Except.ok ?_
  unfold reducedElement
  by_cases hmean : kind = .mean ∧ 0 < (axes.map x.shape.extent).prod
  · simp only [if_pos hmean, Value.ofFn, Array.map_ofFn, Function.comp_def]
  · simp only [if_neg hmean]

theorem reduce_ok (hx : x.Full) (h : inferReduce axes keepDims x.shape = .ok out) :
    ∃ data, reduce .unbounded kind axes keepDims x out = .ok data ∧ data.size = out.prod := by
  obtain ⟨haxes, -, rfl⟩ := inferReduce_eq_ok_iff.1 h
  refine ⟨_, reduce_eq hx haxes, ?_⟩
  rw [(outputCoordinates_indexAt axes keepDims x.shape 0).1]
  exact full_ofFn _ _

theorem reducedShape_perm (h : axes'.Perm axes) (keepDims : Bool) (s : Shape) :
    reducedShape axes' keepDims s = reducedShape axes keepDims s := by
  rw [reducedShape_eq, reducedShape_eq, fillAxes_perm h]

theorem reducedElement_perm (h : axes'.Perm axes) :
    reducedElement kind axes' x = reducedElement kind axes x := by
  unfold reducedElement line offAxes
  rw [fillAxes_perm h, (h.map _).prod_eq]

/-- A reduction returns the fold over each line. The lines are disjoint and cover the input: an
element is taken into one place. The buffer does not depend on the order in which the axes are
named, nor on whether they are kept. -/
theorem reduce_folds_lines (kind : ReduceKind) (hx : x.Full) (hnodup : axes.Nodup)
    (haxes : ∀ a ∈ axes, a < x.shape.length) :
    ∃ data : Array α,
      (∀ axes' keepDims, axes'.Perm axes →
        inferReduce axes' keepDims x.shape = .ok (reducedShape axes keepDims x.shape) ∧
        reduce .unbounded kind axes' keepDims x (reducedShape axes keepDims x.shape) = .ok data ∧
        ∀ lim data', reduce lim kind axes' keepDims x
          (reducedShape axes keepDims x.shape) = .ok data' → data' = data) ∧
      ∀ keepDims, data.size = (reducedShape axes keepDims x.shape).prod ∧
        (∀ j, (reducedShape axes keepDims x.shape).Within j →
          data[(reducedShape axes keepDims x.shape).position j]? =
            some (reducedElement kind axes x (outputCoordinates axes keepDims j))) ∧
        ∀ index, x.shape.Within index → ∃! j, (reducedShape axes keepDims x.shape).Within j ∧
          offAxes axes index = outputCoordinates axes keepDims j := by
  refine ⟨(ofFn (reducedShape axes false x.shape) (reducedElement kind axes x)).data,
    fun axes' keepDims hperm => ?_, fun keepDims => ⟨?_, fun j hj => ?_, fun index hin => ?_⟩⟩
  · have haxes' : ∀ a ∈ axes', a < x.shape.length := fun a ha => haxes a (hperm.mem_iff.1 ha)
    have heq : reduce .unbounded kind axes' keepDims x _ = _ := reduce_eq hx haxes'
    simp only [reducedShape_perm hperm, reducedElement_perm hperm] at heq
    refine ⟨inferReduce_eq_ok_iff.2 ⟨haxes', hperm.nodup_iff.2 hnodup, reducedShape_perm hperm ..⟩,
      heq, fun lim data' hdata => ?_⟩
    exact Except.ok.inj ((conforms_reduce _ _ _ _ _ lim data' hdata).symm.trans heq)
  · rw [(outputCoordinates_indexAt axes keepDims x.shape 0).1]
    exact full_ofFn _ _
  · obtain ⟨hprod, hindex⟩ := outputCoordinates_indexAt axes keepDims x.shape
      ((reducedShape axes keepDims x.shape).position j)
    rw [indexAt_position hj] at hindex
    rw [Value.ofFn, Array.getElem?_ofFn, dif_pos (hprod ▸ hj.position_lt), hindex]
  · refine ⟨keptIndex axes keepDims index, ⟨within_keptIndex hin,
      (keptIndex_eq_iff hin (within_keptIndex hin)).1 rfl⟩, fun j hj => ?_⟩
    exact ((keptIndex_eq_iff hin hj.1).2 hj.2).symm

/-- The mean over the first and the last axis of three. -/
theorem reduce_folds_lines_mean :
    let x : Value (Exact default) := ⟨[2, 2, 2], #[⟨1⟩, ⟨2⟩, ⟨3⟩, ⟨4⟩, ⟨5⟩, ⟨6⟩, ⟨7⟩, ⟨9⟩]⟩
    reduce .unbounded .mean [2, 0] true x [1, 2, 1] = .ok #[⟨7 / 2⟩, ⟨23 / 4⟩] ∧
      reduce .unbounded .mean [0, 2] false x [2] = .ok #[⟨7 / 2⟩, ⟨23 / 4⟩] := by
  intro x
  obtain ⟨data, hdata, -⟩ := reduce_folds_lines (x := x) .mean rfl
    (show [2, 0].Nodup by decide) (by decide)
  have hkept := (hdata [2, 0] true (.refl _)).2.1
  have hvalue : reduce .unbounded .mean [2, 0] true x [1, 2, 1] = .ok #[⟨7 / 2⟩, ⟨23 / 4⟩] := by
    decide +kernel
  obtain rfl := Except.ok.inj (hkept.symm.trans hvalue)
  exact ⟨hvalue, (hdata [0, 2] false (.swap ..)).2.1⟩

end CanvasFusion
