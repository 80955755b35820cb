import CanvasFusion.Proofs.Operator.Shapes

/-!
# Values as functions of an index

A value is stored row by row. Here are the two sides of this: the position of an index and the index
of a position (`position`, `indexAt`), and the value of a shape that has a given element at every
index (`Value.ofFn`). The kernels compute positions through strides; in plain arithmetic that is
`position`, so what a kernel computes can be said as a function of the index alone. A kernel that
fetches every output element gives `ofFn` (`tabulate_ok`).
-/

namespace CanvasFusion

open List Shape Value Limit

namespace Shape

variable {s : Shape} {index : Index} {k : Nat}

/-- A position within every axis. -/
def Within (s : Shape) (index : Index) : Prop := List.Forall₂ (· < ·) index s

instance (s : Shape) (index : Index) : Decidable (s.Within index) :=
  inferInstanceAs (Decidable (List.Forall₂ (· < ·) index s))

/-- The row-major position of an index. -/
def position : Shape → Index → Nat
  | _ :: ds, i :: index => i * ds.prod + position ds index
  | _, _ => 0

/-- How far apart neighbours along each axis are stored. -/
def steps : Shape → List Nat
  | [] => []
  | _ :: ds => ds.prod :: steps ds

/-- The index at a row-major position. -/
def indexAt : Shape → Nat → Index
  | [], _ => []
  | d :: ds, k => k / ds.prod % d :: indexAt ds k

theorem Within.length_eq (h : s.Within index) : index.length = s.length := List.Forall₂.length_eq h

theorem within_iff : s.Within index ↔
    index.length = s.length ∧ ∀ i < s.length, extent index i < s.extent i := by
  unfold Within
  rw [forall₂_iff_get]
  refine and_congr_right fun hlen => ?_
  constructor
  · intro h i hi
    have hi' : i < index.length := hlen ▸ hi
    rw [extent_eq (getElem?_eq_getElem hi), extent_eq (getElem?_eq_getElem hi')]
    exact h i hi' hi
  · intro h i hi' hi
    have hlt := h i hi
    rwa [extent_eq (getElem?_eq_getElem hi), extent_eq (getElem?_eq_getElem hi')] at hlt

theorem Within.prod_pos (h : s.Within index) : 0 < s.prod := by
  induction h with
  | nil => simp
  | cons hlt _ ih =>
    rw [prod_cons]
    exact Nat.mul_pos (Nat.zero_lt_of_lt hlt) ih

theorem Within.position_lt (h : s.Within index) : s.position index < s.prod := by
  induction h with
  | nil => simp [position]
  | @cons i d is ds hlt _ ih =>
    rw [position, prod_cons]
    calc i * ds.prod + position ds is < i * ds.prod + ds.prod := Nat.add_lt_add_left ih _
      _ = (i + 1) * ds.prod := by ring
      _ ≤ d * ds.prod := Nat.mul_le_mul_right _ hlt

theorem indexAt_add_mul (ds : Shape) (a k : Nat) : indexAt ds (a * ds.prod + k) = indexAt ds k := by
  suffices h : ∀ (ds : Shape) (m a k : Nat), ds.prod ∣ m → indexAt ds (a * m + k) =
    indexAt ds k from h ds ds.prod a k (dvd_refl _)
  intro ds
  induction ds with
  | nil => exact fun _ _ _ _ => rfl
  | cons d ds ih =>
    rintro m a k ⟨b, rfl⟩
    have hm : a * ((d :: ds).prod * b) + k = (d * (a * b)) * ds.prod + k := by
      rw [prod_cons]
      ring
    rw [indexAt, indexAt, ih _ a k (Dvd.intro (d * b) (by rw [prod_cons]; ring)), hm]
    congr 1
    rcases eq_zero_or_pos ds.prod with h0 | hpos
    · rw [h0]
      simp
    · rw [Nat.add_comm, Nat.add_mul_div_right _ _ hpos, Nat.add_mul_mod_self_left]

theorem indexAt_position (h : s.Within index) : s.indexAt (s.position index) = index := by
  induction h with
  | nil => rfl
  | @cons i d is ds hlt hrest ih =>
    have hpos := Within.position_lt hrest
    have hds : 0 < ds.prod := Within.prod_pos hrest
    rw [position, indexAt, indexAt_add_mul, ih, Nat.add_comm, Nat.add_mul_div_right _ _ hds,
      Nat.div_eq_of_lt hpos, Nat.zero_add, Nat.mod_eq_of_lt hlt]

theorem within_indexAt (h : k < s.prod) : s.Within (s.indexAt k) := by
  have hpos : 0 < s.prod := Nat.zero_lt_of_lt h
  clear h
  induction s generalizing k with
  | nil => exact .nil
  | cons d ds ih =>
    exact .cons (Nat.mod_lt _ (Nat.pos_of_mul_pos_right hpos))
      (ih (Nat.pos_of_mul_pos_left hpos))

theorem position_indexAt (h : k < s.prod) : s.position (s.indexAt k) = k := by
  have hmod : ∀ (s : Shape) (k : Nat), s.position (s.indexAt k) = k % s.prod := by
    intro s
    induction s with
    | nil => intro k; simp [position, Nat.mod_one]
    | cons d ds ih => grind [indexAt, position, Nat.mul_comm, Nat.mod_mul]
  rw [hmod, Nat.mod_eq_of_lt h]

/-- Different indices have different positions. -/
theorem position_inj {index' : Index} (h : s.Within index) (h' : s.Within index')
    (heq : s.position index = s.position index') : index = index' := by
  rw [← indexAt_position h, heq, indexAt_position h']

/-! ## Strides in plain arithmetic -/

theorem strides_ok (s : Shape) : s.strides .unbounded = .ok s.steps := by
  induction s with
  | nil => rfl
  | cons d ds ih =>
    cases ds with
    | nil => rfl
    | cons e es =>
      rw [strides, ih, bind_ok]
      simp only [steps, headD_cons, mul_unbounded, bind_ok, prod_cons]
      rw [mul_comm]
      rfl

theorem sum_ok (ns : List Nat) : unbounded.sum ns = .ok ns.sum := by
  have h : ∀ n, ns.foldlM unbounded.add n = (.ok (n + ns.sum) : Except Fault Nat) := by
    induction ns with
    | nil => exact fun _ => rfl
    | cons m ns ih =>
      intro n
      rw [foldlM_cons, add_unbounded, bind_ok, ih, sum_cons, add_assoc]
  rw [Limit.sum, h, Nat.zero_add]

theorem ravel_ok (hlen : index.length = s.length) :
    ravel .unbounded index s.steps = .ok (s.position index) := by
  unfold ravel
  rw [mapM_ok (g := fun e => e.1 * e.2)]
  swap
  · exact fun _ _ => rfl
  rw [bind_ok, sum_ok]
  congr 1
  induction s generalizing index with
  | nil =>
    rw [length_nil, length_eq_zero_iff] at hlen
    subst hlen
    rfl
  | cons d ds ih =>
    cases index with
    | nil => cases hlen
    | cons i index =>
      rw [steps, zip_cons_cons, map_cons, sum_cons, position,
        ih (Nat.succ.inj hlen)]

theorem unravel_ok (h : k < s.prod) : s.unravel k = .ok (s.indexAt k) := by
  have hpos : 0 < s.prod := Nat.zero_lt_of_lt h
  have hrest : ∀ (s : Shape), 0 < s.prod → ∀ k, s.unravelRest k =
      .ok (s.indexAt k, k / s.prod) := by
    intro s
    induction s with
    | nil =>
      intro _ k
      rw [unravelRest, indexAt, prod_nil, Nat.div_one]
    | cons d ds ih =>
      intro hpos k
      have hd : d ≠ 0 := Nat.pos_iff_ne_zero.1 (Nat.pos_of_mul_pos_right hpos)
      rw [unravelRest, ih (Nat.pos_of_mul_pos_left hpos), bind_ok]
      simp only [Size.mod, Size.div, hd, if_false, bind_ok]
      rw [indexAt, prod_cons, Nat.mul_comm d, ← Nat.div_div_eq_div_mul]
      rfl
  rw [unravel, hrest s hpos]
  rfl

end Shape

/-! ## Values -/

namespace Value

variable {α : Type} {x y : Value α} {s : Shape} {index : Index} {a : α} {f : Index → Except Fault α}

/-- The elements fill the shape. -/
def Full (x : Value α) : Prop := x.data.size = x.shape.prod

/-- The element at an index; nothing outside the shape. -/
def element? (x : Value α) (index : Index) : Option α :=
  if x.shape.Within index then x.data[x.shape.position index]? else none

/-- The value of a shape with the element `f index` at each index. -/
def ofFn (s : Shape) (f : Index → α) : Value α :=
  ⟨s, Array.ofFn fun k : Fin s.prod => f (s.indexAt k)⟩

@[simp] theorem ofFn_shape (s : Shape) (f : Index → α) : (ofFn s f).shape = s := rfl

theorem full_ofFn (s : Shape) (f : Index → α) : (ofFn s f).Full := by
  simp [Full, ofFn]

theorem element?_ofFn {f : Index → α} (h : s.Within index) :
    (ofFn s f).element? index = some (f index) := by
  rw [element?, ofFn_shape, if_pos h]
  simp only [ofFn]
  rw [Array.getElem?_ofFn, dif_pos h.position_lt, indexAt_position h]

theorem within_of_element? (h : x.element? index = some a) : x.shape.Within index :=
  (Option.ite_none_right_eq_some.1 h).1

theorem read_of_element? (h : x.element? index = some a) :
    x.read (x.shape.position index) = .ok a := by
  rw [read, (Option.ite_none_right_eq_some.1 h).2]

theorem readAt_of_element? (h : x.element? index = some a) :
    x.readAt .unbounded x.shape.steps index = .ok a := by
  rw [readAt, ravel_ok (within_of_element? h).length_eq, bind_ok, read_of_element? h]

theorem Full.exists_element (hx : x.Full) (h : x.shape.Within index) :
    ∃ a, x.element? index = some a := by
  rw [element?, if_pos h]
  exact ⟨_, Array.getElem?_eq_getElem (hx.symm ▸ h.position_lt)⟩

/-- A value is determined by its elements. -/
theorem Full.ext (hx : x.Full) (hy : y.Full) (hshape : x.shape = y.shape)
    (h : ∀ index, x.shape.Within index → x.element? index = y.element? index) : x = y := by
  obtain ⟨s, data⟩ := x
  obtain ⟨s', data'⟩ := y
  cases hshape
  congr 1
  refine Array.ext_getElem? fun k => ?_
  by_cases hk : k < s.prod
  · have hin := within_indexAt hk
    have hcell := h _ hin
    simp only [element?, if_pos hin] at hcell
    rwa [position_indexAt hk] at hcell
  · rw [Array.getElem?_eq_none (hx.symm ▸ Nat.le_of_not_lt hk),
      Array.getElem?_eq_none (hy.symm ▸ Nat.le_of_not_lt hk)]

/-! ## Buffers -/

theorem lt_of_mem_zipIdx (hx : x.Full) {p : α × Nat} (hp : p ∈ x.data.toList.zipIdx) :
    p.2 < x.shape.prod := by
  have hlt := snd_lt_of_mem_zipIdx hp
  rwa [Array.length_toList, hx, add_zero] at hlt

theorem filled_ok (s : Shape) (a : α) : filled .unbounded s a = .ok (ofFn s fun _ => a).data := by
  rw [filled, Operator.count_unbounded, bind_ok, room_unbounded, bind_ok]
  refine congrArg Except.ok (Array.ext (by simp [ofFn]) fun k _ _ => ?_)
  simp [ofFn]

/-- A buffer that is fetched element by element. -/
theorem tabulate_eq (hx : x.Full) (h : ∀ index a, x.element? index = some a → f index = .ok a) :
    tabulate .unbounded x.shape f = .ok x.data := by
  have hcells : ((range x.shape.prod).mapM fun flat => do
      let index ← x.shape.unravel flat
      f index) = .ok x.data.toList := by
    refine mapM_eq_ok_iff.2 (forall₂_iff_get.2 ⟨by rw [length_range, Array.length_toList, hx], ?_⟩)
    intro k hk hk'
    rw [length_range] at hk
    have hin := within_indexAt hk
    rw [get_eq_getElem, get_eq_getElem, getElem_range, unravel_ok hk, bind_ok]
    refine h _ _ ?_
    rw [element?, if_pos hin, position_indexAt hk, Array.getElem_toList, Array.getElem?_eq_getElem]
  rw [tabulate, Operator.count_unbounded, bind_ok, room_unbounded, bind_ok, hcells]
  rfl

theorem tabulate_ok {g : Index → α} (h : ∀ index, s.Within index → f index = .ok (g index)) :
    tabulate .unbounded s f = .ok (ofFn s g).data := by
  refine tabulate_eq (full_ofFn s g) fun index a ha => ?_
  have hin : s.Within index := within_of_element? ha
  rw [element?_ofFn hin] at ha
  rw [h index hin, Option.some.inj ha]

section Cells

variable [Scalar α]

/-- The element at an index; zero outside the shape. -/
def cell (x : Value α) (index : Index) : α := (x.element? index).getD Scalar.zero

theorem cell_congr {index' : Index} (h : x.element? index = y.element? index') :
    x.cell index = y.cell index' := by
  rw [cell, cell, h]

theorem cell_eq_of_element? {a : α} (h : x.element? index = some a) : x.cell index = a := by
  rw [cell, h]
  rfl

theorem Full.element?_eq (hx : x.Full) (h : x.shape.Within index) :
    x.element? index = some (x.cell index) := by
  obtain ⟨a, ha⟩ := hx.exists_element h
  rw [cell, ha]
  rfl

@[simp] theorem cell_ofFn {f : Index → α} (h : s.Within index) : (ofFn s f).cell index = f index :=
  cell_eq_of_element? (element?_ofFn h)

theorem Full.ext_cell (hx : x.Full) (hy : y.Full) (hshape : x.shape = y.shape)
    (h : ∀ index, x.shape.Within index → x.cell index = y.cell index) : x = y := by
  grind [Value.Full.ext, Value.Full.element?_eq]

theorem read_ok (hx : x.Full) (h : x.shape.Within index) :
    x.read (x.shape.position index) = .ok (x.cell index) := read_of_element? (hx.element?_eq h)

theorem readAt_ok (hx : x.Full) (h : x.shape.Within index) :
    x.readAt .unbounded x.shape.steps index = .ok (x.cell index) :=
  readAt_of_element? (hx.element?_eq h)

theorem cell_eq_of_getElem? {data : Array α} {a : α} (h : s.Within index)
    (ha : data[s.position index]? = some a) : (mk s data).cell index = a :=
  cell_eq_of_element? ((if_pos h).trans ha)

end Cells

end Value

end CanvasFusion
