import CanvasFusion.Proofs.Giving

/-!
# Kernels within a limit

A kernel may fail at a limit where plain arithmetic succeeds: a stride, a position or the size of a
buffer may be too large. Where it succeeds, its elements are those of plain arithmetic
(`conforms_compute`).
-/

namespace CanvasFusion

open Shape Value

section

variable {ε α β : Type}

theorem Conforms.foldlM {f : Limit → β → α → Except ε β} (hf : ∀ b a, Conforms fun lim => f lim b a)
    (xs : List α) (b : β) : Conforms fun lim => xs.foldlM (f lim) b := by
  induction xs generalizing b with
  | nil => exact .const _
  | cons x xs ih =>
    exact .bind (hf b x) fun b' => ih b'

theorem conforms_product (ns : List Nat) : Conforms fun lim => lim.product ns :=
  .foldlM (fun _ _ => (hasPeak_mul _ _).conforms) ns 1

theorem conforms_strides (s : Shape) : Conforms fun lim => s.strides lim := by
  induction s with
  | nil => exact .const _
  | cons d ds ih =>
    cases ds with
    | nil => exact .const _
    | cons e es => exact .bind ih fun rest => .bind (hasPeak_mul _ _).conforms fun _ => .const _

theorem conforms_ravel (index : Index) (strides : List Nat) :
    Conforms fun lim => ravel lim index strides :=
  .bind (.mapM (fun _ => (hasPeak_mul _ _).conforms) _) fun offsets =>
    .foldlM (fun _ _ => (hasPeak_add _ _).conforms) offsets 0

theorem conforms_readAt (x : Value α) (strides : List Nat) (index : Index) :
    Conforms fun lim => x.readAt lim strides index :=
  .bind (conforms_ravel index strides) fun _ => .const _

theorem conforms_filled (s : Shape) (a : α) : Conforms fun lim => filled lim s a :=
  .bind (conforms_product s) fun _ => .bind (conforms_room _ _) fun _ => .const _

theorem conforms_tabulate (s : Shape) {f : Limit → Index → Except Fault α}
    (hf : ∀ index, Conforms fun lim => f lim index) : Conforms fun lim => tabulate lim s (f lim) :=
  .bind (conforms_product s) fun _ => .bind (conforms_room _ _) fun _ =>
    .bind (.mapM (fun _ => .bind (.const _) hf) _) fun _ => .const _

theorem conforms_foldIndexed (x : Value α) {f : Limit → β → Index → α → Except Fault β}
    (hf : ∀ b index a, Conforms fun lim => f lim b index a) (b : β) :
    Conforms fun lim => x.foldIndexed (f lim) b := by
  exact .foldlM (fun b ⟨a, flat⟩ => .bind (.const _) fun index => hf b index a) _ b

theorem conforms_shifted (index : Index) (offset : List Nat) :
    Conforms fun lim => shifted lim index offset := .mapM (fun _ => (hasPeak_add _ _).conforms) _

/-- A step that puts an element in its place. -/
theorem conforms_place {index : Limit → Except Fault Index} (hindex : Conforms index)
    (strides : List Nat) (data : Array α) (a : α) : Conforms fun lim => (do
      let index ← index lim
      let flat ← ravel lim index strides
      write data flat a) :=
  .bind hindex fun _ => .bind (conforms_ravel _ _) fun _ => .const _

/-! ## Moving elements -/

theorem conforms_padWith (front : List Nat) (a : α) (x : Value α) (out : Shape) :
    Conforms fun lim => padWith lim front a x out :=
  .bind (conforms_filled _ _) fun start => .bind (conforms_strides _) fun _ =>
    conforms_foldIndexed x (fun _ _ _ => conforms_place (conforms_shifted _ _) _ _ _) start

theorem conforms_transpose (perm : List Nat) (x : Value α) (out : Shape) :
    Conforms fun lim => transpose lim perm x out :=
  .bind (conforms_strides _) fun _ => conforms_tabulate out fun _ =>
    .bind (.const _) fun _ => conforms_readAt _ _ _

theorem conforms_sliceAt (start : List Nat) (x : Value α) (out : Shape) :
    Conforms fun lim => sliceAt lim start x out :=
  .bind (conforms_strides _) fun _ => conforms_tabulate out fun _ =>
    .bind (conforms_shifted _ _) fun _ => conforms_readAt _ _ _

theorem conforms_concatenate (axis : Nat) (blank : α) (inputs : List (Value α)) (out : Shape) :
    Conforms fun lim => concatenate lim axis blank inputs out := by
  refine .bind (conforms_filled _ _) fun start => .bind (conforms_strides _) fun strides =>
    .bind (.foldlM (fun p x => ?_) inputs (start, 0)) fun p => .const _
  refine .bind (conforms_foldIndexed x (fun data index a => ?_) p.1) fun data =>
    .bind (.const _) fun extent => .bind (hasPeak_add _ _).conforms fun _ => .const _
  exact .bind (.const _) fun i => .bind (hasPeak_add _ _).conforms fun i =>
    conforms_place (.const _) strides data a

/-! ## Sliding windows -/

theorem conforms_along (w : WindowFrame) (x : Shape) (index : Index) (d : Dim)
    {f : Limit → β → Nat → Nat → Except Fault β} (hf : ∀ b k i, Conforms fun lim => f lim b k i)
    (b : β) : Conforms fun lim => w.along lim x index d (f lim) b := by
  refine .bind (.const _) fun o => .bind (.const _) fun size => .foldlM (fun b k => ?_) _ b
  refine .bind ?_ fun source => ?_
  · exact .bind (hasPeak_mul _ _).conforms fun _ => .bind (hasPeak_mul _ _).conforms fun _ =>
      .bind (hasPeak_add _ _).conforms fun _ => .const _
  · cases source with
    | none => exact .const _
    | some i => exact hf b k i

theorem conforms_fold (w : WindowFrame) (x : Shape) (index base : Index)
    {f : Limit → β → Nat → Nat → Index → Except Fault β}
    (hf : ∀ b k₀ k₁ cell, Conforms fun lim => f lim b k₀ k₁ cell) (b : β) :
    Conforms fun lim => w.fold lim x index base (f lim) b :=
  conforms_along w x index .first (fun b k₀ _ => .bind (.const _) fun _ =>
    conforms_along w x index .second (fun b k₁ _ => .bind (.const _) fun cell => hf b k₀ k₁ cell) b)
      b

end

variable {α : Type} [Scalar α]

theorem conforms_convolve (p : Conv2d) (x w : Value α) (bias : Option (Value α)) (out : Shape) :
    Conforms fun lim => convolve lim p x w bias out := by
  refine .bind (conforms_strides _) fun xStrides => .bind (conforms_strides _) fun wStrides =>
    .bind (.const _) fun channels => .bind (.const _) fun rows => .bind (.const _) fun columns =>
    conforms_tabulate out fun index => .bind (.const _) fun o => ?_
  cases bias
  all_goals
    refine .bind (.const _) fun start => .foldlM (fun acc c => .bind (.const _) fun base =>
      conforms_fold _ _ _ _ (fun acc k₀ k₁ cell => ?_) acc) _ start
    exact .bind (conforms_readAt _ _ _) fun weight => .bind (conforms_readAt _ _ _)
      fun v => .const _

theorem conforms_pool (p : Pool2d) (x : Value α) (out : Shape) :
    Conforms fun lim => pool lim p x out := by
  refine .bind (conforms_strides _) fun strides => conforms_tabulate out fun index => .bind
    (conforms_fold _ _ _ _ (fun st k₀ k₁ cell => ?_) _) fun st => ?_
  · exact .bind (conforms_readAt _ _ _) fun v => .const _
  · exact .const _

/-! ## Elementwise operators and reductions -/

theorem conforms_combine (kind : BinaryKind) (a b : Value α) (out : Shape) :
    Conforms fun lim => combine lim kind a b out :=
  .bind (conforms_strides _) fun _ => .bind (conforms_strides _) fun _ =>
    conforms_tabulate out fun _ =>
    .bind (.bind (.const _) fun _ => conforms_readAt a _ _) fun _ =>
    .bind (.bind (.const _) fun _ => conforms_readAt b _ _) fun _ => .const _

theorem conforms_reduce (kind : ReduceKind) (axes : List Nat) (keepDims : Bool) (x : Value α)
    (out : Shape) : Conforms fun lim => reduce lim kind axes keepDims x out := by
  refine .bind (conforms_filled _ _) fun start => .bind (conforms_strides _) fun strides =>
    .bind (.const _) fun extents => .bind (conforms_product _) fun count =>
    .bind (conforms_foldIndexed x (fun acc index a => ?_) start) fun sums => .const _
  exact .bind (conforms_ravel _ _) fun flat => .const _

theorem conforms_softmax (axis : Nat) (x : Value α) : Conforms fun lim => softmax lim axis x := by
  refine .bind (.const _) fun len => .bind (conforms_product _) fun inner =>
    .bind (conforms_product _) fun outer =>
      .foldlM (fun data o => .foldlM (fun data i => ?_) _ data) _ _
  refine .bind (.mapM (fun k => ?_) _) fun positions => .const _
  exact .bind (hasPeak_mul _ _).conforms fun _ => .bind (hasPeak_add _ _).conforms fun _ =>
    .bind (hasPeak_mul _ _).conforms fun _ => (hasPeak_add _ _).conforms

/-- **What a kernel gives at any limit is right in plain arithmetic.** -/
theorem conforms_compute (kind : Operator) (inputs : List (Value α)) (out : Shape) :
    Conforms fun lim => compute lim kind inputs out := by
  unfold compute
  split
  · exact conforms_convolve _ _ _ _ _
  · exact conforms_convolve _ _ _ _ _
  · exact conforms_pool _ _ _
  · exact conforms_padWith _ _ _ _
  · exact .const _
  · exact conforms_combine _ _ _ _
  · exact conforms_reduce _ _ _ _ _
  · exact conforms_transpose _ _ _
  · exact .const _
  · exact conforms_concatenate _ _ _ _
  · exact conforms_sliceAt _ _ _
  · exact conforms_softmax _ _
  · exact .const _

end CanvasFusion
