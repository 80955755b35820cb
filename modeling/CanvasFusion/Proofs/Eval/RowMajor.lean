import CanvasFusion.Proofs.Eval.Index

/-!
# Row-major order

Elements are stored in the order of their indices: the position of an index in memory grows with the
index, read as a word from the outermost axis on.

**Theorem (ravel_unravel_inverse).** Through the strides of a shape, positions below the element
count and indices within the extents are the same thing in two forms, and the order of positions is
the lexicographic order of indices. This holds for every rank, the empty shape included.
-/

namespace CanvasFusion.Shape

open List

variable {s : Shape} {i j : Index}

/-- One axis decides, or leaves the decision to the axes inside it. -/
theorem mul_add_lt_iff {a b p q m : Nat} (hp : p < m) (hq : q < m) :
    a * m + p < b * m + q ↔ a < b ∨ a = b ∧ p < q := by
  rcases Nat.lt_trichotomy a b with hlt | rfl | hgt
  · have hle : (a + 1) * m ≤ b * m := Nat.mul_le_mul_right m hlt
    rw [Nat.add_mul] at hle
    omega
  · omega
  · have hle : (b + 1) * m ≤ a * m := Nat.mul_le_mul_right m hgt
    rw [Nat.add_mul] at hle
    omega

/-- **Positions are ordered as indices are**, axis by axis from the outermost one. -/
theorem position_lt_position_iff (hi : s.Within i) (hj : s.Within j) :
    s.position i < s.position j ↔ i < j := by
  induction hi generalizing j with
  | nil =>
    cases hj
    simp [position]
  | @cons a d i ds _ hrest ih =>
    obtain ⟨b, j, -, hrest', rfl⟩ := forall₂_cons_right_iff.1 hj
    rw [position, position, mul_add_lt_iff (Within.position_lt hrest) (Within.position_lt hrest'),
      ih hrest', cons_lt_cons_iff]

/-- **Row-major positions and indices determine each other**, in the same order. -/
theorem ravel_unravel_inverse (s : Shape) : ∃ n strides, s.count .unbounded = .ok n ∧
    s.strides .unbounded = .ok strides ∧
    (∀ k < n, ∃ i, s.unravel k = .ok i ∧ s.Within i ∧ ravel .unbounded i strides = .ok k) ∧
    (∀ i, s.Within i → ∃ k < n, ravel .unbounded i strides = .ok k ∧ s.unravel k = .ok i) ∧
    ∀ i j k l, s.Within i → s.Within j → ravel .unbounded i strides = .ok k →
      ravel .unbounded j strides = .ok l → (k < l ↔ i < j) := by
  have hravel : ∀ i, s.Within i → ravel .unbounded i s.steps = .ok (s.position i) := fun i hi =>
    ravel_ok hi.length_eq
  refine ⟨s.prod, s.steps, Operator.count_unbounded s, strides_ok s, fun k hk => ?_, fun i hi => ?_,
    fun i j k l hi hj hk hl => ?_⟩
  · have hin := within_indexAt hk
    exact ⟨_, unravel_ok hk, hin, by rw [hravel _ hin, position_indexAt hk]⟩
  · have hlt := hi.position_lt
    exact ⟨_, hlt, hravel i hi, by rw [unravel_ok hlt, indexAt_position hi]⟩
  · obtain rfl : s.position i = k := Except.ok.inj ((hravel i hi).symm.trans hk)
    obtain rfl : s.position j = l := Except.ok.inj ((hravel j hj).symm.trans hl)
    exact position_lt_position_iff hi hj

end CanvasFusion.Shape
