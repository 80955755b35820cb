import CanvasFusion.Proofs.Outcome

/-!
# The size of encoded values

A buffer of the right number of bytes decodes to the right number of values, whatever the bytes are.
-/

namespace CanvasFusion

open List

namespace ElementType

variable (t : ElementType) {bytes : List UInt8}

theorem length_encodeOne (x : Single) : (t.encodeOne x).length = t.width := by
  cases t <;> rfl

theorem length_encode (xs : List Single) : (t.encode xs).length = xs.length * t.width := by
  rw [encode, length_flatMap]
  simp [length_encodeOne]

theorem length_decodeWords (f : Nat → Single) {n : Nat}
    (h : bytes.length = n * 4) : (decodeWords f bytes).length = n := by
  induction n generalizing bytes with
  | zero =>
    rw [Nat.zero_mul, length_eq_zero_iff] at h
    subst h
    rfl
  | succ n ih =>
    match bytes, h with
    | a :: b :: c :: d :: rest, h => grind [decodeWords]
    | [], h => simp at h
    | [_], h => simp at h; omega
    | [_, _], h => simp at h; omega
    | [_, _, _], h => simp at h; omega

/-- Bytes for `n` elements are `n` values. -/
theorem exists_decode {n : Nat} (h : bytes.length = n * t.width) :
    ∃ xs, t.decode bytes = .ok xs ∧ xs.length = n := by
  unfold decode
  rw [if_neg (by grind [Nat.mul_mod_left])]
  refine ⟨_, rfl, ?_⟩
  cases t with
  | f32 | i32 => exact length_decodeWords _ h
  | u8 | i8 => exact (length_map _).trans (h.trans (Nat.mul_one n))

end ElementType

end CanvasFusion
