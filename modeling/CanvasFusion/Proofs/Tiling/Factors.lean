import CanvasFusion.Proofs.Fusion.WorkingCopy
import CanvasFusion.Proofs.Peak

/-!
# The factor pair of a number

`closestFactors` finds the root first. The same pair comes out of a search that squares one
candidate after the other, keeps the last one that divides the number, and stops at the first whose
square is past it (`closestFactors_eq_trialFactors`). The search forms no larger size than that last
square, so it overflows exactly if this one does.

**Theorem (closestFactors_word64).** With sizes of 64 bits the search overflows from `(2^32 - 1)^2`
on. Below, the smaller factor is the largest divisor whose square is at most the number, so no
factor pair is closer to the root.
-/

namespace CanvasFusion

open Limit

variable {lim : Limit} {n i k a : Nat}

/-! ## The search, candidate by candidate -/

theorem Limit.mul_eq_ok {b c : Nat} (h : lim.mul a b = .ok c) : c = a * b := by
  unfold mul check at h
  split_ifs at h
  exact (Except.ok.inj h).symm

/-- Try the candidates from `i` on, as long as their squares are at most `n`; `small` is the last
that divided `n`. -/
def trialDivisor (lim : Limit) (n i small : Nat) : Except Fault Nat :=
  match h : lim.mul i i with
  | .error fault => .error fault
  | .ok square =>
    if hle : square ≤ n then trialDivisor lim n (i + 1) (if n % i = 0 then i else small)
    else .ok small
termination_by n + 1 - i
decreasing_by
  rw [mul_eq_ok h] at hle
  have := Nat.le_mul_self i
  omega

/-- The factor pair that the search gives; zero counts as one. -/
def trialFactors (lim : Limit) (n : Nat) : Except Fault (Pair Nat) := do
  let n := max n 1
  let small ← trialDivisor lim n 1 1
  pure ⟨small, n / small⟩

/-- What the search has kept before it tries `k + 1` is the largest divisor up to `k`. -/
theorem trialDivisor_step (hk : (k + 1) * (k + 1) ≤ n) (hholds : lim.Holds ((k + 1) * (k + 1))) :
    trialDivisor lim n (k + 1) (largestDivisor n k) =
      trialDivisor lim n (k + 2) (largestDivisor n (k + 1)) := by
  have hmul : lim.mul (k + 1) (k + 1) = .ok ((k + 1) * (k + 1)) := if_pos hholds
  rw [trialDivisor]
  split
  · rename_i fault hfault
    cases hfault.symm.trans hmul
  · rename_i square hsquare
    rw [dif_pos (mul_eq_ok hsquare ▸ hk), largestDivisor]

/-- **The search** ends at the first square past `n`, or overflows there or before. -/
theorem trialDivisor_eq (hk : k ≤ n.sqrt) : trialDivisor lim n (k + 1) (largestDivisor n k) =
    (lim.mul (n.sqrt + 1) (n.sqrt + 1)).map fun _ => largestDivisor n n.sqrt := by
  -- Induction on the candidates that are left.
  obtain ⟨rest, hrest⟩ := Nat.exists_eq_add_of_le hk
  induction rest generalizing k with
  | zero =>
    obtain rfl : n.sqrt = k := hrest
    rw [trialDivisor]
    split
    · rename_i fault hfault
      rw [hfault]
      rfl
    · rename_i square hsquare
      have hlt : ¬ square ≤ n := by
        rw [mul_eq_ok hsquare]
        exact Nat.not_le.2 (Nat.lt_succ_sqrt n)
      rw [dif_neg hlt, hsquare]
      rfl
  | succ rest ih =>
    have hle : (k + 1) * (k + 1) ≤ n := Nat.le_sqrt.1 (by omega)
    by_cases hholds : lim.Holds ((k + 1) * (k + 1))
    · rw [trialDivisor_step hle hholds]
      exact ih (by omega) (by omega)
    · have hlast : ¬ lim.Holds ((n.sqrt + 1) * (n.sqrt + 1)) := fun h =>
        hholds (h.of_le (Nat.mul_le_mul (by omega) (by omega)))
      have hfault : lim.mul (k + 1) (k + 1) = .error .overflow := if_neg hholds
      have hlast : lim.mul (n.sqrt + 1) (n.sqrt + 1) = .error .overflow := if_neg hlast
      rw [trialDivisor, hlast]
      split
      · rename_i fault hfault'
        cases hfault'.symm.trans hfault
        rfl
      · rename_i square hsquare
        cases hsquare.symm.trans hfault

theorem closestFactors_eq_trialFactors (lim : Limit) (n : Nat) :
    closestFactors lim n = trialFactors lim n := by
  have hsearch : trialDivisor lim (max n 1) 1 1 = _ := trialDivisor_eq (Nat.zero_le _)
  unfold trialFactors closestFactors
  simp only [hsearch]
  cases lim.mul ((max n 1).sqrt + 1) ((max n 1).sqrt + 1) <;> rfl

/-! ## The pair -/

theorem le_largestDivisor (hdvd : a ∣ n) (hle : a ≤ i) (ha : 0 < a) : a ≤ largestDivisor n i := by
  induction i with
  | zero => omega
  | succ i ih =>
    rw [largestDivisor]
    split_ifs with h
    · exact hle
    · refine ih (Nat.le_of_lt_succ (Nat.lt_of_le_of_ne hle ?_))
      rintro rfl
      exact h (Nat.mod_eq_zero_of_dvd hdvd)

theorem largestDivisor_le (hi : 0 < i) : largestDivisor n i ≤ i := by
  induction i with
  | zero => omega
  | succ i ih =>
    rw [largestDivisor]
    split_ifs with h
    · exact le_rfl
    · rcases Nat.eq_zero_or_pos i with rfl | hpos
      · exact absurd (Nat.mod_one n) h
      · exact (ih hpos).trans (Nat.le_succ i)

/-- The two numbers are the factors of `n` closest to its root. -/
structure ClosestPair (n a b : Nat) : Prop where
  mul_eq : a * b = n
  le : a ≤ b
  greatest : IsGreatest {d | d ∣ n ∧ d * d ≤ n} a
  closest : ∀ {c d}, c * d = n → c ≤ d → c ≤ a ∧ b ≤ d

theorem ClosestPair.of_isGreatest {b : Nat} (hn : 0 < n) (hmul : a * b = n)
    (h : IsGreatest {d | d ∣ n ∧ d * d ≤ n} a) : ClosestPair n a b := by
  have ha : 0 < a := Nat.pos_of_mul_pos_right (hmul ▸ hn)
  refine ⟨hmul, Nat.le_of_mul_le_mul_left (hmul.symm ▸ h.1.2) ha, h, fun {c d} hcd hle => ?_⟩
  have hca : c ≤ a := h.2 ⟨Dvd.intro d hcd, hcd ▸ Nat.mul_le_mul_left c hle⟩
  refine ⟨hca, Nat.le_of_mul_le_mul_left (c := a) ?_ ha⟩
  calc a * b = c * d := hmul.trans hcd.symm
    _ ≤ a * d := Nat.mul_le_mul_right d hca

theorem isGreatest_largestDivisor (hn : 0 < n) :
    IsGreatest {d | d ∣ n ∧ d * d ≤ n} (largestDivisor n n.sqrt) := by
  have hroot : 0 < n.sqrt := Nat.sqrt_pos.2 hn
  refine ⟨⟨largestDivisor_dvd n _, Nat.le_sqrt.1 (largestDivisor_le hroot)⟩, ?_⟩
  rintro d ⟨hdvd, hd⟩
  exact le_largestDivisor hdvd (Nat.le_sqrt.2 hd) (Nat.pos_of_dvd_of_pos hdvd hn)

/-- The pair is found if the first square past the number is a size. -/
theorem closestFactors_cases (lim : Limit) (n : Nat) :
    (¬ lim.Holds ((max n 1).sqrt.succ ^ 2) ∧ closestFactors lim n = .error .overflow) ∨
      lim.Holds ((max n 1).sqrt.succ ^ 2) ∧
        ∃ p, closestFactors lim n = .ok p ∧ ClosestPair (max n 1) p.first p.second := by
  have hpos : 0 < max n 1 := Nat.lt_of_lt_of_le Nat.one_pos (Nat.le_max_right n 1)
  rw [sq]
  by_cases hholds : lim.Holds ((max n 1).sqrt.succ * (max n 1).sqrt.succ)
  · have hmul : lim.mul ((max n 1).sqrt + 1) ((max n 1).sqrt + 1) = .ok _ := if_pos hholds
    refine .inr ⟨hholds, ⟨_, _⟩, by rw [closestFactors, hmul]; rfl, ?_⟩
    exact .of_isGreatest hpos (Nat.mul_div_cancel' (largestDivisor_dvd _ _))
      (isGreatest_largestDivisor hpos)
  · have hmul : lim.mul ((max n 1).sqrt + 1) ((max n 1).sqrt + 1) = .error .overflow :=
      if_neg hholds
    exact .inl ⟨hholds, by rw [closestFactors, hmul]; rfl⟩

/-- The first square past a number is a size of 64 bits below `(2^32 - 1)^2`. -/
theorem holds_word64_iff : word64.Holds ((max n 1).sqrt.succ ^ 2) ↔ n < (2 ^ 32 - 1) ^ 2 := by
  have hsize : word64.Holds ((max n 1).sqrt.succ ^ 2) ↔ (max n 1).sqrt.succ ^ 2 < (2 ^ 32) ^ 2 := by
    unfold Limit.Holds
    rw [word64, within_some, decide_eq_true_iff]
    omega
  have hroot : (max n 1).sqrt < 2 ^ 32 - 1 ↔ max n 1 < (2 ^ 32 - 1) ^ 2 := Nat.sqrt_lt'
  rw [hsize, Nat.pow_lt_pow_iff_left (by norm_num)]
  omega

/-- **The factor pair with sizes of 64 bits**: where the search overflows, and what it finds
elsewhere. -/
theorem closestFactors_word64 (n : Nat) : closestFactors .word64 n = trialFactors .word64 n ∧
    (closestFactors .word64 n = .error .overflow ↔ 18446744065119617025 ≤ n) ∧
    (n < 18446744065119617025 → ∃ a b, closestFactors .word64 n = .ok ⟨a, b⟩ ∧
      (1 ≤ n → ClosestPair n a b) ∧ (n = 0 → a = 1 ∧ b = 1)) := by
  refine ⟨closestFactors_eq_trialFactors _ _, ?_⟩
  have hbound : 18446744065119617025 = (2 ^ 32 - 1) ^ 2 := by norm_num
  rw [hbound]
  rcases closestFactors_cases .word64 n with ⟨hholds, herror⟩ | ⟨hholds, p, hp, hpair⟩
  · rw [holds_word64_iff, Nat.not_lt] at hholds
    exact ⟨⟨fun _ => hholds, fun _ => herror⟩, fun hlt => absurd hholds (Nat.not_le.2 hlt)⟩
  · rw [holds_word64_iff] at hholds
    refine ⟨⟨fun h => ?_, fun h => absurd hholds (Nat.not_lt.2 h)⟩, fun _ => ⟨p.first, p.second, hp,
      fun hn => ?_, fun hn => ?_⟩⟩
    · cases hp.symm.trans h
    · rwa [Nat.max_eq_left hn] at hpair
    · subst hn
      simpa using hpair.mul_eq

/-- The last number before the search overflows. -/
example : closestFactors .word64 18446744065119617024 = .ok ⟨4294967294, 4294967296⟩ := by
  decide +kernel

end CanvasFusion
