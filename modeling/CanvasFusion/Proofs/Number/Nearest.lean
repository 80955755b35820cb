import CanvasFusion.Proofs.Number.Double
import CanvasFusion.Proofs.Number.Shortest

/-!
# Rounding a double to a single

A finite single is `± m · 2^q` for an integer `m` of at most 24 bits, and its bits count the numbers
below it (`magnitude_eq`). Rounding a double finds the unit from the exponent of the double and
rounds to a multiple of it, a half to the even one.

**Theorem (nearest_eq).** A double that rounds to `m` in units of `2^q` becomes the single
`m · 2^q`.

A power of two is the first number of its binade, and the numbers below it are twice as dense. The
doubles that become a power of two are given by `nearest_eq_two_pow`.
-/

namespace CanvasFusion

theorem halfEven_eq {n k m : Nat} (h : RoundsTo (n / 2 ^ k) m) : halfEven n k = m := by
  have hpos : (0 : ℚ) < 2 ^ k := by positivity
  have hunit : Nat.pow 2 k = 2 ^ k := rfl
  have hsplit : (n : ℚ) / 2 ^ k = (n / 2 ^ k : ℕ) + (n % 2 ^ k : ℕ) / 2 ^ k := by
    have hdiv : (n : ℚ) = 2 ^ k * (n / 2 ^ k : ℕ) + (n % 2 ^ k : ℕ) := by
      exact_mod_cast (Nat.div_add_mod n (2 ^ k)).symm
    grind
  have hrest : ((n % 2 ^ k : ℕ) : ℚ) / 2 ^ k < 1 := by
    rw [div_lt_one hpos]
    exact_mod_cast Nat.mod_lt n (by positivity)
  have hnonneg : (0 : ℚ) ≤ ((n % 2 ^ k : ℕ) : ℚ) / 2 ^ k := by positivity
  have hhalf : 2 ^ k < 2 * (n % 2 ^ k) ↔ 1 / 2 < ((n % 2 ^ k : ℕ) : ℚ) / 2 ^ k := by
    rw [div_lt_div_iff₀ (by norm_num) hpos, one_mul, mul_comm _ (2 : ℚ)]
    exact_mod_cast Iff.rfl
  have hhalf' : 2 * (n % 2 ^ k) < 2 ^ k ↔ ((n % 2 ^ k : ℕ) : ℚ) / 2 ^ k < 1 / 2 := by
    rw [div_lt_div_iff₀ hpos (by norm_num), one_mul, mul_comm _ (2 : ℚ)]
    exact_mod_cast Iff.rfl
  have hzero : n % 2 ^ k = 0 → ((n % 2 ^ k : ℕ) : ℚ) / 2 ^ k = 0 := fun h0 => by simp [h0]
  unfold halfEven
  simp only [hunit, hhalf, hhalf']
  rw [hsplit] at h
  generalize n / 2 ^ k = a at h ⊢
  generalize ((n % 2 ^ k : ℕ) : ℚ) / 2 ^ k = r at h hrest hnonneg hzero ⊢
  have hle := abs_le.1 h.le
  split_ifs with hup hdown h0
  · have hlow : (a : ℚ) < m := by linarith [hle.2]
    have hhigh : (m : ℚ) < a + 2 := by linarith [hle.1]
    have hlow : a < m := by exact_mod_cast hlow
    have hhigh : m < a + 2 := by exact_mod_cast hhigh
    omega
  · have hlow : (a : ℚ) < m + 1 := by linarith [hle.2]
    have hhigh : (m : ℚ) < a + 1 := by linarith [hle.1]
    have hlow : a < m + 1 := by exact_mod_cast hlow
    have hhigh : m < a + 1 := by exact_mod_cast hhigh
    omega
  · linarith [hzero h0]
  · -- The number is in the middle, so the even one of the two is meant.
    have hr : r = 1 / 2 := le_antisymm (not_lt.1 hup) (not_lt.1 hdown)
    have hlow : (a : ℚ) ≤ m := by linarith [hle.2]
    have hhigh : (m : ℚ) ≤ a + 1 := by linarith [hle.1]
    have hlow : a ≤ m := by exact_mod_cast hlow
    have hhigh : m ≤ a + 1 := by exact_mod_cast hhigh
    rcases h with hlt | ⟨heven, -⟩
    · exfalso
      obtain ⟨h₁, h₂⟩ := abs_sub_lt_half.1 hlt
      rcases Nat.eq_or_lt_of_le hlow with rfl | hlt'
      · linarith
      · have heq : m = a + 1 := by omega
        rw [heq] at h₁
        grind
    · omega

namespace Single

open Double Float.Model.UnpackedFloat

/-- The least exponent is that of zero; above it the significand has 24 bits. -/
structure IsParts (m : Nat) (q : Int) : Prop where
  high : m < 2 ^ 24
  least : -149 ≤ q
  most : q ≤ 104
  normal : -149 < q → 2 ^ 23 ≤ m

theorem isParts {x : Single} (h : x.isFinite = true) : IsParts x.significand x.power := by
  have hexp : x.exponentField < 255 := by simpa [isFinite] using h
  have hfrac : x.fractionField < 0x800000 := Nat.mod_lt _ (by norm_num)
  unfold significand power
  split_ifs with h0 <;> constructor <;> omega

/-- The magnitude bits of a finite number count the numbers below it. -/
theorem magnitude_eq {x : Single} (h : x.isFinite = true) :
    x.significand + (x.power + 149).toNat * 0x800000 = x.bits.toNat % 0x80000000 := by
  have hexp : x.exponentField < 255 := by simpa [isFinite] using h
  have hfield : x.exponentField = x.bits.toNat / 0x800000 % 0x100 := rfl
  have hfrac : x.fractionField = x.bits.toNat % 0x800000 := rfl
  by_cases h0 : x.exponentField = 0
  · have hzero : ((-149 : Int) + 149).toNat = 0 := rfl
    rw [significand, power, if_pos h0, if_pos h0, hzero, Nat.zero_mul]
    omega
  · rw [significand, power, if_neg h0, if_neg h0]
    omega

theorem eq_ofMagnitude {x : Single} (h : x.isFinite = true) :
    x = ofMagnitude x.isNegative (x.significand + (x.power + 149).toNat * 0x800000) := by
  have hexp : x.exponentField < 255 := by simpa [isFinite] using h
  have hfield : x.exponentField = x.bits.toNat / 0x800000 % 0x100 := rfl
  have hlt : x.bits.toNat < 2 ^ 32 := x.bits.toNat_lt
  rw [magnitude_eq h, ofMagnitude]
  by_cases hneg : 0x80000000 ≤ x.bits.toNat
  · have hsign : x.isNegative = true := decide_eq_true hneg
    have hbits : min (x.bits.toNat % 0x80000000) 0x7f800000 + 0x80000000 = x.bits.toNat := by omega
    rw [hsign, if_pos rfl, hbits, UInt32.ofNat_toNat]
  · have hsign : x.isNegative = false := decide_eq_false hneg
    have hbits : min (x.bits.toNat % 0x80000000) 0x7f800000 + 0 = x.bits.toNat := by omega
    rw [hsign, if_neg Bool.false_ne_true, hbits, UInt32.ofNat_toNat]

/-- The exponent of a number fixes the unit it is rounded to. -/
theorem nearest_of_exponent {n c : Nat} {e u : Int} (hn : n ≠ 0)
    (hu : max ((n.log2 : Int) + e - 23) (-149) = u) (he : e < u)
    (h : RoundsTo (n * 2 ^ (e - u)) c) (negative : Bool) :
    nearest negative n e = ofMagnitude negative (c + (u + 149).toNat * 0x800000) := by
  have hround : halfEven n (u - e).toNat = c := by
    refine halfEven_eq ?_
    have hexp : (n : ℚ) / 2 ^ (u - e).toNat = n * 2 ^ (e - u) := by
      rw [← zpow_natCast, Int.toNat_of_nonneg (by omega), div_eq_mul_inv, ← zpow_neg, neg_sub]
    rwa [hexp]
  unfold nearest
  grind

section Double

variable {n : Nat} {e q : Int}

/-- How large a double is says what its exponent is. -/
theorem exponent_le (hlow : 2 ^ 52 ≤ n) (h : n * (2 : ℚ) ^ (e - q) < 2 ^ 24) : e + 29 ≤ q := by
  by_contra hgt
  have hlowq : (2 : ℚ) ^ 52 ≤ n := by exact_mod_cast hlow
  have hpow : (2 : ℚ) ^ (-28 : Int) ≤ 2 ^ (e - q) := zpow_le_zpow_right₀ (by norm_num) (by omega)
  have hmul : (2 : ℚ) ^ 52 * 2 ^ (-28 : Int) ≤ n * 2 ^ (e - q) := by gcongr
  norm_num at hmul
  linarith

theorem le_exponent (hhigh : n < 2 ^ 53) (h : 2 ^ 23 ≤ n * (2 : ℚ) ^ (e - q)) : q ≤ e + 29 := by
  by_contra hlt
  have hhighq : (n : ℚ) < 2 ^ 53 := by exact_mod_cast hhigh
  have hpow : (2 : ℚ) ^ (e - q) ≤ 2 ^ (-30 : Int) := zpow_le_zpow_right₀ (by norm_num) (by omega)
  have hmul : (n : ℚ) * 2 ^ (e - q) < 2 ^ 53 * 2 ^ (-30 : Int) :=
    mul_lt_mul hhighq hpow (by positivity) (by positivity)
  norm_num at hmul
  linarith

/-- **A double in the interval of a single is rounded to it.** -/
theorem nearest_eq {m : Nat} (hlow : 2 ^ 52 ≤ n) (hhigh : n < 2 ^ 53) (hparts : IsParts m q)
    (hnot : -149 < q → m ≠ 2 ^ 23) (h : RoundsTo (n * 2 ^ (e - q)) m) (negative : Bool) :
    nearest negative n e = ofMagnitude negative (m + (q + 149).toNat * 0x800000) := by
  have hle := abs_le.1 h.le
  have hmq : ((m + 1 : ℕ) : ℚ) ≤ 2 ^ 24 := by exact_mod_cast Nat.succ_le_of_lt hparts.high
  push_cast at hmq
  have hupper : e + 29 ≤ q := exponent_le hlow (by linarith [hle.2])
  have hlower : -149 < q → q ≤ e + 29 := by
    intro hq
    have hsucc : 2 ^ 23 + 1 ≤ m := by
      have := hparts.normal hq
      have := hnot hq
      omega
    have hsucc : (2 : ℚ) ^ 23 + 1 ≤ m := by exact_mod_cast hsucc
    exact le_exponent hhigh (by linarith [hle.1])
  refine nearest_of_exponent (by omega) ?_ (by omega) h negative
  rw [log2_eq_of_normal hlow hhigh]
  have := hparts.least
  omega

/-- The number below a power of two is only half as far away. -/
theorem nearest_eq_two_pow (hlow : 2 ^ 52 ≤ n) (hhigh : n < 2 ^ 53) (hq : -149 < q)
    (hleft : (2 : ℚ) ^ 23 - 1 / 4 < n * 2 ^ (e - q))
    (hright : n * (2 : ℚ) ^ (e - q) < 2 ^ 23 + 1 / 2) (negative : Bool) :
    nearest negative n e = ofMagnitude negative (2 ^ 23 + (q + 149).toNat * 0x800000) := by
  have hlog := log2_eq_of_normal hlow hhigh
  have hupper := exponent_le hlow (lt_trans hright (by norm_num))
  by_cases hge : (2 : ℚ) ^ 23 ≤ n * 2 ^ (e - q)
  · have hlower := le_exponent hhigh hge
    refine nearest_of_exponent (by omega) (by omega) (by omega) (.inl ?_) negative
    grind
  · -- It is rounded in the binade below, up to the first number of this one.
    have hdouble : (n : ℚ) * 2 ^ (e - (q - 1)) = 2 * (n * 2 ^ (e - q)) := by grind [zpow_add_one₀]
    have hupper' := exponent_le (q := q - 1) (e := e) hlow (by rw [hdouble]; linarith)
    have hlower' := le_exponent (q := q - 1) (e := e) hhigh (by rw [hdouble]; linarith)
    have hsame : 2 ^ 24 + (q - 1 + 149).toNat * 0x800000 = 2 ^ 23 + (q + 149).toNat * 0x800000 := by
      omega
    rw [← hsame]
    refine nearest_of_exponent (by omega) (by omega) (by omega) (.inl ?_) negative
    grind

end Double

theorem ofFloat_eq {f : Float} {s : Sign} {n : Nat} {e : Int} (h : Holds f s n e) :
    ofFloat f = nearest (s.toBitVec.toNat = 1) n e := by
  have hsign : s.toBitVec.toNat < 2 := s.toBitVec.isLt
  obtain ⟨hlow, hhigh, hleast, hmost, hbits⟩ := h
  have hexp : f.toBits.toNat / 0x10000000000000 % 0x800 = (e + 1075).toNat := by omega
  have hfrac : 0x10000000000000 + f.toBits.toNat % 0x10000000000000 = n := by omega
  have hneg : (0x8000000000000000 ≤ f.toBits.toNat) = (s.toBitVec.toNat = 1) := by
    refine propext ?_
    omega
  unfold ofFloat
  grind

end Single

end CanvasFusion
