import Mathlib.Tactic
import CanvasFusion.Number.Numeral

/-!
# Doubles near their exact values

A numeral is read through a double: its digits are a number of at most 53 bits, which is multiplied
with or divided by a power of ten. This module says what the double is.

`Holds f s m e` gives a double by its bits: sign, mantissa of 53 bits, exponent. It stands for
`± m · 2^e`. Products and quotients are the exact ones, rounded once (`Holds.mul`, `Holds.div`).
Powers of ten up to `10^22` are doubles, and those up to `10^50` are rounded once
(`isPower_powerOfTen`).

**Theorem (exists_scale).** For a number of at most 53 bits and a small exponent, the double is
within three units of the last place of the exact value, and within half a unit if the power of ten
is a double.
-/

namespace CanvasFusion.Double

open Float.Model Float.Model.UnpackedFloat

/-! ## Mantissas and what lies between them -/

variable {em : ExtendedMantissa} {x : ℚ} {m : Nat} {a : Accuracy} {e : Int} {s : Sign} {f : Float}

/-- A number lies at a mantissa with two more bits: the round bit says whether it is past the middle
to the next mantissa, the sticky bit whether it is neither at the mantissa nor at the middle. -/
def Locates (em : ExtendedMantissa) (x : ℚ) : Prop :=
  match em.roundBit, em.stickyBit with
  | false, false => x = em.mantissa
  | false, true => em.mantissa < x ∧ x < em.mantissa + 1 / 2
  | true, false => x = em.mantissa + 1 / 2
  | true, true => em.mantissa + 1 / 2 < x ∧ x < em.mantissa + 1

theorem Locates.shiftRightOne (h : Locates em x) : Locates em.shiftRightOne (x / 2) := by
  obtain ⟨m, r, s⟩ := em
  obtain ⟨c, rfl | rfl⟩ := Nat.even_or_odd' m
  · have hdiv : 2 * c / 2 = c := by omega
    cases r <;> cases s <;>
      simp [Locates, ExtendedMantissa.shiftRightOne, hdiv] at h ⊢
    · linarith
    · constructor <;> linarith
    · constructor <;> linarith
    · constructor <;> linarith
  · have hdiv : (2 * c + 1) / 2 = c := by omega
    have hmod : (2 * c + 1) % 2 = 1 := by omega
    cases r <;> cases s <;>
      simp [Locates, ExtendedMantissa.shiftRightOne, hdiv, hmod] at h ⊢
    · linarith
    · constructor <;> linarith
    · constructor <;> linarith
    · constructor <;> linarith

theorem Locates.shiftRight (h : Locates em x) (n : Nat) : Locates (em >>> n) (x / 2 ^ n) := by
  induction n with
  | zero => simpa [HShiftRight.hShiftRight, Nat.repeat] using h
  | succ n ih =>
    have hstep := ih.shiftRightOne
    rw [div_div, ← pow_succ] at hstep
    exact hstep

theorem Locates.bounds (h : Locates (.ofMantissaAndAccuracy m a) x) : (m : ℚ) ≤ x ∧ x < m + 1 := by
  cases a with
  | exact =>
    change x = m at h
    constructor <;> linarith
  | inexact o =>
    cases o <;> simp only [Locates, ExtendedMantissa.ofMantissaAndAccuracy] at h <;>
      constructor <;> linarith

theorem Locates.rounded (h : Locates em x) : |(em.roundedMantissa : ℚ) - x| ≤ 1 / 2 := by
  obtain ⟨m, r, s⟩ := em
  rw [abs_le]
  cases r <;> cases s <;>
    simp only [Locates, ExtendedMantissa.roundedMantissa, ExtendedMantissa.accuracy,
      Accuracy.roundToNearestEven] at h ⊢
  · constructor <;> linarith
  · constructor <;> linarith
  · have hbit : (m % 2 : ℕ) = 0 ∨ (m % 2 : ℕ) = 1 := by omega
    rcases hbit with hbit | hbit <;> rw [hbit] <;> push_cast <;> constructor <;> linarith
  · grind

/-! ## Rounding to a double -/

theorem minExponent_binary64 : Format.binary64.minExponent = -1074 := by decide

theorem mantissaBits_binary64 : Format.binary64.mantissaBits = 53 := by decide

theorem targetExponent_of_le (hm : 52 ≤ m.log2) (he : -1074 ≤ e) :
    Format.binary64.targetExponent (totalExponent m e) = e + (m.log2 - 52 : Nat) := by
  simp only [Format.targetExponent, totalExponent, minExponent_binary64, mantissaBits_binary64]
  omega

theorem log2_eq_of_normal (hlow : 2 ^ 52 ≤ m) (hhigh : m < 2 ^ 53) : m.log2 = 52 := by
  have hne : m ≠ 0 := by omega
  exact (Nat.log2_eq_iff hne).2 ⟨hlow, hhigh⟩

/-- A mantissa of 53 bits is not shifted. -/
theorem shiftToTargetExponent_normal (hlow : 2 ^ 52 ≤ m) (hhigh : m < 2 ^ 53) (he : -1074 ≤ e) :
    shiftToTargetExponent .binary64 m e a = (.ofMantissaAndAccuracy m a, e) := by
  have hlog := log2_eq_of_normal hlow hhigh
  simp only [shiftToTargetExponent, shiftToExponent,
    targetExponent_of_le (le_of_eq hlog.symm) he, hlog]
  simp [HShiftRight.hShiftRight, Nat.repeat]

/-- Rounding up to the next power of two moves the point. -/
theorem shiftToTargetExponent_carry (he : -1074 ≤ e) :
    shiftToTargetExponent .binary64 (2 ^ 53) e .exact = (⟨2 ^ 52, false, false⟩, e + 1) := by
  have hlog : (2 ^ 53).log2 = 53 := Nat.log2_two_pow
  have htarget := targetExponent_of_le (m := 2 ^ 53) (e := e) (by rw [hlog]; decide) he
  rw [hlog] at htarget
  have hshift : (e + ((53 - 52 : Nat) : Int) - e).toNat = 1 := by omega
  simp only [shiftToTargetExponent, shiftToExponent, htarget, hshift]
  rfl

/-- A rounded mantissa of 53 bits is kept, and the one past them carries into the exponent. -/
theorem roundWithAccuracy_of_shift {e₁ : Int}
    (hshift : shiftToTargetExponent .binary64 m e a = (em, e₁))
    (he : -1074 ≤ e₁) (hlow : 2 ^ 52 ≤ em.roundedMantissa) (hhigh : em.roundedMantissa ≤ 2 ^ 53) :
    ∃ m' e' h, roundWithAccuracy .binary64 .positive m e a = .finite .positive m' e' h ∧
      2 ^ 52 ≤ m' ∧ m' < 2 ^ 53 ∧ e₁ ≤ e' ∧ e' ≤ e₁ + 1 ∧
      (m' : ℚ) * 2 ^ e' = em.roundedMantissa * 2 ^ e₁ := by
  unfold roundWithAccuracy
  rw [hshift]
  dsimp only
  rcases Nat.lt_or_eq_of_le hhigh with hlt | heq
  · have hne : em.roundedMantissa ≠ 0 := by omega
    rw [shiftToTargetExponent_normal hlow hlt he]
    exact ⟨em.roundedMantissa, e₁, by omega, dif_neg hne, hlow, hlt, le_rfl, by omega, rfl⟩
  · rw [heq, shiftToTargetExponent_carry he]
    have hne : 2 ^ 52 ≠ 0 := by decide
    refine ⟨2 ^ 52, e₁ + 1, by decide, dif_neg hne, le_rfl, by decide, by omega, le_rfl, ?_⟩
    grind [zpow_add_one₀]

/-- A double is not rounded any more. -/
theorem roundWithAccuracy_exact (hpos : 0 < m) (hlow : 2 ^ 52 ≤ m) (hhigh : m < 2 ^ 53)
    (he : -1074 ≤ e) :
    roundWithAccuracy .binary64 .positive m e .exact = .finite .positive m e hpos := by
  have hrounded : (ExtendedMantissa.ofMantissaAndAccuracy m .exact).roundedMantissa = m := rfl
  have hne : m ≠ 0 := hpos.ne'
  unfold roundWithAccuracy
  rw [shiftToTargetExponent_normal hlow hhigh he]
  dsimp only
  rw [hrounded, shiftToTargetExponent_normal hlow hhigh he]
  exact dif_neg hne

/-- **Rounding a number with enough bits gives the nearest double.** Half the last place is as far
as it may be off. -/
theorem roundWithAccuracy_normal (hx : Locates (.ofMantissaAndAccuracy m a) x) (hm : 2 ^ 52 ≤ m)
    (he : -1074 ≤ e) :
    ∃ m' e' h, roundWithAccuracy .binary64 .positive m e a = .finite .positive m' e' h ∧
      2 ^ 52 ≤ m' ∧ m' < 2 ^ 53 ∧ e ≤ e' ∧ e' + 51 ≤ e + m.log2 ∧
      |(m' : ℚ) * 2 ^ e' - x * 2 ^ e| ≤ 2 ^ e' / 2 := by
  have hne : m ≠ 0 := by omega
  have hlog : 52 ≤ m.log2 := (Nat.le_log2 hne).2 hm
  obtain ⟨n, hn⟩ := Nat.exists_eq_add_of_le hlog
  have hshift : shiftToTargetExponent .binary64 m e a =
      (ExtendedMantissa.ofMantissaAndAccuracy m a >>> n, e + n) := by
    have hsub : (m.log2 - 52 : Nat) = n := by omega
    have hto : (e + (n : Int) - e).toNat = n := by omega
    simp only [shiftToTargetExponent, shiftToExponent, targetExponent_of_le hlog he, hsub, hto]
  -- The shifted number has 53 bits before the point.
  have hlow : (2 : ℚ) ^ 52 ≤ x / 2 ^ n := by
    rw [le_div_iff₀ (by positivity), ← pow_add, ← hn]
    exact le_trans (by exact_mod_cast Nat.log2_self_le hne) hx.bounds.1
  have hhigh : x / 2 ^ n < (2 : ℚ) ^ 53 := by
    rw [div_lt_iff₀ (by positivity), ← pow_add]
    have hsucc : m + 1 ≤ 2 ^ (53 + n) := by grind [Nat.lt_log2_self]
    exact lt_of_lt_of_le hx.bounds.2 (by exact_mod_cast hsucc)
  have hround := (hx.shiftRight n).rounded
  generalize hem : ExtendedMantissa.ofMantissaAndAccuracy m a >>> n = em at hshift hround
  have hbounds := abs_le.1 hround
  have hRlow : 2 ^ 52 ≤ em.roundedMantissa := by
    by_contra hlt
    have hsucc : (em.roundedMantissa : ℚ) + 1 ≤ 2 ^ 52 := by exact_mod_cast Nat.not_le.1 hlt
    linarith [hbounds.1]
  have hRhigh : em.roundedMantissa ≤ 2 ^ 53 := by
    by_contra hgt
    have hsucc : (2 : ℚ) ^ 53 + 1 ≤ em.roundedMantissa := by exact_mod_cast Nat.not_le.1 hgt
    linarith [hbounds.2]
  obtain ⟨m', e', hpos, heq, hm'low, hm'high, he', hcarry, hval⟩ :=
    roundWithAccuracy_of_shift hshift (by omega) hRlow hRhigh
  refine ⟨m', e', hpos, heq, hm'low, hm'high, by omega, by omega, ?_⟩
  have hexact : (em.roundedMantissa : ℚ) * 2 ^ (e + n) - x * 2 ^ e =
      (em.roundedMantissa - x / 2 ^ n) * 2 ^ (e + n) := by
    rw [zpow_add₀ (by norm_num), zpow_natCast]
    field_simp
  rw [hval, hexact, abs_mul, abs_of_pos (show (0 : ℚ) < 2 ^ (e + n) by positivity)]
  calc |(em.roundedMantissa : ℚ) - x / 2 ^ n| * 2 ^ (e + n) ≤ 1 / 2 * 2 ^ (e + n) := by gcongr
    _ ≤ 1 / 2 * 2 ^ e' := by gcongr; norm_num
    _ = 2 ^ e' / 2 := by ring

/-! ## Bits -/

/-- The bits of a double that is not near zero: sign, exponent, and mantissa without its first
bit. -/
structure Holds (f : Float) (s : Sign) (m : Nat) (e : Int) : Prop where
  low : 2 ^ 52 ≤ m
  high : m < 2 ^ 53
  least : -1074 ≤ e
  most : e ≤ 971
  bits : f.toBits.toNat = s.toBitVec.toNat * 2 ^ 63 + (e + 1075).toNat * 2 ^ 52 + (m - 2 ^ 52)

theorem toNat_packComponents (s : Sign) (exponent : BitVec 11) (mantissa : BitVec 52) :
    (packComponents .binary64 s exponent mantissa).toNat =
      s.toBitVec.toNat * 2 ^ 63 + exponent.toNat * 2 ^ 52 + mantissa.toNat := by
  have hm : mantissa.toNat < 2 ^ 52 := mantissa.isLt
  have he : exponent.toNat < 2 ^ 11 := exponent.isLt
  change (s.toBitVec ++ exponent ++ mantissa).toNat = _
  grind [BitVec.toNat_append, Nat.shiftLeft_add_eq_or_of_lt, Nat.shiftLeft_eq]

theorem holds_pack (hpos : 0 < m) (hlow : 2 ^ 52 ≤ m) (hhigh : m < 2 ^ 53) (hleast : -1074 ≤ e)
    (hmost : e ≤ 971) : Holds (.ofModel (.pack (.finite s m e hpos))) s m e := by
  refine ⟨hlow, hhigh, hleast, hmost, ?_⟩
  have hlog := log2_eq_of_normal hlow hhigh
  have hbias : Format.binary64.exponentBias = 1023 := by decide
  have hpack : UnpackedFloat.pack .binary64 (.finite s m e hpos) =
      packComponents .binary64 s (BitVec.ofNat _ (e + 1075).toNat) (BitVec.ofNat _ m) := by
    have hexp : e + (1023 : ℕ) + (52 : ℕ) = e + 1075 := by omega
    change (if 2 ^ 11 ≤ (e + Format.binary64.exponentBias + (52 : ℕ)).toNat + 1 then
        packedInfinity .binary64 s
      else if m.log2 + 1 = 53 then packComponents .binary64 s
        (BitVec.ofNat _ (e + Format.binary64.exponentBias + (52 : ℕ)).toNat) (BitVec.ofNat _ m)
      else packComponents .binary64 s 0 (BitVec.ofNat _ m)) = _
    rw [hbias, hexp, hlog, if_neg (by omega), if_pos rfl]
  change (UnpackedFloat.pack .binary64 (.finite s m e hpos)).toNat = _
  rw [hpack, toNat_packComponents, BitVec.toNat_ofNat, BitVec.toNat_ofNat,
    Nat.mod_eq_of_lt (by omega)]
  omega

theorem toNat_unpackMantissa (b : BitVec 64) :
    (@unpackMantissa .binary64 b).toNat = b.toNat % 2 ^ 52 := by
  change (b.extractLsb 51 0).toNat = _
  simp [BitVec.extractLsb_toNat]

theorem toNat_unpackExponent (b : BitVec 64) :
    (@unpackExponent .binary64 b).toNat = b.toNat / 2 ^ 52 % 2 ^ 11 := by
  change (b.extractLsb 62 52).toNat = _
  simp [BitVec.extractLsb_toNat, Nat.shiftRight_eq_div_pow]

theorem toNat_unpackSign (b : BitVec 64) :
    (@unpackSign .binary64 b).toNat = b.toNat / 2 ^ 63 % 2 := by
  change (b.extractLsb 63 63).toNat = _
  simp [BitVec.extractLsb_toNat, Nat.shiftRight_eq_div_pow]

theorem ofBitVec_toBitVec (s : Sign) : Sign.ofBitVec s.toBitVec = s := by
  cases s <;> rfl

theorem finite_congr {m' : Nat} {e' : Int} (hm : m = m') (he : e = e') {h : 0 < m} {h' : 0 < m'} :
    UnpackedFloat.finite s m e h = .finite s m' e' h' := by
  subst hm he
  rfl

theorem Holds.unpack (h : Holds f s m e) : ∃ hpos, f.toModel.unpack = .finite s m e hpos := by
  obtain ⟨hlow, hhigh, hleast, hmost, hbits⟩ := h
  have hpos : 0 < m := by omega
  refine ⟨hpos, ?_⟩
  change f.toModel.toBits.toBitVec.toNat = _ at hbits
  have hsign : s.toBitVec.toNat < 2 := s.toBitVec.isLt
  have hmantissa := toNat_unpackMantissa f.toModel.toBits.toBitVec
  have hexponent := toNat_unpackExponent f.toModel.toBits.toBitVec
  have hs : @unpackSign .binary64 f.toModel.toBits.toBitVec = s.toBitVec := by
    refine BitVec.eq_of_toNat_eq ?_
    rw [toNat_unpackSign, hbits]
    omega
  rw [hbits] at hmantissa hexponent
  have hm : (1#1 ++ @unpackMantissa .binary64 f.toModel.toBits.toBitVec).toNat = m := by
    rw [BitVec.toNat_append, ← Nat.shiftLeft_add_eq_or_of_lt (BitVec.isLt _), hmantissa,
      Nat.shiftLeft_eq]
    grind
  have he : (@unpackExponent .binary64 f.toModel.toBits.toBitVec).toNat =
      (e + 1075).toNat := by
    rw [hexponent]
    omega
  unfold Float.Model.unpack UnpackedFloat.unpack
  rw [if_neg, if_neg]
  · rw [hs, ofBitVec_toBitVec]
    have hbias : (Format.binary64.exponentBias : Int) + (52 : ℕ) = 1075 := by decide
    refine finite_congr hm ?_
    rw [he, hbias]
    omega
  · intro hzero
    rw [hzero] at he
    simp at he
    omega
  · intro hones
    rw [hones] at he
    simp at he
    omega

/-! ## Arithmetic -/

section Arithmetic

variable {g : Float} {n : Nat} {d : Int}

theorem Holds.isInf {s : Sign} (h : Holds f s m e) : f.isInf = false := by
  obtain ⟨hpos, hunpack⟩ := h.unpack
  change f.toModel.unpack.isInf = false
  rw [hunpack]
  rfl

theorem Holds.neg {s : Sign} (h : Holds f s m e) : Holds (-f) (-s) m e := by
  obtain ⟨hpos, hunpack⟩ := h.unpack
  have heq : -f = .ofModel (.pack (.finite (-s) m e hpos)) := by
    change Float.ofModel (.pack f.toModel.unpack.neg) = _
    rw [hunpack]
    rfl
  rw [heq]
  exact holds_pack hpos h.low h.high h.least h.most

theorem locates_exact (m : Nat) : Locates (.ofMantissaAndAccuracy m .exact) m := rfl

theorem locates_fraction (hn : 0 < n) (m : Nat) :
    Locates (.ofMantissaAndAccuracy (m / n) (accuracyOfFraction (m % n) n)) ((m : ℚ) / n) := by
  have hn' : (0 : ℚ) < n := by exact_mod_cast hn
  have hsplit : (m : ℚ) / n = (m / n : ℕ) + (m % n : ℕ) / n := by
    have hdiv : (m : ℚ) = n * (m / n : ℕ) + (m % n : ℕ) := by
      exact_mod_cast (Nat.div_add_mod m n).symm
    rw [hdiv]
    field_simp
  have hlt : ((m % n : ℕ) : ℚ) / n < 1 := by
    rw [div_lt_one hn']
    exact_mod_cast Nat.mod_lt m hn
  rw [hsplit]
  unfold accuracyOfFraction
  by_cases hzero : m % n = 0
  · simp [hzero, Locates, ExtendedMantissa.ofMantissaAndAccuracy]
  · have hpos : (0 : ℚ) < (m % n : ℕ) / n :=
      div_pos (by exact_mod_cast Nat.pos_of_ne_zero hzero) hn'
    rw [if_neg hzero]
    rcases lt_trichotomy (2 * (m % n)) n with h | h | h
    · rw [Nat.compare_eq_lt.2 h]
      have hhalf : ((m % n : ℕ) : ℚ) / n < 1 / 2 := by
        rw [div_lt_div_iff₀ hn' (by norm_num)]
        have : ((2 * (m % n) : ℕ) : ℚ) < n := by exact_mod_cast h
        push_cast at this
        linarith
      change ((m / n : ℕ) : ℚ) < _ ∧ _ < ((m / n : ℕ) : ℚ) + 1 / 2
      constructor <;> linarith
    · rw [Nat.compare_eq_eq.2 h]
      have hhalf : ((m % n : ℕ) : ℚ) / n = 1 / 2 := by
        rw [div_eq_div_iff hn'.ne' (by norm_num)]
        have : ((2 * (m % n) : ℕ) : ℚ) = n := by exact_mod_cast h
        push_cast at this
        linarith
      change _ = ((m / n : ℕ) : ℚ) + 1 / 2
      rw [hhalf]
    · rw [Nat.compare_eq_gt.2 h]
      have hhalf : 1 / 2 < ((m % n : ℕ) : ℚ) / n := by
        rw [div_lt_div_iff₀ (by norm_num) hn']
        have : (n : ℚ) < ((2 * (m % n) : ℕ) : ℚ) := by exact_mod_cast h
        push_cast at this
        linarith
      change ((m / n : ℕ) : ℚ) + 1 / 2 < _ ∧ _ < ((m / n : ℕ) : ℚ) + 1
      constructor <;> linarith

/-- A result of rounding is a double, unless its exponent is out of range. -/
theorem holds_round {a : Accuracy} {x : ℚ} (hx : Locates (.ofMantissaAndAccuracy m a) x)
    (hm : 2 ^ 52 ≤ m) (he : -1074 ≤ e) (hmost : e + m.log2 ≤ 1000) :
    ∃ n d, Holds (.ofModel (.pack (roundWithAccuracy .binary64 .positive m e a))) .positive n d ∧
      |(n : ℚ) * 2 ^ d - x * 2 ^ e| ≤ 2 ^ d / 2 := by
  obtain ⟨n, d, hpos, heq, hlow, hhigh, hed, hlog, herror⟩ := roundWithAccuracy_normal hx hm he
  refine ⟨n, d, ?_, herror⟩
  rw [heq]
  exact holds_pack hpos hlow hhigh (by omega) (by omega)

/-- The product of two doubles is rounded once. -/
theorem Holds.mul (hf : Holds f .positive m e) (hg : Holds g .positive n d)
    (hleast : -1074 ≤ e + d) (hmost : e + d ≤ 800) :
    ∃ m' e', Holds (f * g) .positive m' e' ∧
      |(m' : ℚ) * 2 ^ e' - m * 2 ^ e * (n * 2 ^ d)| ≤ 2 ^ e' / 2 := by
  obtain ⟨hmpos, hm⟩ := hf.unpack
  obtain ⟨hnpos, hn⟩ := hg.unpack
  have heq : f * g =
      .ofModel (.pack (roundWithAccuracy .binary64 .positive (m * n) (e + d) .exact)) := by
    change Float.ofModel (.pack (.mul .binary64 f.toModel.unpack g.toModel.unpack)) = _
    rw [hm, hn]
    rfl
  have hlow : 2 ^ 52 ≤ m * n := le_trans hf.low (Nat.le_mul_of_pos_right m hnpos)
  have hhigh : m * n < 2 ^ 106 :=
    lt_of_lt_of_eq (Nat.mul_lt_mul_of_lt_of_le hf.high hg.high.le (by positivity)) (by norm_num)
  have hlog : (m * n).log2 < 106 := (Nat.log2_lt (by omega)).2 hhigh
  obtain ⟨m', e', hholds, herror⟩ := holds_round (locates_exact (m * n)) hlow hleast (by omega)
  refine ⟨m', e', heq ▸ hholds, ?_⟩
  have hprod : ((m * n : ℕ) : ℚ) * 2 ^ (e + d) = m * 2 ^ e * (n * 2 ^ d) := by
    rw [zpow_add₀ (by norm_num)]
    push_cast
    ring
  rwa [hprod] at herror

/-- The quotient of two doubles is rounded once. -/
theorem Holds.div (hf : Holds f .positive m e) (hg : Holds g .positive n d)
    (hleast : -1000 ≤ e - d) (hmost : e - d ≤ 800) :
    ∃ m' e', Holds (f / g) .positive m' e' ∧
      |(m' : ℚ) * 2 ^ e' - m * 2 ^ e / (n * 2 ^ d)| ≤ 2 ^ e' / 2 := by
  obtain ⟨hmpos, hm⟩ := hf.unpack
  obtain ⟨hnpos, hn⟩ := hg.unpack
  have hcore : divCore .binary64 m e n d = (m * 2 ^ 53 / n, e - d - 53,
      accuracyOfFraction (m * 2 ^ 53 % n) n) := by
    have htarget : min (e - d) (Format.binary64.targetExponent
        (totalExponent m e - totalExponent n d)) = e - d - 53 := by
      simp only [Format.targetExponent, totalExponent, minExponent_binary64, mantissaBits_binary64,
        log2_eq_of_normal hf.low hf.high, log2_eq_of_normal hg.low hg.high]
      omega
    have hshift : (e - d - (e - d - 53)).toNat = 53 := by omega
    simp only [divCore, htarget, hshift, Nat.shiftLeft_eq]
  have heq : f / g = .ofModel (.pack (roundWithAccuracy .binary64 .positive (m * 2 ^ 53 / n)
      (e - d - 53) (accuracyOfFraction (m * 2 ^ 53 % n) n))) := by
    have hdiv : UnpackedFloat.div .binary64 (.finite .positive m e hmpos)
        (.finite .positive n d hnpos) =
        match divCore .binary64 m e n d with
        | (q, c, a) => roundWithAccuracy .binary64 .positive q c a := rfl
    change Float.ofModel (.pack (.div .binary64 f.toModel.unpack g.toModel.unpack)) = _
    rw [hm, hn, hdiv, hcore]
  have hlow : 2 ^ 52 ≤ m * 2 ^ 53 / n := by
    rw [Nat.le_div_iff_mul_le hnpos]
    have := hf.low
    have := hg.high
    omega
  have hhigh : m * 2 ^ 53 / n < 2 ^ 54 := by
    rw [Nat.div_lt_iff_lt_mul hnpos]
    have := hf.high
    have := hg.low
    omega
  have hlog : (m * 2 ^ 53 / n).log2 < 54 := (Nat.log2_lt (by omega)).2 hhigh
  obtain ⟨m', e', hholds, herror⟩ :=
    holds_round (e := e - d - 53) (locates_fraction hnpos (m * 2 ^ 53)) hlow (by omega) (by omega)
  refine ⟨m', e', heq ▸ hholds, ?_⟩
  have hquot : ((m * 2 ^ 53 : ℕ) : ℚ) / n * 2 ^ (e - d - 53) = m * 2 ^ e / (n * 2 ^ d) := by
    have hn' : (n : ℚ) ≠ 0 := by exact_mod_cast hnpos.ne'
    rw [zpow_sub₀ (by norm_num), zpow_sub₀ (by norm_num)]
    push_cast
    field_simp
  rwa [hquot] at herror

/-- A number of at most 53 bits is a double. -/
theorem holds_ofNat (hpos : 0 < n) (hlt : n < 2 ^ 53) :
    ∃ m e, Holds (UInt64.ofNat n).toFloat .positive m e ∧ (m : ℚ) * 2 ^ e = n ∧ -52 ≤ e ∧
      e ≤ 0 := by
  have hne : n ≠ 0 := by omega
  have hlog : n.log2 ≤ 52 := Nat.le_of_lt_succ ((Nat.log2_lt hne).2 hlt)
  obtain ⟨k, hk⟩ := Nat.exists_eq_add_of_le hlog
  have hlow : 2 ^ 52 ≤ n * 2 ^ k := by
    rw [hk, pow_add]
    exact Nat.mul_le_mul_right _ (Nat.log2_self_le hne)
  have hhigh : n * 2 ^ k < 2 ^ 53 := by
    have : 53 = n.log2 + 1 + k := by omega
    rw [this, pow_add]
    exact Nat.mul_lt_mul_of_pos_right Nat.lt_log2_self (by positivity)
  have hmpos : 0 < n * 2 ^ k := by omega
  have hround : UnpackedFloat.round .binary64 .positive n 0 =
      roundWithAccuracy .binary64 .positive (n * 2 ^ k) (-k) .exact := by
    have htarget : Format.binary64.targetExponent (totalExponent n 0) = -k := by
      simp only [Format.targetExponent, totalExponent, minExponent_binary64, mantissaBits_binary64]
      omega
    have hshift : ((0 : Int) - -(k : Int)).toNat = k := by omega
    have hexp : (0 : Int) - (k : Int) = -k := by omega
    simp only [UnpackedFloat.round, decreaseExponent, htarget, hshift, Nat.shiftLeft_eq, hexp]
  have heq : (UInt64.ofNat n).toFloat =
      .ofModel (.pack (.finite .positive (n * 2 ^ k) (-k) hmpos)) := by
    have hword : (UInt64.ofNat n).toNat = n := UInt64.toNat_ofNat_of_lt' (lt_trans hlt (by decide))
    change Float.ofModel (.pack
      (UnpackedFloat.normalize .binary64 ((UInt64.ofNat n).toNat : Int) 0 .positive)) = _
    rw [hword, ← roundWithAccuracy_exact hmpos hlow hhigh (by omega), ← hround]
    unfold UnpackedFloat.normalize
    grind
  refine ⟨n * 2 ^ k, -k, ?_, ?_, by omega, by omega⟩
  · rw [heq]
    exact holds_pack hmpos hlow hhigh (by omega) (by omega)
  · rw [zpow_neg, zpow_natCast]
    push_cast
    field_simp

end Arithmetic

/-! ## Powers of ten -/

/-- How near the double of `10^k` is to it, in integers. The bits are `a · 2^52` and the
mantissa. -/
def IsPower (k bits : Nat) : Prop :=
  let a := bits / 2 ^ 52
  let x := (bits % 2 ^ 52 + 2 ^ 52) * 2 ^ (a - 1075)
  let y := 10 ^ k * 2 ^ (1075 - a)
  1023 ≤ a ∧ a ≤ 1200 ∧ 2 ^ 53 * x ≤ (2 ^ 53 + 1) * y ∧ 2 ^ 53 * y ≤ 2 ^ 53 * x + y ∧
    (k ≤ 22 → x = y)

instance (k bits : Nat) : Decidable (IsPower k bits) := inferInstanceAs (Decidable (_ ∧ _))

theorem isPower_powerOfTen : ∀ k < 51, IsPower k (Numeral.powerOfTen k).toBits.toNat := by
  decide +kernel

theorem mul_zpow_mul_pow {c d : Nat} (h : e + d = c) (m : Nat) :
    (m : ℚ) * 2 ^ e * 2 ^ d = ((m * 2 ^ c : ℕ) : ℚ) := by
  have hexp : (2 : ℚ) ^ e * 2 ^ d = 2 ^ c := by
    rw [← zpow_natCast, ← zpow_natCast, ← zpow_add₀ (by norm_num), h]
  rw [mul_assoc, hexp]
  push_cast
  rfl

theorem IsPower.holds {k : Nat} (h : IsPower k f.toBits.toNat) :
    ∃ m e, Holds f .positive m e ∧ -52 ≤ e ∧ e ≤ 125 ∧
      |(m : ℚ) * 2 ^ e - 10 ^ k| ≤ 10 ^ k / 2 ^ 53 ∧ (k ≤ 22 → (m : ℚ) * 2 ^ e = 10 ^ k) := by
  generalize hbits : f.toBits.toNat = bits at h
  obtain ⟨hleast, hmost, hupper, hlower, hexact⟩ := h
  generalize ha : bits / 2 ^ 52 = a at hleast hmost hupper hlower hexact
  generalize hm : bits % 2 ^ 52 + 2 ^ 52 = m at hupper hlower hexact
  generalize hc : a - 1075 = c at hupper hlower hexact
  generalize hd : 1075 - a = d at hupper hlower hexact
  have hvalue := mul_zpow_mul_pow (c := c) (d := d) (e := a - 1075) (by omega) m
  have hpow : (0 : ℚ) < 2 ^ d := by positivity
  refine ⟨m, a - 1075, ⟨by omega, by omega, by omega, by omega, ?_⟩, by omega, by omega, ?_,
    fun hk => ?_⟩
  · have hsign : Sign.positive.toBitVec.toNat = 0 := rfl
    rw [hbits, hsign]
    omega
  · have hupper' : (2 : ℚ) ^ 53 * ((m * 2 ^ c : ℕ) : ℚ) ≤ (2 ^ 53 + 1) * (10 ^ k * 2 ^ d) := by
      exact_mod_cast hupper
    have hlower' : (2 : ℚ) ^ 53 * (10 ^ k * 2 ^ d) ≤
        2 ^ 53 * ((m * 2 ^ c : ℕ) : ℚ) + 10 ^ k * 2 ^ d := by exact_mod_cast hlower
    rw [← hvalue] at hupper' hlower'
    have hu : 2 ^ 53 * (m * 2 ^ ((a : Int) - 1075)) ≤ ((2 : ℚ) ^ 53 + 1) * 10 ^ k :=
      le_of_mul_le_mul_right (by linarith) hpow
    have hl : (2 : ℚ) ^ 53 * 10 ^ k ≤ 2 ^ 53 * (m * 2 ^ ((a : Int) - 1075)) + 10 ^ k :=
      le_of_mul_le_mul_right (by linarith) hpow
    rw [abs_le]
    constructor <;> linarith
  · have heq : ((m * 2 ^ c : ℕ) : ℚ) = 10 ^ k * 2 ^ d := by exact_mod_cast hexact hk
    rw [← hvalue] at heq
    exact mul_right_cancel₀ hpow.ne' heq

/-! ## Scaling -/

/-- Two roundings are off by less than three units of the last place together. -/
theorem abs_sub_le_of_rounded {y z : ℚ} (hx : 0 < x) (hy : |y - x| ≤ x * (2 ^ 53 + 2) / 2 ^ 106)
    (hz : |z - y| ≤ z / 2 ^ 53) : |z - x| ≤ 3 / 2 ^ 53 * x := by
  rw [abs_le] at hy hz ⊢
  constructor <;> linarith

theorem Holds.ulp_le (h : Holds f s m e) : (2 : ℚ) ^ e / 2 ≤ m * 2 ^ e / 2 ^ 53 := by
  have hlow : (2 : ℚ) ^ 52 ≤ m := by exact_mod_cast h.low
  have hpos : (0 : ℚ) < 2 ^ e := by positivity
  have hmul : (2 : ℚ) ^ 52 * 2 ^ e ≤ m * 2 ^ e := by gcongr
  linarith

/-- The error of a product with a factor that is off by one rounding. -/
theorem abs_mul_sub_le {s p t : ℚ} (hs : 0 < s) (ht : 0 < t) (hp : |p - t| ≤ t / 2 ^ 53) :
    |s * p - s * t| ≤ s * t * (2 ^ 53 + 2) / 2 ^ 106 := by
  rw [← mul_sub, abs_mul, abs_of_pos hs]
  have hst : 0 < s * t := by positivity
  calc s * |p - t| ≤ s * (t / 2 ^ 53) := by gcongr
    _ ≤ s * t * (2 ^ 53 + 2) / 2 ^ 106 := by linarith

/-- The error of a quotient by a number that is off by one rounding. -/
theorem abs_div_sub_le {s p t : ℚ} (hs : 0 < s) (ht : 0 < t) (hp : |p - t| ≤ t / 2 ^ 53) :
    |s / p - s / t| ≤ s / t * (2 ^ 53 + 2) / 2 ^ 106 := by
  have hp' := abs_le.1 hp
  have hlow : t * (1 - 1 / 2 ^ 53) ≤ p := by linarith
  have hppos : 0 < p := lt_of_lt_of_le (by positivity) hlow
  have hsplit : s / p - s / t = s / t * ((t - p) / p) := by field_simp
  rw [hsplit, abs_mul, abs_of_pos (div_pos hs ht), abs_div, abs_of_pos hppos, abs_sub_comm,
    mul_div_assoc]
  refine mul_le_mul_of_nonneg_left ?_ (by positivity)
  rw [div_le_div_iff₀ hppos (by norm_num)]
  linarith

/-- **A number of at most 53 bits times a power of ten is read within three units of the last
place, and rounded once only if the power is a double.** -/
theorem exists_scale {s : Nat} (hpos : 0 < s) (hlt : s < 2 ^ 53) (hleast : -50 ≤ e)
    (hmost : e ≤ 50) :
    ∃ f m d, Numeral.scale? (UInt64.ofNat s).toFloat e = some f ∧ Holds f .positive m d ∧
      |(m : ℚ) * 2 ^ d - s * 10 ^ e| ≤ 3 / 2 ^ 53 * (s * 10 ^ e) ∧
      (e.natAbs ≤ 22 → |(m : ℚ) * 2 ^ d - s * 10 ^ e| ≤ 2 ^ d / 2) := by
  obtain ⟨a, b, hs, hval, hbleast, hbmost⟩ := holds_ofNat hpos hlt
  have hspos : (0 : ℚ) < s := by exact_mod_cast hpos
  cases e with
  | ofNat k =>
    have hk : k < 51 := by
      simp only [Int.ofNat_eq_natCast] at hmost
      omega
    obtain ⟨p, c, hp, hcleast, hcmost, hnear, hexact⟩ := (isPower_powerOfTen k hk).holds
    obtain ⟨m, d, hf, herror⟩ := hs.mul hp (by omega) (by omega)
    refine ⟨_, m, d, ?_, hf, ?_, fun hsmall => ?_⟩
    · have hle : k ≤ 308 := by omega
      simp only [Numeral.scale?, hle, if_true, hf.isInf]
      rfl
    · rw [hval] at herror
      refine abs_sub_le_of_rounded (by positivity) ?_ (herror.trans hf.ulp_le)
      exact abs_mul_sub_le hspos (by positivity) hnear
    · rw [hval, hexact hsmall] at herror
      exact herror
  | negSucc k =>
    have hk : k + 1 < 51 := by omega
    obtain ⟨p, c, hp, hcleast, hcmost, hnear, hexact⟩ := (isPower_powerOfTen (k + 1) hk).holds
    obtain ⟨m, d, hf, herror⟩ := hs.div hp (by omega) (by omega)
    have hten : (s : ℚ) * 10 ^ (Int.negSucc k) = s / 10 ^ (k + 1) := by
      rw [zpow_negSucc, div_eq_mul_inv]
    refine ⟨_, m, d, ?_, hf, ?_, fun hsmall => ?_⟩
    · have hdiv : k / 308 = 0 := by omega
      simp only [Numeral.scale?, hdiv, Nat.mul_zero, Nat.sub_zero, Numeral.scaleDown]
    · rw [hval] at herror
      rw [hten]
      refine abs_sub_le_of_rounded (by positivity) ?_ (herror.trans hf.ulp_le)
      exact abs_div_sub_le hspos (by positivity) hnear
    · grind

end CanvasFusion.Double
