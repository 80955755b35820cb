import CanvasFusion.Json.Decode
import CanvasFusion.Proofs.Json.Printed
import CanvasFusion.Proofs.Number.Nearest
import CanvasFusion.Proofs.Number.Spacing

/-!
# A printed single is read back

The reader scales the digits by a power of ten in double precision and rounds the double to single
precision, so a numeral is rounded two or three times. The shortest decimal of a single survives
that: it stays far enough from the ends of the interval that rounds to the single
(`roundsTo_of_near_shortest`), and where it lies on an end its power of ten is a double and the
product is exact. `Faithful` says this of one significand and power, `ofDecimal_readsAs` says which
product each layout of the decimal is read as, and `toSingle?_ofSingle` joins them for every finite
single. Two significands come too close to an end for the bound and are read by evaluation.
-/

namespace CanvasFusion

open List Numeral

namespace Decimal

open Single

variable {q : Int}

/-- The shortest decimal has few digits, and the doubles near it become the number. -/
def Faithful (m : Nat) (q : Int) (narrow : Bool) : Prop :=
  ∃ (c : Nat) (k : Int), shortest m q narrow = ⟨c, k⟩ ∧ 0 < c ∧ c < 2 ^ 28 ∧ -45 ≤ k ∧ k ≤ 39 ∧
    ∀ (n : Nat) (e : Int), 2 ^ 52 ≤ n → n < 2 ^ 53 →
      |(n : ℚ) * 2 ^ e - c * 10 ^ k| ≤ 3 / 2 ^ 53 * (c * 10 ^ k) →
      (k.natAbs ≤ 22 → |(n : ℚ) * 2 ^ e - c * 10 ^ k| ≤ 2 ^ e / 2) →
      ∀ negative, nearest negative n e = ofMagnitude negative (m + (q + 149).toNat * 0x800000)

/-- A double within half a unit of a half-integer of few bits is that number. -/
theorem eq_of_half_unit {n p : Nat} {e : Int} (hlow : 2 ^ 52 ≤ n) (hp : p < 2 ^ 25)
    (h : |(n : ℚ) * 2 ^ e - p / 2 * 2 ^ q| ≤ 2 ^ e / 2) : (n : ℚ) * 2 ^ e = p / 2 * 2 ^ q := by
  have hlowq : (2 : ℚ) ^ 52 ≤ n := by exact_mod_cast hlow
  have hpq : (p : ℚ) < 2 ^ 25 := by exact_mod_cast hp
  have he : (0 : ℚ) < 2 ^ e := by positivity
  have hq : (0 : ℚ) < 2 ^ q := by positivity
  have hle := abs_le.1 h
  -- The unit of the double divides the half-integer.
  have hexp : e ≤ q - 1 := by
    by_contra hgt
    have hpow : (2 : ℚ) ^ q ≤ 2 ^ e := zpow_le_zpow_right₀ (by norm_num) (by omega)
    nlinarith
  obtain ⟨j, hj⟩ : ∃ j : Nat, q - 1 = e + j := ⟨(q - 1 - e).toNat, by omega⟩
  have hpow : (p : ℚ) / 2 * 2 ^ q = (p * 2 ^ j : ℕ) * 2 ^ e := by
    rw [show q = e + j + 1 by omega, zpow_add_one₀ (by norm_num), zpow_add₀ (by norm_num),
      zpow_natCast]
    push_cast
    ring
  rw [hpow] at h ⊢
  rw [← sub_mul, abs_mul, abs_of_pos he] at h
  have hhalf : |(n : ℚ) - (p * 2 ^ j : ℕ)| ≤ 1 / 2 := le_of_mul_le_mul_right (by linarith) he
  have heq : (n : ℤ) = (p * 2 ^ j : ℕ) := by
    have hlt : |(n : ℤ) - (p * 2 ^ j : ℕ)| < 1 := by
      have : ((|(n : ℤ) - (p * 2 ^ j : ℕ)| : ℤ) : ℚ) < 1 := by
        push_cast
        push_cast at hhalf
        linarith
      exact_mod_cast this
    have := Int.abs_lt_one_iff.1 hlt
    omega
  have heq : n = p * 2 ^ j := by exact_mod_cast heq
  rw [heq]

theorem tenth_le_step {k : Int} (hleast : -149 ≤ q) (hmost : q ≤ 104) (hk : coarse q - 1 ≤ k) :
    1 / 10 ≤ step q k := by
  obtain ⟨j, rfl⟩ : ∃ j : Nat, k = coarse q - 1 + j := ⟨(k - (coarse q - 1)).toNat, by omega⟩
  have hten : step q (coarse q - 1 + 1) = 10 * step q (coarse q - 1) := step_add q (coarse q - 1) 1
  rw [sub_add_cancel] at hten
  have hone := one_le_step_coarse hleast hmost
  have hpow : (1 : ℚ) ≤ 10 ^ j := one_le_pow₀ (by norm_num)
  rw [step_add]
  nlinarith

/-- A decimal and a double, in units of `2^q`. -/
theorem value_eq_step (c : Nat) (q k : Int) : (c : ℚ) * 10 ^ k = c * step q k * 2 ^ q := by
  unfold step
  field_simp

theorem scaled_eq (n : Nat) (e q : Int) : (n : ℚ) * 2 ^ (e - q) * 2 ^ q = n * 2 ^ e := by
  rw [mul_assoc, ← zpow_add₀ (by norm_num), sub_add_cancel]

theorem abs_sub_le_of_scaled {v w : ℚ} (h : |w * 2 ^ q - v * 2 ^ q| ≤ 3 / 2 ^ 53 * (v * 2 ^ q)) :
    |w - v| ≤ 3 / 2 ^ 53 * v := by
  have hq : (0 : ℚ) < 2 ^ q := by positivity
  rw [← sub_mul, abs_mul, abs_of_pos hq] at h
  exact le_of_mul_le_mul_right (by linarith) hq

theorem faithful_regular {m : Nat} (hparts : IsParts m q) (hm : 0 < m)
    (hnot : -149 < q → m ≠ 2 ^ 23)
    (hexcept : q = -107 → m ≠ 11420669 ∧ m ≠ 11420670) : Faithful m q false := by
  obtain ⟨c, k, hshort, hrounds, hnear, hk, hk'⟩ :=
    shortest_spec hm hparts.high hparts.least hparts.most
  have hle := abs_le.1 hrounds.le
  have hmq : ((m + 1 : ℕ) : ℚ) ≤ 2 ^ 24 := by exact_mod_cast Nat.succ_le_of_lt hparts.high
  have hm1 : (1 : ℚ) ≤ m := by exact_mod_cast hm
  push_cast at hmq
  have hstep := tenth_le_step hparts.least hparts.most hk
  have hcpos : 0 < c := by
    rcases Nat.eq_zero_or_pos c with h0 | h0
    · rw [h0, Nat.cast_zero, zero_mul] at hle
      linarith [hle.1]
    · exact h0
  have hclt : c < 2 ^ 28 := by
    have : (c : ℚ) * (1 / 10) ≤ c * step q k := by gcongr
    have : (c : ℚ) < 2 ^ 28 := by linarith [hle.2]
    exact_mod_cast this
  have hleast : -45 ≤ k := by
    have := hparts.least
    unfold coarse at hk
    omega
  refine ⟨c, k, hshort, hcpos, hclt, hleast, hk', ?_⟩
  intro n e hlow hhigh herror hexact negative
  rw [value_eq_step c q k, ← scaled_eq n e q] at herror
  refine nearest_eq hlow hhigh hparts hnot ?_ negative
  refine roundsTo_of_near_shortest hm hparts.high hparts.least hparts.most hexcept hrounds hnear hk
    (abs_sub_le_of_scaled herror) ?_
  intro p hp hhalf hsmall
  have herr := hexact hsmall
  rw [value_eq_step c q k, ← hhalf] at herr
  have heq := eq_of_half_unit hlow hp herr
  rw [← scaled_eq n e q, hhalf] at heq
  exact mul_right_cancel₀ (by positivity) heq

/-- A decimal lies in the interval of `2^23 · 2^q`, by a margin. -/
def IsInner (q : Int) (d : Decimal) : Prop :=
  0 < d.digits ∧ d.digits < 2 ^ 28 ∧ -45 ≤ d.power ∧ d.power ≤ 39 ∧
    2 ^ 25 * (2 ^ 16 * stepDen q d.power) + stepDen q d.power <
      2 ^ 18 * (d.digits * stepNum q d.power) + 2 ^ 16 * stepDen q d.power ∧
    2 ^ 17 * (d.digits * stepNum q d.power) + stepDen q d.power <
      (2 ^ 24 + 1) * (2 ^ 16 * stepDen q d.power)

instance (q : Int) (d : Decimal) : Decidable (IsInner q d) := inferInstanceAs (Decidable (_ ∧ _))

theorem isInner_shortest (hleast : -149 < q) (hmost : q ≤ 104) :
    IsInner q (shortest (2 ^ 23) q true) := by
  have hall : ∀ i < 254, 0 < i →
      IsInner ((i : Nat) - 149) (shortest (2 ^ 23) ((i : Nat) - 149) true) := by decide +kernel
  obtain ⟨i, hi, rfl⟩ := exists_exponent hleast.le hmost
  exact hall i hi (by omega)

theorem IsInner.bounds {d : Decimal} (h : IsInner q d) :
    (2 : ℚ) ^ 23 - 1 / 4 + 1 / 2 ^ 18 < d.digits * step q d.power ∧
      d.digits * step q d.power < (2 : ℚ) ^ 23 + 1 / 2 - 1 / 2 ^ 17 := by
  obtain ⟨-, -, -, -, hleft, hright⟩ := h
  have hden : (0 : ℚ) < stepDen q d.power := by exact_mod_cast stepDen_pos q d.power
  have hleft : (2 : ℚ) ^ 25 * (2 ^ 16 * stepDen q d.power) + stepDen q d.power <
      2 ^ 18 * (d.digits * stepNum q d.power) + 2 ^ 16 * stepDen q d.power := by
    exact_mod_cast hleft
  have hright : (2 : ℚ) ^ 17 * (d.digits * stepNum q d.power) + stepDen q d.power <
      (2 ^ 24 + 1) * (2 ^ 16 * stepDen q d.power) := by exact_mod_cast hright
  have hnum : (stepNum q d.power : ℚ) = step q d.power * stepDen q d.power := by
    rw [step_eq_div, div_mul_cancel₀ _ hden.ne']
  rw [hnum] at hleft hright
  constructor
  · refine lt_of_mul_lt_mul_right ?_ hden.le
    linarith
  · refine lt_of_mul_lt_mul_right ?_ hden.le
    linarith

theorem faithful_two_pow (hleast : -149 < q) (hmost : q ≤ 104) : Faithful (2 ^ 23) q true := by
  have hinner := isInner_shortest hleast hmost
  obtain ⟨hleft, hright⟩ := hinner.bounds
  obtain ⟨hpos, hlt, hk, hk', -, -⟩ := hinner
  generalize hd : shortest (2 ^ 23) q true = d at *
  obtain ⟨c, k⟩ := d
  refine ⟨c, k, hd, hpos, hlt, hk, hk', ?_⟩
  intro n e hlow hhigh herror _ negative
  rw [value_eq_step c q k, ← scaled_eq n e q] at herror
  have hnear := abs_le.1 (abs_sub_le_of_scaled herror)
  exact nearest_eq_two_pow hlow hhigh hleast (by linarith) (by linarith) negative

end Decimal

/-! ## The digits of a numeral -/

namespace Numeral

variable {s : Nat} {ds : List Nat}

/-- The number that is written by more digits after `s`. -/
def append (s : Nat) (ds : List Nat) : Nat := ds.foldl (fun n d => n * 10 + d) s

theorem le_append (s : Nat) (ds : List Nat) : s ≤ append s ds := by
  induction ds generalizing s with
  | nil => exact le_rfl
  | cons d ds ih => exact le_trans (by omega) (ih (s * 10 + d))

theorem append_digitsOf (n : Nat) : append 0 (digitsOf n) = n := by
  rw [append, digitsOf, foldl_map]
  exact Json.Reader.digitsValue_toDigits n

theorem takeWhole_eq (h : append s ds < wordSize) : takeWhole s ds = (append s ds, 0) := by
  induction ds generalizing s with
  | nil => rfl
  | cons d ds ih =>
    have hle := le_append (s * 10 + d) ds
    have hlt : append (s * 10 + d) ds < wordSize := h
    rw [takeWhole, if_pos (by omega), ih hlt]
    rfl

theorem takeFraction_eq {n : Nat} (h : append s ds < wordSize) :
    takeFraction s n ds = (append s ds, n + ds.length) := by
  induction ds generalizing s n with
  | nil => rfl
  | cons d ds ih =>
    have hle := le_append (s * 10 + d) ds
    have hlt : append (s * 10 + d) ds < wordSize := h
    rw [takeFraction, if_pos (by omega), ih hlt, length_cons]
    exact Prod.ext rfl (by simp only; omega)

/-- A numeral of few digits is read from all of them. -/
theorem magnitude?_eq {n : Numeral} (h : append n.whole n.fraction < wordSize)
    (he : (n.exponent.getD 0).natAbs < 0x80000000) :
    n.magnitude? = scale? (UInt64.ofNat (append n.whole n.fraction)).toFloat
      (n.exponent.getD 0 - n.fraction.length) := by
  have hwhole : append 0 (digitsOf n.whole) < wordSize := by
    grind [append_digitsOf, le_append]
  unfold magnitude?
  rw [takeWhole_eq hwhole, append_digitsOf]
  simp only [takeFraction_eq h, if_neg (not_le.2 he)]
  congr 1
  push_cast
  ring

theorem append_append (s : Nat) (ds es : List Nat) :
    append s (ds ++ es) = append (append s ds) es :=
  foldl_append

theorem append_eq (s : Nat) (ds : List Nat) : append s ds = s * 10 ^ ds.length + append 0 ds := by
  induction ds generalizing s with
  | nil => simp [append]
  | cons d ds ih =>
    have hs : append s (d :: ds) = append (s * 10 + d) ds := rfl
    have h0 : append 0 (d :: ds) = append (0 * 10 + d) ds := rfl
    rw [hs, h0, ih, ih (0 * 10 + d), length_cons, pow_succ]
    ring

theorem append_replicate (n : Nat) : append 0 (List.replicate n 0) = 0 := by
  induction n with
  | zero => rfl
  | succ n ih => exact ih

theorem length_digitsOf_le {n k : Nat} (hk : 0 < k) (h : n < 10 ^ k) : (digitsOf n).length ≤ k := by
  rw [digitsOf, length_map]
  exact (Nat.length_toDigits_le_iff (by norm_num) hk).2 h

theorem lt_pow_length_digitsOf (n : Nat) : n < 10 ^ (digitsOf n).length := by
  rw [digitsOf, length_map]
  exact (Nat.length_toDigits_le_iff (by norm_num) Nat.length_toDigits_pos).1 le_rfl

theorem digitsOf_ne_nil (n : Nat) : digitsOf n ≠ [] := by
  rw [digitsOf, ne_eq, map_eq_nil_iff]
  exact Nat.toDigits_ne_nil

/-- The numeral is not an integer and is read as the double of `s · 10^e`. -/
structure ReadsAs (n : Numeral) (s : Nat) (e : Int) : Prop where
  toInt : n.toInt? = none
  magnitude : n.magnitude? = scale? (UInt64.ofNat s).toFloat e

theorem readsAs_of_digits {n : Numeral} {e : Int}
    (hdec : n.fraction ≠ [] ∨ n.exponent.isSome = true) (hs : append n.whole n.fraction = s)
    (hlt : s < 2 ^ 53) (hexp : (n.exponent.getD 0).natAbs < 0x80000000)
    (he : n.exponent.getD 0 - n.fraction.length = e) : ReadsAs n s e := by
  have hword : append n.whole n.fraction < wordSize := by
    rw [hs]
    exact lt_trans hlt (by decide)
  refine ⟨if_pos hdec, ?_⟩
  rw [magnitude?_eq hword hexp, hs, he]

section Layouts

variable {c j : Nat} {negative : Bool}

/-- Whole numbers are written out, with a zero after the point. -/
theorem readsAs_whole (h : c * 10 ^ j < 10 ^ 13) :
    ReadsAs ⟨negative, c * Nat.pow 10 j, [0], none⟩ (c * 10 ^ j * 10) (-1) :=
  readsAs_of_digits (.inl (by simp)) rfl (by omega) (by simp) rfl

/-- The digits after the point are padded with zeros in front. -/
theorem readsAs_fraction (hlt : c < 2 ^ 28) :
    ReadsAs ⟨negative, c / Nat.pow 10 (j + 1),
      List.replicate (j + 1 - (digitsOf (c % Nat.pow 10 (j + 1))).length) 0 ++
        digitsOf (c % Nat.pow 10 (j + 1)), none⟩ c (.negSucc j) := by
  have hrest : (digitsOf (c % Nat.pow 10 (j + 1))).length ≤ j + 1 :=
    length_digitsOf_le (by omega) (Nat.mod_lt _ (Nat.pow_pos (by norm_num)))
  have hsize : (List.replicate (j + 1 - (digitsOf (c % Nat.pow 10 (j + 1))).length) 0 ++
      digitsOf (c % Nat.pow 10 (j + 1))).length = j + 1 := by
    rw [length_append, length_replicate]
    omega
  refine readsAs_of_digits (.inl fun hnil => ?_) ?_ (by omega) (by simp) ?_
  · grind
  · rw [append_eq, hsize, append_append, append_replicate, append_digitsOf]
    exact Nat.div_add_mod' c (10 ^ (j + 1))
  · rw [hsize]
    simp only [Option.getD_none]
    omega

/-- One digit in front of the point, and the others after it. -/
theorem readsAs_scientific {k : Int} (hlt : c < 2 ^ 28) (hk : -45 ≤ k) (hk' : k ≤ 39) :
    ReadsAs ⟨negative, (digitsOf c).headD 0, (digitsOf c).tail,
      some (((digitsOf c).length : Int) - 1 + k)⟩ c k := by
  have hlen : (digitsOf c).length ≤ 9 := length_digitsOf_le (by norm_num) (by omega)
  have hvalue := append_digitsOf c
  obtain ⟨d, ds, hds⟩ := exists_cons_of_ne_nil (digitsOf_ne_nil c)
  grind [readsAs_of_digits, append]

/-- **A decimal of few digits is read from the digits it has**, in each of its layouts. A whole
number has one more digit, which is zero. -/
theorem ofDecimal_readsAs (negative : Bool) {k : Int} (hc : 0 < c) (hlt : c < 2 ^ 28)
    (hk : -45 ≤ k) (hk' : k ≤ 39) :
    ∃ s e, ReadsAs (ofDecimal Json.singleLayout negative ⟨c, k⟩) s e ∧ 0 < s ∧ s < 2 ^ 53 ∧
      -50 ≤ e ∧ e ≤ 50 ∧ (s : ℚ) * 10 ^ e = c * 10 ^ k ∧ (k.natAbs ≤ 22 → e.natAbs ≤ 22) := by
  have hlen : c < 10 ^ (digitsOf c).length := lt_pow_length_digitsOf c
  by_cases hpos :
      -6 ≤ ((digitsOf c).length : Int) - 1 + k ∧ ((digitsOf c).length : Int) - 1 + k ≤ 12
  · cases k with
    | ofNat j =>
      have hbig : c * 10 ^ j < 10 ^ 13 := by
        calc c * 10 ^ j < 10 ^ (digitsOf c).length * 10 ^ j := by gcongr
          _ = 10 ^ ((digitsOf c).length + j) := (pow_add 10 _ j).symm
          _ ≤ 10 ^ 13 := by
            refine Nat.pow_le_pow_right (by norm_num) ?_
            grind
      refine ⟨c * 10 ^ j * 10, -1, ?_, by positivity, by omega, by omega, by omega, ?_, by simp⟩
      · have heq : ofDecimal Json.singleLayout negative ⟨c, .ofNat j⟩ =
            ⟨negative, c * Nat.pow 10 j, [0], none⟩ := if_pos hpos
        rw [heq]
        exact readsAs_whole hbig
      · grind [zpow_natCast]
    | negSucc j =>
      refine ⟨c, .negSucc j, ?_, hc, by omega, by omega, by omega, rfl, fun h => h⟩
      have heq : ofDecimal Json.singleLayout negative ⟨c, .negSucc j⟩ =
          ⟨negative, c / Nat.pow 10 (j + 1),
            List.replicate (j + 1 - (digitsOf (c % Nat.pow 10 (j + 1))).length) 0 ++
              digitsOf (c % Nat.pow 10 (j + 1)), none⟩ := if_pos hpos
      rw [heq]
      exact readsAs_fraction hlt
  · refine ⟨c, k, ?_, hc, by omega, by omega, by omega, rfl, fun h => h⟩
    have heq : ofDecimal Json.singleLayout negative ⟨c, k⟩ = ⟨negative, (digitsOf c).headD 0,
        (digitsOf c).tail, some (((digitsOf c).length : Int) - 1 + k)⟩ := if_neg hpos
    rw [heq]
    exact readsAs_scientific hlt hk hk'

theorem ofDecimal_negative (layout : Layout) (negative : Bool) (d : Decimal) :
    (ofDecimal layout negative d).negative = negative := by
  unfold ofDecimal
  simp only
  split_ifs
  · cases d.power <;> rfl
  · rfl

end Layouts

end Numeral

/-! ## Every finite single -/

namespace Single

variable {x : Single}

variable (h : x.isFinite = true)

include h

/-- The interval of a number is short below exactly for the powers of two. -/
theorem narrow_iff :
    (x.fractionField == 0 && decide (1 < x.exponentField)) = true ↔
      x.significand = 2 ^ 23 ∧ -149 < x.power := by
  have hexp : x.exponentField < 255 := by simpa [isFinite] using h
  have hfrac : x.fractionField < 0x800000 := Nat.mod_lt _ (by norm_num)
  simp only [Bool.and_eq_true, beq_iff_eq, decide_eq_true_eq]
  unfold significand power
  split_ifs with h0 <;> omega

theorem significand_eq_zero_iff : x.significand = 0 ↔ x.isZero = true := by
  have hmag := magnitude_eq h
  have hparts := isParts h
  have hpos := hparts.normal
  have hleast := hparts.least
  simp only [isZero, beq_iff_eq]
  omega

/-- The significands at the power -107 whose shortest decimal is too close to a boundary for the
general bound: they are read by evaluation. -/
def IsClose (x : Single) : Prop :=
  x.power = -107 ∧ (x.significand = 11420669 ∨ x.significand = 11420670)

theorem toSingle?_ofSingle_of_close (hclose : x.IsClose) :
    (ofSingle Json.singleLayout x).toSingle? = some x := by
  have hall : ∀ negative : Bool, ∀ i < 2,
      (ofSingle Json.singleLayout
        (ofMagnitude negative (11420669 + i + 42 * 0x800000))).toSingle? =
        some (ofMagnitude negative (11420669 + i + 42 * 0x800000)) := by decide +kernel
  obtain ⟨hq, hm⟩ := hclose
  have heq := eq_ofMagnitude h
  rw [hq] at heq
  grind

theorem toSingle?_ofSingle_of_zero (hzero : x.isZero = true) :
    (ofSingle Json.singleLayout x).toSingle? = some x := by
  have hall : ∀ negative : Bool, (ofSingle Json.singleLayout
      (ofMagnitude negative 0)).toSingle? = some (ofMagnitude negative 0) := by decide +kernel
  have heq := eq_ofMagnitude h
  rw [magnitude_eq h, beq_iff_eq.1 hzero] at heq
  rw [heq]
  exact hall x.isNegative

theorem faithful (hzero : x.isZero = false) (hclose : ¬x.IsClose) :
    Decimal.Faithful x.significand x.power (x.fractionField == 0 && 1 < x.exponentField) := by
  have hparts := isParts h
  have hiff := narrow_iff h
  by_cases htwo : x.significand = 2 ^ 23 ∧ -149 < x.power
  · grind [Decimal.faithful_two_pow, IsParts.most]
  · have hnarrow : (x.fractionField == 0 && decide (1 < x.exponentField)) = false :=
      Bool.eq_false_iff.2 (mt hiff.1 htwo)
    rw [hnarrow]
    have hpos : 0 < x.significand := by grind [significand_eq_zero_iff]
    refine Decimal.faithful_regular hparts hpos (fun hq hm => htwo ⟨hm, hq⟩) (fun hq => ?_)
    exact ⟨fun hm => hclose ⟨hq, .inl hm⟩, fun hm => hclose ⟨hq, .inr hm⟩⟩

/-- **The shortest numeral of a finite single is read as that single.** -/
theorem toSingle?_ofSingle : (ofSingle Json.singleLayout x).toSingle? = some x := by
  by_cases hzero : x.isZero = true
  · exact toSingle?_ofSingle_of_zero h hzero
  by_cases hclose : x.IsClose
  · exact toSingle?_ofSingle_of_close h hclose
  have hzero : x.isZero = false := Bool.eq_false_iff.2 hzero
  obtain ⟨c, k, hshort, hc, hlt, hk, hk', hreads⟩ := faithful h hzero hclose
  obtain ⟨s, e, hread, hs, hs53, he, he', hval, hsmall⟩ :=
    ofDecimal_readsAs x.isNegative hc hlt hk hk'
  obtain ⟨f, n, d, hf, hholds, herror, hexact⟩ := Double.exists_scale hs hs53 he he'
  rw [hval] at herror hexact
  have hnear := hreads n d hholds.low hholds.high herror (fun hk => hexact (hsmall hk))
  have hnum : ofSingle Json.singleLayout x =
      ofDecimal Json.singleLayout x.isNegative ⟨c, k⟩ := by
    rw [ofSingle, hzero, Single.shortest, hshort]
    rfl
  have hsign : ofFloat (if x.isNegative then -f else f) = nearest x.isNegative n d := by
    cases x.isNegative with
    | false =>
      rw [if_neg Bool.false_ne_true, ofFloat_eq hholds]
      congr 1
    | true =>
      rw [if_pos rfl, ofFloat_eq hholds.neg]
      congr 1
  rw [hnum, toSingle?, hread.toInt, hread.magnitude, hf, ofDecimal_negative]
  calc some (ofFloat (if x.isNegative then -f else f))
      = some (nearest x.isNegative n d) := congrArg some hsign
    _ = some x := by rw [hnear, ← eq_ofMagnitude h]

end Single

end CanvasFusion
