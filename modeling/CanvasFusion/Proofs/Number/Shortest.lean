import Mathlib.Tactic
import CanvasFusion.Number.Shortest

/-!
# The shortest decimal of a number

A number `m · 2^q` owns the interval of numbers that round to it. Measured in units of `2^q` these
are the numbers that round to the integer `m` (`RoundsTo`), and the points of the decimal grid
`10^k` are the multiples of `step q k`.

`shortest_spec` is about numbers whose neighbours are equally far away. The others are the powers of
two.
-/

namespace CanvasFusion

/-! ## Rounding to an integer -/

variable {w : ℚ}

/-- The integer nearest to a number, a half to the even one. -/
def RoundsTo (w : ℚ) (m : Nat) : Prop := |w - m| < 1 / 2 ∨ m % 2 = 0 ∧ |w - m| = 1 / 2

theorem abs_sub_lt_half {m : ℚ} : |w - m| < 1 / 2 ↔ m - 1 / 2 < w ∧ w < m + 1 / 2 := by
  grind

theorem abs_sub_eq_half {m : ℚ} : |w - m| = 1 / 2 ↔ w = m - 1 / 2 ∨ w = m + 1 / 2 := by
  grind

theorem RoundsTo.le {m : Nat} (h : RoundsTo w m) : |w - m| ≤ 1 / 2 :=
  h.elim le_of_lt fun h => h.2.le

theorem half_le_of_not_roundsTo {m : Nat} (h : ¬ RoundsTo w m) : 1 / 2 ≤ |w - m| :=
  not_lt.1 fun hlt => h (.inl hlt)

namespace Decimal

/-! ## Grids -/

variable {m c : Nat} {q k : Int}

/-- The distance of neighbours on the grid `10^k`, in units of `2^q`. -/
def step (q k : Int) : ℚ := 10 ^ k / 2 ^ q

theorem zpow_eq_div (c : ℚ) (k : Int) : c ^ k = c ^ k.toNat / c ^ (-k).toNat := by
  cases k with
  | ofNat n => simp
  | negSucc n => simp [zpow_negSucc, Int.neg_negSucc]

/-- The common factor that makes the quantities of the grid integers. -/
def scaleOf (q k : Int) : Nat := Nat.pow 2 (q - 2).toNat * Nat.pow 10 (-k).toNat

/-- A step of the grid, with the factor. -/
def unitOf (q k : Int) : Nat := Nat.pow 2 (2 - q).toNat * Nat.pow 10 k.toNat

theorem scaleOf_pos (q k : Int) : 0 < scaleOf q k := by
  unfold scaleOf
  simp only [Nat.pow_eq]
  positivity

theorem cast_unitOf (q k : Int) : (unitOf q k : ℚ) = 4 * step q k * scaleOf q k := by
  have htwo : (4 : ℚ) / 2 ^ q = 2 ^ (2 - q).toNat / 2 ^ (q - 2).toNat := by
    have hneg : (-(2 - q)).toNat = (q - 2).toNat := by rw [Int.neg_sub]
    rw [← hneg, ← zpow_eq_div, zpow_sub₀ (by norm_num)]
    norm_num
  have hstep : 4 * step q k = 4 / 2 ^ q * 10 ^ k := by
    unfold step
    ring
  rw [hstep, htwo, zpow_eq_div 10 k]
  unfold unitOf scaleOf
  simp only [Nat.pow_eq]
  push_cast
  field_simp

/-- Whether a point of the grid lies in the interval of `m · 2^q`. -/
def isInside (m : Nat) (q k : Int) (c : Nat) : Bool :=
  ((4 * m - 2) * scaleOf q k < c * unitOf q k ||
      (m % 2 == 0 && (4 * m - 2) * scaleOf q k == c * unitOf q k)) &&
    (c * unitOf q k < (4 * m + 2) * scaleOf q k ||
      (m % 2 == 0 && c * unitOf q k == (4 * m + 2) * scaleOf q k))

theorem isInside_iff (hm : 0 < m) : isInside m q k c = true ↔ RoundsTo (c * step q k) m := by
  have hS : (0 : ℚ) < scaleOf q k := by exact_mod_cast scaleOf_pos q k
  have hpoint : ((c * unitOf q k : ℕ) : ℚ) = 4 * (c * step q k) * scaleOf q k := by
    rw [Nat.cast_mul, cast_unitOf]
    ring
  have hlow : (((4 * m - 2) * scaleOf q k : ℕ) : ℚ) = 4 * (m - 1 / 2) * scaleOf q k := by
    grind [Nat.cast_sub]
  have hhigh : (((4 * m + 2) * scaleOf q k : ℕ) : ℚ) = 4 * (m + 1 / 2) * scaleOf q k := by
    push_cast
    ring
  have key : ∀ {x y : ℚ}, 4 * x * scaleOf q k < 4 * y * scaleOf q k ↔ x < y := by
    grind [mul_lt_mul_iff_left₀]
  have key' : ∀ {x y : ℚ}, 4 * x * scaleOf q k = 4 * y * scaleOf q k ↔ x = y := by grind
  have h₁ : (4 * m - 2) * scaleOf q k < c * unitOf q k ↔ (m : ℚ) - 1 / 2 < c * step q k := by
    rw [← Nat.cast_lt (α := ℚ), hpoint, hlow, key]
  have h₂ : c * unitOf q k < (4 * m + 2) * scaleOf q k ↔ c * step q k < m + 1 / 2 := by
    rw [← Nat.cast_lt (α := ℚ), hpoint, hhigh, key]
  have h₃ : (4 * m - 2) * scaleOf q k = c * unitOf q k ↔ (m : ℚ) - 1 / 2 = c * step q k := by
    rw [← Nat.cast_inj (R := ℚ), hpoint, hlow, key']
  have h₄ : c * unitOf q k = (4 * m + 2) * scaleOf q k ↔ c * step q k = m + 1 / 2 := by
    rw [← Nat.cast_inj (R := ℚ), hpoint, hhigh, key']
  unfold isInside RoundsTo
  rw [abs_sub_lt_half, abs_sub_eq_half]
  simp only [Bool.and_eq_true, Bool.or_eq_true, decide_eq_true_eq, beq_iff_eq, h₁, h₂, h₃, h₄]
  constructor
  · grind
  · grind

theorem half_le_of_outside (hm : 0 < m) (h : isInside m q k c = false) :
    1 / 2 ≤ |c * step q k - m| :=
  half_le_of_not_roundsTo fun hin => by
    grind [isInside_iff]

/-- The point of the grid below the number. -/
def pointBelow (m : Nat) (q k : Int) : Nat := 4 * m * scaleOf q k / unitOf q k

section Neighbours

variable (m q k)

theorem onGrid?_eq : onGrid? m q false k =
    match isInside m q k (pointBelow m q k), isInside m q k (pointBelow m q k + 1) with
    | false, false => none
    | true, false => some (pointBelow m q k)
    | false, true => some (pointBelow m q k + 1)
    | true, true =>
      if 4 * m * scaleOf q k - pointBelow m q k * unitOf q k <
          (pointBelow m q k + 1) * unitOf q k - 4 * m * scaleOf q k then some (pointBelow m q k)
      else if (pointBelow m q k + 1) * unitOf q k - 4 * m * scaleOf q k <
          4 * m * scaleOf q k - pointBelow m q k * unitOf q k then some (pointBelow m q k + 1)
      else some (pointBelow m q k + pointBelow m q k % 2) := rfl

theorem unitOf_pos : 0 < unitOf q k := by
  unfold unitOf
  simp only [Nat.pow_eq]
  positivity

/-- The distances to the two neighbours on the grid, with the common factor. -/
theorem cast_down :
    ((4 * m * scaleOf q k - pointBelow m q k * unitOf q k : ℕ) : ℚ) =
      4 * (m - pointBelow m q k * step q k) * scaleOf q k := by
  grind [pointBelow, Nat.div_mul_le_self, Nat.cast_sub, cast_unitOf]

theorem cast_up :
    (((pointBelow m q k + 1) * unitOf q k - 4 * m * scaleOf q k : ℕ) : ℚ) =
      4 * ((pointBelow m q k + 1 : ℕ) * step q k - m) * scaleOf q k := by
  have hlt : 4 * m * scaleOf q k < (pointBelow m q k + 1) * unitOf q k := by
    rw [Nat.mul_comm (pointBelow m q k + 1)]
    exact Nat.lt_mul_div_succ _ (unitOf_pos q k)
  grind [Nat.cast_sub, cast_unitOf]

theorem pointBelow_le : (pointBelow m q k : ℚ) * step q k ≤ m := by
  have hS : (0 : ℚ) < scaleOf q k := by exact_mod_cast scaleOf_pos q k
  have hdown : (0 : ℚ) ≤ 4 * (m - pointBelow m q k * step q k) * scaleOf q k := by
    rw [← cast_down]
    exact Nat.cast_nonneg _
  have := nonneg_of_mul_nonneg_left hdown hS
  linarith

theorem le_pointAbove : (m : ℚ) ≤ (pointBelow m q k + 1 : ℕ) * step q k := by
  have hS : (0 : ℚ) < scaleOf q k := by exact_mod_cast scaleOf_pos q k
  have hup : (0 : ℚ) ≤ 4 * ((pointBelow m q k + 1 : ℕ) * step q k - m) * scaleOf q k := by
    rw [← cast_up]
    exact Nat.cast_nonneg _
  have := nonneg_of_mul_nonneg_left hup hS
  linarith

end Neighbours

theorem four_mul_lt_iff {x y : ℚ} : 4 * x * scaleOf q k < 4 * y * scaleOf q k ↔ x < y := by
  have hS : (0 : ℚ) < scaleOf q k := by exact_mod_cast scaleOf_pos q k
  rw [mul_lt_mul_iff_left₀ hS, mul_lt_mul_iff_right₀ (by norm_num)]

theorem down_lt_up_iff : 4 * m * scaleOf q k - pointBelow m q k * unitOf q k <
    (pointBelow m q k + 1) * unitOf q k - 4 * m * scaleOf q k ↔
      m - pointBelow m q k * step q k < (pointBelow m q k + 1 : ℕ) * step q k - m := by
  rw [← Nat.cast_lt (α := ℚ), cast_down, cast_up, four_mul_lt_iff]

theorem up_lt_down_iff : (pointBelow m q k + 1) * unitOf q k - 4 * m * scaleOf q k <
    4 * m * scaleOf q k - pointBelow m q k * unitOf q k ↔
      (pointBelow m q k + 1 : ℕ) * step q k - m < m - pointBelow m q k * step q k := by
  rw [← Nat.cast_lt (α := ℚ), cast_down, cast_up, four_mul_lt_iff]

/-- The grid gives the point nearest to the number, if that lies in the interval. -/
theorem onGrid?_eq_some {c : Nat} (hm : 0 < m) (h : onGrid? m q false k = some c) :
    RoundsTo (c * step q k) m ∧ |c * step q k - m| ≤ step q k / 2 := by
  have hbelow := pointBelow_le m q k
  have habove := le_pointAbove m q k
  have hdown : |(pointBelow m q k : ℚ) * step q k - m| = m - pointBelow m q k * step q k := by
    rw [abs_of_nonpos (by linarith), neg_sub]
  have hup : |((pointBelow m q k + 1 : ℕ) : ℚ) * step q k - m| =
      (pointBelow m q k + 1 : ℕ) * step q k - m := abs_of_nonneg (by linarith)
  have hsum : ((pointBelow m q k + 1 : ℕ) : ℚ) * step q k =
      pointBelow m q k * step q k + step q k := by
    push_cast
    ring
  rw [onGrid?_eq] at h
  cases hb : isInside m q k (pointBelow m q k) <;>
    cases ha : isInside m q k (pointBelow m q k + 1) <;> simp only [hb, ha] at h
  · cases h
  · cases h
    grind [isInside_iff, half_le_of_outside, RoundsTo.le]
  · cases h
    have hin := (isInside_iff hm).1 hb
    have hout := half_le_of_outside hm ha
    grind [RoundsTo.le]
  · have hinb := (isInside_iff hm).1 hb
    have hina := (isInside_iff hm).1 ha
    simp only [down_lt_up_iff, up_lt_down_iff] at h
    split_ifs at h with hlt hgt
    · grind
    · cases h
      grind
    · -- Both are equally far away.
      cases h
      rcases Nat.mod_two_eq_zero_or_one (pointBelow m q k) with hbit | hbit <;> rw [hbit]
      · grind
      · refine ⟨hina, ?_⟩
        rw [hup]
        linarith

/-- A grid finer than the interval has a point in it. -/
theorem onGrid?_isSome (hm : 0 < m) (hstep : step q k < 1) :
    (onGrid? m q false k).isSome = true := by
  have hbelow := pointBelow_le m q k
  have habove := le_pointAbove m q k
  have hsum : ((pointBelow m q k + 1 : ℕ) : ℚ) * step q k =
      pointBelow m q k * step q k + step q k := by
    push_cast
    ring
  rw [onGrid?_eq]
  cases hb : isInside m q k (pointBelow m q k) <;>
    cases ha : isInside m q k (pointBelow m q k + 1) <;> simp only
  · have hb := half_le_of_outside hm hb
    have ha := half_le_of_outside hm ha
    grind
  · rfl
  · rfl
  · split_ifs <;> rfl

/-! ## The search -/

/-- The search stops on the first grid with a point in the interval. -/
theorem search_spec {k₁ : Int} (h : (onGrid? m q false k₁).isSome = true) {n : Nat} (hle : k₁ ≤ k)
    (hlt : k < k₁ + n) :
    ∃ c k', search m q false n k = ⟨c, k'⟩ ∧ onGrid? m q false k' = some c ∧ k₁ ≤ k' ∧ k' ≤ k := by
  induction n generalizing k with
  | zero => omega
  | succ n ih =>
    unfold search
    cases hc : onGrid? m q false k with
    | some c => exact ⟨c, k, rfl, hc, hle, le_rfl⟩
    | none =>
      have hne : k₁ ≠ k := by grind
      obtain ⟨c, k', hsearch, hgrid, hleast, hmost⟩ := ih (k := k - 1) (by omega) (by omega)
      grind

/-! ## The grid that is found -/

/-- The least power of ten that is not below `2^q`, for the exponents of singles. -/
def coarse (q : Int) : Int := -((-q * 30103) / 100000)

/-- A step as a fraction. -/
def stepNum (q k : Int) : Nat := 10 ^ k.toNat * 2 ^ (-q).toNat

def stepDen (q k : Int) : Nat := 10 ^ (-k).toNat * 2 ^ q.toNat

theorem stepDen_pos (q k : Int) : 0 < stepDen q k := by
  unfold stepDen
  positivity

theorem step_eq_div (q k : Int) : step q k = stepNum q k / stepDen q k := by
  unfold step stepNum stepDen
  grind [zpow_eq_div]

/-- The power below the coarse one is less than `2^q` by a margin. -/
def IsCoarse (q k : Int) : Prop :=
  stepDen q k ≤ stepNum q k ∧
    2 ^ 20 * stepNum q (k - 1) + stepDen q (k - 1) ≤ 2 ^ 20 * stepDen q (k - 1)

instance (q k : Int) : Decidable (IsCoarse q k) := inferInstanceAs (Decidable (_ ∧ _))

/-- The exponents of singles, counted from the least one. -/
theorem exists_exponent (hleast : -149 ≤ q) (hmost : q ≤ 104) :
    ∃ i < 254, ((i : Nat) : Int) - 149 = q := ⟨(q + 149).toNat, by omega, by omega⟩

theorem isCoarse_coarse (hleast : -149 ≤ q) (hmost : q ≤ 104) : IsCoarse q (coarse q) := by
  have hall : ∀ i < 254, IsCoarse ((i : Nat) - 149) (coarse ((i : Nat) - 149)) := by decide +kernel
  grind [exists_exponent]

theorem one_le_step_coarse (hleast : -149 ≤ q) (hmost : q ≤ 104) : 1 ≤ step q (coarse q) := by
  have hpos : (0 : ℚ) < stepDen q (coarse q) := by exact_mod_cast stepDen_pos q (coarse q)
  rw [step_eq_div, le_div_iff₀ hpos, one_mul]
  exact_mod_cast (isCoarse_coarse hleast hmost).1

theorem step_pred_coarse_le (hleast : -149 ≤ q) (hmost : q ≤ 104) :
    step q (coarse q - 1) ≤ 1 - 1 / 2 ^ 20 := by
  have hpos : (0 : ℚ) < stepDen q (coarse q - 1) := by exact_mod_cast stepDen_pos q (coarse q - 1)
  rw [step_eq_div, div_le_iff₀ hpos]
  have hle : (2 : ℚ) ^ 20 * stepNum q (coarse q - 1) + stepDen q (coarse q - 1) ≤
      2 ^ 20 * stepDen q (coarse q - 1) := by exact_mod_cast (isCoarse_coarse hleast hmost).2
  linarith

/-- **The shortest decimal of a number lies in its interval.** It is the point of its grid that is
nearest to the number, and the grid is hardly finer than the interval. -/
theorem shortest_spec (hm : 0 < m) (hm' : m < 2 ^ 24) (hleast : -149 ≤ q) (hmost : q ≤ 104) :
    ∃ c k, shortest m q false = ⟨c, k⟩ ∧ RoundsTo (c * step q k) m ∧
      |c * step q k - m| ≤ step q k / 2 ∧ coarse q - 1 ≤ k ∧ k ≤ 39 := by
  have hlog : m.log2 < 24 := (Nat.log2_lt hm.ne').2 hm'
  have hsome : (onGrid? m q false (coarse q - 1)).isSome = true :=
    onGrid?_isSome hm (lt_of_le_of_lt (step_pred_coarse_le hleast hmost) (by norm_num))
  have hstart : Int.fdiv ((m.log2 + q + 1) * 30103) 100000 = (m.log2 + q + 1) * 30103 / 100000 :=
    Int.fdiv_eq_ediv_of_nonneg _ (by norm_num)
  obtain ⟨c, k, hsearch, hgrid, hk, hk'⟩ := search_spec hsome (n := 20)
    (k := Int.fdiv ((m.log2 + q + 1) * 30103) 100000 + 1)
    (by rw [hstart]; unfold coarse; omega) (by rw [hstart]; unfold coarse; omega)
  obtain ⟨hrounds, hnear⟩ := onGrid?_eq_some hm hgrid
  refine ⟨c, k, hsearch, hrounds, hnear, hk, ?_⟩
  rw [hstart] at hk'
  omega

end Decimal

end CanvasFusion
