import CanvasFusion.Proofs.Number.Shortest

/-!
# How near a decimal can be to the end of an interval

The ends of the interval of `m · 2^q` are half-integers in units of `2^q`. A decimal with few digits
that is not an end could still be so near to one that an error of a few parts in `2^53` moves it
across.

Let `10^k` be the least power of ten that is not below `2^q`. A multiple of it is near an end if a
fraction with a numerator below `2^25` is near `2 · 10^k / 2^q`. For each `q` the fractions around
that number are found from its continued fraction, and `Brackets` checks that they are neighbours
among the fractions with such numerators and that they are apart from the number. A search over all
fractions becomes a check of three.

**Theorem (spaced_step).** A half-integer below `2^24` is a multiple of `10^k`, or apart from every
one by more than three parts in `2^53`. One half-integer is an exception.

**Theorem (roundsTo_of_near_shortest).** What is as near to a shortest decimal lies in the interval
as well.
-/

namespace CanvasFusion

/-! ## Fractions with bounded numerators -/

/-- A numerator and a denominator. -/
abbrev Fraction := Nat × Nat

namespace Fraction

variable {f g : Fraction}

/-- There is no fraction between the two with a numerator up to `bound`. -/
def Neighbours (bound : Nat) (f g : Fraction) : Prop :=
  g.1 * f.2 = f.1 * g.2 + 1 ∧ bound < f.1 + g.1

instance (bound : Nat) (f g : Fraction) : Decidable (Neighbours bound f g) :=
  inferInstanceAs (Decidable (_ ∧ _))

theorem Neighbours.not_between {bound p r : Nat} (h : Neighbours bound f g) (hp : p ≤ bound) :
    p * f.2 ≤ f.1 * r ∨ g.1 * r ≤ p * g.2 := by
  obtain ⟨hdet, hbound⟩ := h
  by_contra hno
  simp only [not_or, not_le] at hno
  obtain ⟨hf, hg⟩ := hno
  zify at *
  -- A fraction in between is a sum of the two, and each is taken at least once.
  have hsum : (p : ℤ) = g.1 * (p * f.2 - f.1 * r) + f.1 * (g.1 * r - p * g.2) := by
    linear_combination (-(p : ℤ)) * hdet
  nlinarith

/-- Below `x / y` by more than three parts in `2^53`. -/
def Below (x y : Nat) (f : Fraction) : Prop :=
  2 ^ 53 * (f.1 * y) + 3 * (x * f.2) < 2 ^ 53 * (x * f.2)

/-- Above `x / y` by more than three parts in `2^53`. -/
def Above (x y : Nat) (f : Fraction) : Prop :=
  2 ^ 53 * (x * f.2) + 3 * (x * f.2) < 2 ^ 53 * (f.1 * y)

instance (x y : Nat) (f : Fraction) : Decidable (Below x y f) := Nat.decLt _ _

instance (x y : Nat) (f : Fraction) : Decidable (Above x y f) := Nat.decLt _ _

theorem Below.of_le {x y : Nat} (h : Below x y f) (hg : 0 < g.2) (hle : g.1 * f.2 ≤ f.1 * g.2) :
    Below x y g := by
  unfold Below at *
  have hf : 0 < f.2 := by grind
  refine Nat.lt_of_mul_lt_mul_right (a := f.2) ?_
  nlinarith [Nat.mul_le_mul_right y hle, Nat.mul_lt_mul_of_pos_right h hg]

theorem Above.of_le {x y : Nat} (h : Above x y f) (hg : 0 < g.2) (hle : f.1 * g.2 ≤ g.1 * f.2) :
    Above x y g := by
  unfold Above at *
  have hf : 0 < f.2 := by
    rcases Nat.eq_zero_or_pos f.2 with h0 | h0
    · rw [h0, Nat.mul_zero, Nat.le_zero, Nat.mul_eq_zero] at hle
      grind
    · exact h0
  refine Nat.lt_of_mul_lt_mul_right (a := f.2) ?_
  nlinarith [Nat.mul_le_mul_right y hle, Nat.mul_lt_mul_of_pos_right h hg]

end Fraction

/-! ## Continued fractions -/

open Fraction

/-- The neighbours of the convergent `g` among the fractions with numerators up to `bound`, around
`g` itself. The convergent before it is `f`. -/
def around (bound : Nat) (f g : Fraction) : Fraction × Fraction × Fraction :=
  let i := (bound - f.1) / g.1
  let j := (bound + f.1) / g.1
  let near : Fraction := (f.1 + i * g.1, f.2 + i * g.2)
  let far : Fraction := (j * g.1 - f.1, j * g.2 - f.2)
  if near.1 * g.2 < g.1 * near.2 then (near, g, far) else (far, g, near)

/-- The last convergent of `x / y` with a numerator up to `bound`, and its neighbours. -/
def approximate (bound : Nat) :
    Nat → Fraction → Fraction → Nat → Nat → Fraction × Fraction × Fraction
  | 0, f, g, _, _ => around bound f g
  | steps + 1, f, g, x, y =>
    if y = 0 ∨ bound < x / y * g.1 + f.1 then around bound f g
    else approximate bound steps g (x / y * g.1 + f.1, x / y * g.2 + f.2) y (x % y)

namespace Decimal

variable {q : Int} {p r m : Nat} {w : ℚ}

/-- Three fractions around `2 · step q (coarse q)`. -/
def bracket (q : Int) : Fraction × Fraction × Fraction :=
  approximate (2 ^ 25) 100 (0, 1) (1, 0) (2 * stepNum q (coarse q)) (stepDen q (coarse q))

/-- The outer fractions are apart from `2 · step q (coarse q)`. The one in the middle is apart from
it or equal to it, with one exception. -/
def Brackets (q : Int) (low mid high : Fraction) : Prop :=
  let x := 2 * stepNum q (coarse q)
  let y := stepDen q (coarse q)
  Neighbours (2 ^ 25) low mid ∧ Neighbours (2 ^ 25) mid high ∧ Below x y low ∧ Above x y high ∧
    (mid.1 * y = x * mid.2 ∧ -12 ≤ coarse q ∧ coarse q ≤ 12 ∨ Below x y mid ∨ Above x y mid ∨
      q = -107 ∧ mid = (22841339, 7038531))

instance (q : Int) (low mid high : Fraction) : Decidable (Brackets q low mid high) :=
  inferInstanceAs (Decidable (_ ∧ _))

theorem brackets_bracket (hleast : -149 ≤ q) (hmost : q ≤ 104) :
    Brackets q (bracket q).1 (bracket q).2.1 (bracket q).2.2 := by
  have hall : ∀ i < 254, Brackets ((i : Nat) - 149) (bracket ((i : Nat) - 149)).1
      (bracket ((i : Nat) - 149)).2.1 (bracket ((i : Nat) - 149)).2.2 := by decide +kernel
  grind [exists_exponent]

theorem eq_of_mul_eq_mul (hp : p ≤ 2 ^ 25) (hr : 0 < r) (h : p * 7038531 = 22841339 * r) :
    p = 22841339 := by
  grind

/-- A fraction with a numerator up to `2^25` is `2 · step q (coarse q)`, or apart from it. -/
theorem spaced (hleast : -149 ≤ q) (hmost : q ≤ 104) (hp : p ≤ 2 ^ 25) (hr : 0 < r)
    (hexcept : q = -107 → p ≠ 22841339) :
    p * stepDen q (coarse q) = 2 * stepNum q (coarse q) * r ∧ -12 ≤ coarse q ∧ coarse q ≤ 12 ∨
      Below (2 * stepNum q (coarse q)) (stepDen q (coarse q)) (p, r) ∨
      Above (2 * stepNum q (coarse q)) (stepDen q (coarse q)) (p, r) := by
  obtain ⟨hlow, hhigh, hbelow, habove, hmid⟩ := brackets_bracket hleast hmost
  generalize (bracket q).1 = low at hlow hbelow
  generalize (bracket q).2.1 = mid at hlow hhigh hmid
  generalize (bracket q).2.2 = high at hhigh habove
  rcases hlow.not_between (r := r) hp with h | hge
  · exact .inr (.inl (hbelow.of_le hr h))
  rcases hhigh.not_between (r := r) hp with hle | h
  swap
  · exact .inr (.inr (habove.of_le hr h))
  have heq : p * mid.2 = mid.1 * r := le_antisymm hle hge
  have hmidpos : 0 < mid.2 := by
    rcases Nat.eq_zero_or_pos mid.2 with h0 | h0
    · have hdet := hhigh.1
      rw [h0] at hdet
      omega
    · exact h0
  rcases hmid with ⟨hmid, hc⟩ | hmid | hmid | ⟨rfl, rfl⟩
  · refine .inl ⟨Nat.eq_of_mul_eq_mul_right hmidpos ?_, hc⟩
    calc p * stepDen q (coarse q) * mid.2 = p * mid.2 * stepDen q (coarse q) := by ring
      _ = mid.1 * stepDen q (coarse q) * r := by rw [heq]; ring
      _ = 2 * stepNum q (coarse q) * r * mid.2 := by rw [hmid]; ring
  · exact .inr (.inl (hmid.of_le hr heq.le))
  · exact .inr (.inr (hmid.of_le hr heq.ge))
  · exact absurd (eq_of_mul_eq_mul hp hr heq) (hexcept rfl)

/-- The same, in units of `2^q`: a half-integer is a point of the grid, or apart from it. -/
theorem spaced_step (hleast : -149 ≤ q) (hmost : q ≤ 104) (hp : p ≤ 2 ^ 25) (hr : 0 < r)
    (hexcept : q = -107 → p ≠ 22841339) :
    (p : ℚ) / 2 = r * step q (coarse q) ∧ -12 ≤ coarse q ∧ coarse q ≤ 12 ∨
      (p : ℚ) / 2 < r * step q (coarse q) * (1 - 3 / 2 ^ 53) ∨
      r * step q (coarse q) * (1 + 3 / 2 ^ 53) < (p : ℚ) / 2 := by
  have hy : (0 : ℚ) < stepDen q (coarse q) := by exact_mod_cast stepDen_pos q (coarse q)
  have hstep : step q (coarse q) * stepDen q (coarse q) = stepNum q (coarse q) := by
    rw [step_eq_div, div_mul_cancel₀ _ hy.ne']
  rcases spaced hleast hmost hp hr hexcept with ⟨h, hc⟩ | h | h
  · refine .inl ⟨?_, hc⟩
    have hq : (p : ℚ) * stepDen q (coarse q) = 2 * stepNum q (coarse q) * r := by exact_mod_cast h
    grind [step]
  · refine .inr (.inl ?_)
    have hq : (2 : ℚ) ^ 53 * (p * stepDen q (coarse q)) + 3 * (2 * stepNum q (coarse q) * r) <
        2 ^ 53 * (2 * stepNum q (coarse q) * r) := by exact_mod_cast h
    rw [← hstep] at hq
    refine lt_of_mul_lt_mul_right ?_ hy.le
    linarith
  · refine .inr (.inr ?_)
    have hq : (2 : ℚ) ^ 53 * (2 * stepNum q (coarse q) * r) + 3 * (2 * stepNum q (coarse q) * r) <
        2 ^ 53 * (p * stepDen q (coarse q)) := by exact_mod_cast h
    rw [← hstep] at hq
    refine lt_of_mul_lt_mul_right ?_ hy.le
    linarith

/-! ## Numbers near a shortest decimal -/

theorem step_add (q k : Int) (n : Nat) : step q (k + n) = 10 ^ n * step q k := by
  unfold step
  rw [zpow_add₀ (by norm_num), zpow_natCast]
  ring

/-- On a coarse grid, what is near a point in the interval is in the interval: either no end of the
interval is near the point, or the point is an end. -/
theorem roundsTo_of_near_coarse {c n : Nat} (hm : 0 < m) (hm' : m < 2 ^ 24) (hleast : -149 ≤ q)
    (hmost : q ≤ 104) (hexcept : q = -107 → m ≠ 11420669 ∧ m ≠ 11420670) {v : ℚ}
    (hv : v = (c * 10 ^ n : ℕ) * step q (coarse q)) (hrounds : RoundsTo v m)
    (hw : |w - v| ≤ 3 / 2 ^ 53 * v)
    (hexact : ∀ p : Nat, p < 2 ^ 25 → (p : ℚ) / 2 = v → (coarse q + n).natAbs ≤ 22 → w = v) :
    RoundsTo w m := by
  have hvm := abs_le.1 hrounds.le
  have hstep := one_le_step_coarse hleast hmost
  have hmq : (1 : ℚ) ≤ m := by exact_mod_cast hm
  have hpos : 0 < c * 10 ^ n := by
    rcases Nat.eq_zero_or_pos (c * 10 ^ n) with h0 | h0
    · rw [h0, Nat.cast_zero, zero_mul] at hv
      linarith [hvm.1]
    · exact h0
  have hsmall : ∀ p : Nat, p < 2 ^ 25 → (p : ℚ) / 2 = v → -12 ≤ coarse q ∧ coarse q ≤ 12 →
      w = v := by
    intro p hp hpv hc
    refine hexact p hp hpv ?_
    have hpow : 10 ^ n < 10 ^ 8 := by
      have hle : ((10 ^ n : ℕ) : ℚ) ≤ v := by
        rw [hv]
        have hc1 : 10 ^ n ≤ c * 10 ^ n := Nat.le_mul_of_pos_left _ (Nat.pos_of_mul_pos_right hpos)
        have : ((10 ^ n : ℕ) : ℚ) ≤ (c * 10 ^ n : ℕ) := by exact_mod_cast hc1
        nlinarith
      have hlt : (p : ℚ) < 2 ^ 25 := by exact_mod_cast hp
      have : ((10 ^ n : ℕ) : ℚ) < 10 ^ 8 := by linarith
      exact_mod_cast this
    have hn : n < 8 := (Nat.pow_lt_pow_iff_right (by norm_num)).1 hpow
    omega
  have hw' := abs_le.1 hw
  have hupper := spaced_step hleast hmost (p := 2 * m + 1) (by omega) hpos (by omega)
  have hlower := spaced_step hleast hmost (p := 2 * m - 1) (by omega) hpos (by omega)
  have hupper_half : ((2 * m + 1 : ℕ) : ℚ) / 2 = m + 1 / 2 := by
    push_cast
    ring
  have hlower_half : ((2 * m - 1 : ℕ) : ℚ) / 2 = m - 1 / 2 := by grind [Nat.cast_sub]
  rw [← hv] at hupper hlower
  rcases hupper with ⟨hp, hc⟩ | hu | hu
  · rwa [hsmall _ (by omega) hp hc]
  · linarith [hvm.2]
  rcases hlower with ⟨hp, hc⟩ | hl | hl
  · rwa [hsmall _ (by omega) hp hc]
  · exact .inl (abs_sub_lt_half.2 ⟨by linarith, by linarith⟩)
  · linarith [hvm.1]

/-- On a grid finer than the interval, the nearest point is far from the ends. -/
theorem roundsTo_of_near_fine {g v : ℚ} (hm : m < 2 ^ 24) (hg : g ≤ 1 - 1 / 2 ^ 20)
    (hnear : |v - m| ≤ g / 2) (hw : |w - v| ≤ 3 / 2 ^ 53 * v) : RoundsTo w m := by
  have hmq : (m : ℚ) < 2 ^ 24 := by exact_mod_cast hm
  rw [abs_le] at hnear hw
  exact .inl (abs_sub_lt_half.2 ⟨by linarith, by linarith⟩)

/-- **What is near the shortest decimal of a number lies in the interval of the number.** If the
decimal is an end of the interval it has to be met exactly. -/
theorem roundsTo_of_near_shortest {c : Nat} {k : Int} (hm : 0 < m) (hm' : m < 2 ^ 24)
    (hleast : -149 ≤ q)
    (hmost : q ≤ 104) (hexcept : q = -107 → m ≠ 11420669 ∧ m ≠ 11420670)
    (hrounds : RoundsTo (c * step q k) m)
    (hnear : |c * step q k - m| ≤ step q k / 2) (hk : coarse q - 1 ≤ k)
    (hw : |w - c * step q k| ≤ 3 / 2 ^ 53 * (c * step q k))
    (hexact : ∀ p : Nat, p < 2 ^ 25 → (p : ℚ) / 2 = c * step q k → k.natAbs ≤ 22 →
      w = c * step q k) :
    RoundsTo w m := by
  by_cases hfine : k = coarse q - 1
  · subst hfine
    exact roundsTo_of_near_fine hm' (step_pred_coarse_le hleast hmost) hnear hw
  · obtain ⟨n, rfl⟩ : ∃ n : Nat, k = coarse q + n := ⟨(k - coarse q).toNat, by omega⟩
    refine roundsTo_of_near_coarse (c := c) hm hm' hleast hmost hexcept ?_ hrounds hw hexact
    rw [step_add]
    push_cast
    ring

end Decimal

end CanvasFusion
