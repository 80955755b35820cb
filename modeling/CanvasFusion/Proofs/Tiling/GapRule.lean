import CanvasFusion.Proofs.Peak

/-!
# The algebra of gap rules

In plain arithmetic and for windows that fit, the three functions of a gap rule always have an
answer: `admitted`, `after` and `before`. `admitted` is a closure operator on gaps. On admitted gaps
`before` undoes `after`, and `after` undoes `before` on every gap an admitted one can lead to. These
are the only facts about rules that gap inference rests on.
-/

namespace CanvasFusion

open GapRule Size Limit

/-- The smallest multiple of `b` at or above `a`. -/
def roundUp (a b : Nat) : Nat := (if a % b = 0 then a / b else a / b + 1) * b

theorem dvd_roundUp (a b : Nat) : b ∣ roundUp a b := Dvd.intro_left _ rfl

theorem le_roundUp {a b : Nat} (hb : 0 < b) : a ≤ roundUp a b := by
  have h := Nat.div_add_mod a b
  have hlt := Nat.mod_lt a hb
  grind [roundUp, Nat.add_mul]

theorem roundUp_le {a b m : Nat} (hm : b ∣ m) (h : a ≤ m) : roundUp a b ≤ m := by
  obtain ⟨k, rfl⟩ := hm
  unfold roundUp
  rw [Nat.mul_comm b k]
  refine Nat.mul_le_mul_right b ?_
  split_ifs with h0
  · exact Nat.div_le_of_le_mul h
  · have hdiv := Nat.div_add_mod a b
    have hlt : a / b < k := by
      by_contra hk
      have hge : b * k ≤ b * (a / b) := Nat.mul_le_mul_left b (Nat.le_of_not_lt hk)
      omega
    omega

namespace Window

/-- The cells from the first to the last position of the kernel. -/
def span (w : Window) : Nat := (w.kernel - 1) * w.dilation + 1

/-- How far the last window of a tile reaches past the end of the tile. -/
def overhang (w : Window) : Nat := (w.output - 1) * w.stride + w.span - (w.pad.front + w.input)

/-- The smallest gap that keeps every window inside its own tile and gap, before alignment. -/
def least (w : Window) : Nat := max (max w.pad.front w.overhang) (w.output * w.stride - w.input)

/-- A window that fits its input and gives its output. -/
structure Valid (w : Window) : Prop where
  kernel_pos : 0 < w.kernel
  stride_pos : 0 < w.stride
  dilation_pos : 0 < w.dilation
  fits : w.span ≤ w.input + w.pad.front + w.pad.back
  output_eq : w.output = (w.input + w.pad.front + w.pad.back - w.span) / w.stride + 1

variable {w : Window}

theorem Valid.output_pos (hw : w.Valid) : 0 < w.output := by
  rw [hw.output_eq]
  exact Nat.succ_pos _

theorem effectiveKernel_ok (hw : w.Valid) : w.effectiveKernel .unbounded = .ok w.span := by
  have h : 1 ≤ w.kernel := hw.kernel_pos
  simp only [effectiveKernel, sub, h, if_true, bind_ok, mul_unbounded,
    add_unbounded]
  rfl

theorem backReach_ok (hw : w.Valid) : w.backReach .unbounded = .ok w.overhang := by
  have h : 1 ≤ w.output := hw.output_pos
  simp only [backReach, sub, h, if_true, bind_ok, mul_unbounded,
    add_unbounded, effectiveKernel_ok hw]
  rfl

theorem minGap_ok (hw : w.Valid) : w.minGap .unbounded = .ok w.least := by
  simp only [minGap, bind_ok, mul_unbounded, backReach_ok hw]
  rfl

theorem align_ok (hw : w.Valid) (g : Nat) :
    w.align .unbounded g = .ok (roundUp (w.input + g) w.stride - w.input) := by
  have hs : w.stride ≠ 0 := Nat.pos_iff_ne_zero.1 hw.stride_pos
  have hle : w.input ≤ roundUp (w.input + g) w.stride :=
    Nat.le_trans (Nat.le_add_right _ _) (le_roundUp hw.stride_pos)
  unfold roundUp at hle
  simp only [align, add_unbounded, bind_ok, divCeil, hs, if_false,
    mul_unbounded, sub, hle, if_true]
  rfl

end Window

namespace GapRule

/-- The rule comes from an operator that fits its input. -/
def Valid : GapRule → Prop
  | .window w => w.Valid
  | _ => True

/-- The smallest usable input gap at or above a gap. -/
def admitted : GapRule → Nat → Nat
  | .identity, g => g
  | .window w, g => roundUp (w.input + max g w.least) w.stride - w.input
  | .pad total, g => max g total

/-- The output gap of an input gap. -/
def after : GapRule → Nat → Nat
  | .identity, g => g
  | .window w, g => (w.input + g) / w.stride - w.output
  | .pad total, g => g - total

/-- The input gap for an output gap. -/
def before : GapRule → Nat → Nat
  | .identity, g => g
  | .window w, g => (w.output + g) * w.stride - w.input
  | .pad total, g => g + total

variable {r : GapRule} {g g' : Nat} {w : Window}

theorem admissible_ok (hr : r.Valid) (g : Nat) :
    r.admissible .unbounded g = .ok (r.admitted g) := by
  cases r with
  | identity | pad total => rfl
  | window w =>
    simp only [admissible, Window.admissible, Window.minGap_ok hr, bind_ok, Window.align_ok hr]
    rfl

theorem forward_ok (hr : r.Valid) (g : Nat) : r.forward .unbounded g = .ok (r.after g) := by
  cases r with
  | identity | pad total => rfl
  | window w =>
    have hs : w.stride ≠ 0 := Nat.pos_iff_ne_zero.1 (Window.Valid.stride_pos hr)
    simp only [forward, Window.forward, add_unbounded, bind_ok, div, hs, if_false]
    rfl

theorem backward_ok (r : GapRule) (g : Nat) : r.backward .unbounded g = .ok (r.before g) := by
  cases r <;> rfl

/-! ## Windows -/

/-- Tile and gap together, at an admitted gap. -/
theorem pitch_admitted (hw : w.Valid) (g : Nat) :
    w.input + (window w).admitted g = roundUp (w.input + max g w.least) w.stride :=
  Nat.add_sub_of_le (Nat.le_trans (Nat.le_add_right _ _) (le_roundUp hw.stride_pos))

/-- An admitted gap of a window: tile and gap are a whole number of strides, and every window stays
inside. -/
theorem window_admitted_iff (hw : w.Valid) :
    (window w).admitted g = g ↔ w.stride ∣ w.input + g ∧ w.least ≤ g := by
  have hp := pitch_admitted hw g
  have hle := le_roundUp (a := w.input + max g w.least) hw.stride_pos
  constructor
  · grind [dvd_roundUp]
  · rintro ⟨hdvd, hleast⟩
    have hmax : max g w.least = g := Nat.max_eq_left hleast
    rw [hmax] at hp hle
    have hge := roundUp_le hdvd (Nat.le_refl _)
    omega

/-- The output tiles of an admitted gap fit into its pitch. -/
theorem covered_le (hleast : w.least ≤ g) : w.output * w.stride ≤ w.input + g := by
  have h : w.output * w.stride - w.input ≤ w.least := Nat.le_max_right _ _
  omega

/-! ## Laws -/

theorem le_admitted (hr : r.Valid) (g : Nat) : g ≤ r.admitted g := by
  cases r with
  | identity => exact Nat.le_refl g
  | pad total => exact Nat.le_max_left g total
  | window w =>
    have hp := pitch_admitted hr g
    have hle := le_roundUp (a := w.input + max g w.least) (Window.Valid.stride_pos hr)
    grind

theorem admitted_mono (hr : r.Valid) (h : g ≤ g') : r.admitted g ≤ r.admitted g' := by
  cases r with
  | identity => exact h
  | pad total => exact max_le_max h (Nat.le_refl total)
  | window w =>
    have hs := Window.Valid.stride_pos hr
    have hmax : max g w.least ≤ max g' w.least := max_le_max h (Nat.le_refl _)
    have hround : roundUp (w.input + max g w.least) w.stride ≤
        roundUp (w.input + max g' w.least) w.stride :=
      roundUp_le (dvd_roundUp _ _)
        (Nat.le_trans (Nat.add_le_add_left hmax _) (le_roundUp hs))
    exact Nat.sub_le_sub_right hround _

theorem admitted_idem (hr : r.Valid) (g : Nat) : r.admitted (r.admitted g) = r.admitted g := by
  cases r with
  | identity => rfl
  | pad total => exact Nat.max_eq_left (Nat.le_max_right _ _)
  | window w =>
    have hs := Window.Valid.stride_pos hr
    refine (window_admitted_iff hr).2 ⟨?_, ?_⟩
    · rw [pitch_admitted hr]
      exact dvd_roundUp _ _
    · have hp := pitch_admitted hr g
      grind [le_roundUp]

theorem after_mono (r : GapRule) (h : g ≤ g') : r.after g ≤ r.after g' := by
  cases r with
  | identity => exact h
  | pad total => exact Nat.sub_le_sub_right h total
  | window w => exact Nat.sub_le_sub_right (Nat.div_le_div_right (Nat.add_le_add_left h _)) _

theorem before_mono (r : GapRule) (h : g ≤ g') : r.before g ≤ r.before g' := by
  cases r with
  | identity => exact h
  | pad total => exact Nat.add_le_add_right h total
  | window w => exact Nat.sub_le_sub_right (Nat.mul_le_mul_right _ (Nat.add_le_add_left h _)) _

/-- The input gap for the output gap of an admitted gap is that gap. -/
theorem before_after (hr : r.Valid) (h : r.admitted g = g) : r.before (r.after g) = g := by
  cases r with
  | identity => rfl
  | pad total =>
    have hle : total ≤ g := by
      rw [← h]
      exact Nat.le_max_right _ _
    exact Nat.sub_add_cancel hle
  | window w =>
    obtain ⟨⟨k, hk⟩, hleast⟩ := (window_admitted_iff hr).1 h
    have hs := Window.Valid.stride_pos hr
    have hcov := covered_le hleast
    have hout : w.output ≤ k := by
      rw [hk, Nat.mul_comm] at hcov
      exact Nat.le_of_mul_le_mul_left hcov hs
    have hafter : (window w).after g = k - w.output := by
      change (w.input + g) / w.stride - w.output = _
      rw [hk, Nat.mul_div_cancel_left k hs]
    change (w.output + (window w).after g) * w.stride - w.input = g
    grind

/-- What an output gap within reach needs before it, is at least the smallest admitted gap. -/
theorem window_before (hw : w.Valid) (h : (window w).after ((window w).admitted 0) ≤ g) :
    w.input + (window w).before g = (w.output + g) * w.stride ∧
      w.least ≤ (window w).before g := by
  have hs := hw.stride_pos
  obtain ⟨⟨k, hk⟩, hleast⟩ := (window_admitted_iff hw).1 (admitted_idem (r := .window w) hw 0)
  have hafter : (window w).after ((window w).admitted 0) = k - w.output := by
    change (w.input + (window w).admitted 0) / w.stride - w.output = _
    rw [hk, Nat.mul_div_cancel_left k hs]
  have hkg : k ≤ w.output + g := by omega
  have hpitch : w.stride * k ≤ (w.output + g) * w.stride := by
    rw [Nat.mul_comm]
    exact Nat.mul_le_mul_right _ hkg
  grind [before]

/-- An output gap within reach is the output gap of what it needs before it. -/
theorem after_before (hr : r.Valid) (h : r.after (r.admitted 0) ≤ g) :
    r.after (r.before g) = g := by
  cases r with
  | identity => rfl
  | pad total => exact Nat.add_sub_cancel g total
  | window w =>
    have hs := Window.Valid.stride_pos hr
    obtain ⟨hsum, -⟩ := window_before hr h
    change (w.input + (window w).before g) / w.stride - w.output = g
    rw [hsum, Nat.mul_div_cancel _ hs, Nat.add_sub_cancel_left]

/-- What an output gap within reach needs before it is admitted. -/
theorem admitted_before (hr : r.Valid) (h : r.after (r.admitted 0) ≤ g) :
    r.admitted (r.before g) = r.before g := by
  cases r with
  | identity => rfl
  | pad total => exact Nat.max_eq_left (Nat.le_add_left _ _)
  | window w =>
    obtain ⟨hsum, hleast⟩ := window_before hr h
    exact (window_admitted_iff hr).2 ⟨hsum ▸ Dvd.intro_left _ rfl, hleast⟩

end GapRule

end CanvasFusion
