import CanvasFusion.Eval.Scalar
import Mathlib.Tactic

/-!
# Exact scalars

The laws of arithmetic that putting a batch onto a canvas relies on: a gap cell is zero, and a zero
adds nothing to a sum of products. Floating-point numbers keep most of them, but not all: zero times
infinity is not zero.

The rationals keep all of them. `Exact` is their arithmetic with everything left open that rationals
do not determine: the sigmoid, the hyperbolic tangent apart from its zero, exponentials, division by
zero, and what the bit patterns of infinities and of no number stand for.
-/

namespace CanvasFusion

open Single Scalar

/-- Scalars in which a zero behaves like one. -/
class LawfulScalar (α : Type) [Scalar α] : Prop where
  add_zero : ∀ a : α, add a zero = a
  sub_zero : ∀ a : α, sub a zero = a
  mul_zero : ∀ a : α, Scalar.mul a Scalar.zero = Scalar.zero
  zero_mul : ∀ a : α, Scalar.mul Scalar.zero a = Scalar.zero
  mul_one : ∀ a : α, mul a one = a
  max_self : ∀ a : α, max a a = a
  min_self : ∀ a : α, min a a = a
  ofSingle_zero : ∀ s : Single, s.isZero = true → (Scalar.ofSingle s : α) = Scalar.zero
  activate_zero : ∀ f : Activation, f.preservesZero = true →
    Scalar.activate f (Scalar.zero : α) = Scalar.zero

/-- What the rationals do not determine. -/
structure Transcendental where
  sigmoid : ℚ → ℚ
  tanh : ℚ → ℚ
  tanh_zero : tanh 0 = 0
  exp : ℚ → ℚ
  /-- The quotient of a number by zero. -/
  overZero : ℚ → ℚ
  /-- What a pattern stands for that is no finite number. -/
  ofNonFinite : Single → ℚ

instance : Inhabited Transcendental := ⟨⟨id, id, rfl, id, id, fun _ => 0⟩⟩

/-- The number a finite pattern stands for. -/
def Single.toRat (s : Single) : ℚ :=
  (if s.isNegative then -1 else 1) * (s.significand : ℚ) * (2 : ℚ) ^ s.power

/-- A rational number, with the given functions for what rationals do not determine. -/
@[ext] structure Exact (T : Transcendental) where
  val : ℚ
  deriving DecidableEq

namespace Exact

variable {T : Transcendental}

/-- What a pattern stands for. -/
def patternValue (T : Transcendental) (s : Single) : ℚ :=
  if s.isFinite then s.toRat else T.ofNonFinite s

def activation (T : Transcendental) : Activation → ℚ → ℚ
  | .relu, x => max x 0
  | .relu6, x => if x < 0 then 0 else if 6 < x then 6 else x
  | .sigmoid, x => T.sigmoid x
  | .tanh, x => T.tanh x
  | .leakyRelu alpha, x => if 0 < x then x else patternValue T alpha * x

instance : Scalar (Exact T) where
  ofSingle s := ⟨patternValue T s⟩
  ofCount n := ⟨n⟩
  add a b := ⟨a.val + b.val⟩
  sub a b := ⟨a.val - b.val⟩
  mul a b := ⟨a.val * b.val⟩
  div a b := ⟨if b.val = 0 then T.overZero a.val else a.val / b.val⟩
  max a b := ⟨max a.val b.val⟩
  min a b := ⟨min a.val b.val⟩
  exp a := ⟨T.exp a.val⟩
  activate f a := ⟨activation T f a.val⟩

theorem patternValue_of_isZero {s : Single} (h : s.isZero = true) : patternValue T s = 0 := by
  have hmod : s.bits.toNat % 0x80000000 = 0 := by simpa [isZero] using h
  have hexp : s.exponentField = 0 := by
    unfold exponentField
    omega
  have hfrac : s.fractionField = 0 := by
    unfold fractionField
    omega
  have hfinite : s.isFinite = true := by simp [isFinite, hexp]
  have hsig : s.significand = 0 := by rw [significand, if_pos hexp, hfrac]
  rw [patternValue, if_pos hfinite, toRat, hsig]
  simp

@[simp] theorem zero_val : (zero : Exact T).val = 0 :=
  patternValue_of_isZero (T := T) (s := .zero) (by decide)

@[simp] theorem one_val : (one : Exact T).val = 1 := by
  have hsig : one.significand = 0x800000 := by decide
  have hpower : one.power = -23 := by decide
  have hsign : one.isNegative = false := by decide
  change patternValue T one = 1
  rw [patternValue, if_pos (by decide), toRat, hsig, hpower, hsign]
  norm_num

instance : LawfulScalar (Exact T) where
  add_zero a := Exact.ext (by simp [Scalar.add])
  sub_zero a := Exact.ext (by simp [Scalar.sub])
  mul_zero a := Exact.ext (by simp [Scalar.mul])
  zero_mul a := Exact.ext (by simp [Scalar.mul])
  mul_one a := Exact.ext (by simp [mul])
  max_self a := Exact.ext (by simp [Scalar.max])
  min_self a := Exact.ext (by simp [Scalar.min])
  ofSingle_zero s hs := Exact.ext (by rw [zero_val]; exact patternValue_of_isZero hs)
  activate_zero f hf := by
    refine Exact.ext ?_
    change activation T f (zero : Exact T).val = _
    rw [zero_val]
    cases f with
    | relu => simp [activation]
    | relu6 => simp [activation]
    | sigmoid => cases hf
    | tanh => exact T.tanh_zero
    | leakyRelu alpha => simp [activation]

end Exact

end CanvasFusion
