/-!
# Pairs over the two spatial dimensions

Windows, tile grids and gaps live in a plane. `Dim` names its two dimensions and `Pair` holds one
thing for each of them.
-/

namespace CanvasFusion

inductive Dim where
  | first
  | second
  deriving DecidableEq, Repr, Inhabited

namespace Dim

def all : List Dim := [.first, .second]

def toNat : Dim → Nat
  | .first => 0
  | .second => 1

end Dim

structure Pair (α : Type) where
  first : α
  second : α
  deriving DecidableEq, Repr, Inhabited

namespace Pair

variable {α β γ : Type}

def get (p : Pair α) : Dim → α
  | .first => p.first
  | .second => p.second

/-- The pair holding `f d` for each dimension `d`. -/
def ofFn (f : Dim → α) : Pair α := ⟨f .first, f .second⟩

def both (a : α) : Pair α := ⟨a, a⟩

def map (f : α → β) (p : Pair α) : Pair β := ⟨f p.first, f p.second⟩

def zipWith (f : α → β → γ) (p : Pair α) (q : Pair β) : Pair γ :=
  ⟨f p.first q.first, f p.second q.second⟩

/-- Run `f` on the first dimension, then on the second. -/
def ofFnM {m : Type → Type} [Monad m] (f : Dim → m α) : m (Pair α) := do
  let a ← f .first
  let b ← f .second
  pure ⟨a, b⟩

def toList (p : Pair α) : List α := [p.first, p.second]

def find? [DecidableEq α] (p : Pair α) (a : α) : Option Dim :=
  if p.first = a then some .first else if p.second = a then some .second else none

theorem ext_get {p q : Pair α} (h : ∀ d, p.get d = q.get d) : p = q := by
  obtain ⟨a, b⟩ := p
  obtain ⟨a', b'⟩ := q
  have h₁ : a = a' := h .first
  have h₂ : b = b' := h .second
  rw [h₁, h₂]

@[simp] theorem get_first (p : Pair α) : p.get .first = p.first := rfl

@[simp] theorem get_second (p : Pair α) : p.get .second = p.second := rfl

@[simp] theorem ofFn_get (f : Dim → α) (d : Dim) : (ofFn f).get d = f d := by cases d <;> rfl

@[simp] theorem both_get (a : α) (d : Dim) : (both a).get d = a := by cases d <;> rfl

end Pair

end CanvasFusion
