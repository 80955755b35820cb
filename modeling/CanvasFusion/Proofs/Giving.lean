import CanvasFusion.Proofs.Peak

/-!
# What a check can give

A check that depends on a limit may fail where plain arithmetic succeeds, but where it succeeds it
*conforms*: it gives what plain arithmetic gives. So it is enough to know the one answer that it
gives in plain arithmetic, and where it is sure to give it (`Gives`).
-/

namespace CanvasFusion

section Conforms

variable {ε α β : Type} {x y : Limit → Except ε α} {f : Limit → α → Except ε β}

/-- What the computation gives at some limit, it gives in plain arithmetic. -/
def Conforms (x : Limit → Except ε α) : Prop :=
  ∀ lim a, x lim = .ok a → x .unbounded = .ok a

theorem HasPeak.conforms {stop : ε} (hx : HasPeak stop x) : Conforms x :=
  fun _ _ h => hx.ok_unbounded h

namespace Conforms

theorem const (x : Except ε α) : Conforms fun _ => x := fun _ _ h => h

theorem bind (hx : Conforms x)
    (hf : ∀ a, Conforms fun lim => f lim a) : Conforms fun lim => x lim >>= f lim := by
  intro lim b h
  obtain ⟨a, ha, hb⟩ := bind_eq_ok.1 h
  exact bind_eq_ok.2 ⟨a, hx lim a ha, hf a lim b hb⟩

theorem ite {c : Prop} [Decidable c] (hx : Conforms x)
    (hy : Conforms y) : Conforms fun lim => if c then x lim else y lim := by
  by_cases hc : c
  · simpa [hc] using hx
  · simpa [hc] using hy

theorem mapM (hf : ∀ a, Conforms fun lim => f lim a) (xs : List α) :
    Conforms fun lim => xs.mapM (f lim) := by
  intro lim ys h
  exact mapM_eq_ok_iff.2 ((mapM_eq_ok_iff.1 h).imp fun a y => hf a lim y)

end Conforms

theorem conforms_room (count width : Nat) : Conforms fun lim => lim.room count width := by
  intro lim a h
  rfl

end Conforms

/-- Checks that all succeed succeed together. -/
theorem exists_mapM {ε α β : Type} {f : α → Except ε β} {xs : List α}
    (h : ∀ x ∈ xs, ∃ y, f x = .ok y) : ∃ ys, xs.mapM f = .ok ys := by
  induction xs with
  | nil => exact ⟨[], rfl⟩
  | cons x xs ih =>
    obtain ⟨y, hy⟩ := h x List.mem_cons_self
    obtain ⟨ys, hys⟩ := ih fun z hz => h z (List.mem_cons_of_mem x hz)
    exact ⟨y :: ys, by rw [List.mapM_cons, hy, bind_ok, hys]; rfl⟩

/-- The check can give nothing but `a`, and does so where `P` is true. -/
structure Gives {ε α : Type} (P : Prop) (x : Except ε α) (a : α) : Prop where
  eq : ∀ {b}, x = .ok b → b = a
  ok : P → x = .ok a

namespace Gives

variable {ε α : Type} {P : Prop} {a : α} {lim : Limit}

theorem of_ok {x : Except ε α} (h : x = .ok a) : Gives P x a where
  eq hb := Except.ok.inj (hb.symm.trans h)
  ok _ := h

/-- What a computation gives in plain arithmetic, it gives at any limit if it gives anything. -/
theorem of_conforms {x : Limit → Except ε α} (hx : Conforms x)
    (h : Gives P (x .unbounded) a) (hlim : P → lim = .unbounded) : Gives P (x lim) a where
  eq hb := h.eq (hx lim _ hb)
  ok hp := by
    rw [hlim hp]
    exact h.ok hp

/-- A pair of computations that feel the limit. -/
theorem ofFnM {stop : ε} {f : Limit → Dim → Except ε α} {p : Pair α}
    (hf : ∀ d, HasPeak stop fun lim => f lim d) (h : ∀ d, f .unbounded d = .ok (p.get d))
    (hlim : P → lim = .unbounded) : Gives P (Pair.ofFnM (f lim)) p :=
  .of_conforms (x := fun lim => Pair.ofFnM (f lim)) (HasPeak.ofFnM hf).conforms
    (.of_ok (ofFnM_eq_ok.2 h)) hlim

end Gives

end CanvasFusion
