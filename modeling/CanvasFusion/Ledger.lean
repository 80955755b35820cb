/-!
# Ledgers

A ledger records one value for each of a few keys. Looking a key up gives the value last recorded
under it. The entries are kept in the order in which their keys were first recorded.
-/

namespace CanvasFusion

structure Ledger (κ ν : Type) where
  entries : List (κ × ν)
  deriving Repr

namespace Ledger

variable {κ ν : Type} [DecidableEq κ]

def empty : Ledger κ ν := ⟨[]⟩

instance : Inhabited (Ledger κ ν) := ⟨empty⟩

def lookup (k : κ) : List (κ × ν) → Option ν
  | [] => none
  | (k', v) :: rest => if k' = k then some v else lookup k rest

def get? (l : Ledger κ ν) (k : κ) : Option ν := lookup k l.entries

def contains (l : Ledger κ ν) (k : κ) : Bool := (l.get? k).isSome

/-- Replace the entry of a key, or add one at the end. -/
def put (k : κ) (v : ν) : List (κ × ν) → List (κ × ν)
  | [] => [(k, v)]
  | (k', v') :: rest => if k' = k then (k, v) :: rest else (k', v') :: put k v rest

def record (l : Ledger κ ν) (k : κ) (v : ν) : Ledger κ ν := ⟨put k v l.entries⟩

@[simp] theorem get?_empty (k : κ) : (empty : Ledger κ ν).get? k = none := rfl

theorem lookup_put (k k' : κ) (v : ν) (es : List (κ × ν)) :
    lookup k' (put k v es) = if k = k' then some v else lookup k' es := by
  induction es with
  | nil => simp [put, lookup]
  | cons e rest ih =>
    obtain ⟨k₀, v₀⟩ := e
    by_cases h : k₀ = k
    · subst h
      by_cases h' : k₀ = k' <;> simp [put, lookup, h']
    · by_cases h' : k₀ = k'
      · subst h'
        have hne : ¬ k = k₀ := fun e => h e.symm
        simp [put, lookup, h, hne]
      · simp [put, lookup, h, h', ih]

/-- A recorded value is found again, and no other key is affected. -/
@[simp] theorem get?_record (l : Ledger κ ν) (k k' : κ) (v : ν) :
    (l.record k v).get? k' = if k = k' then some v else l.get? k' :=
  lookup_put k k' v l.entries

end Ledger

end CanvasFusion
