/-!
# Sizes and the limits they are computed under

Extents, strides, gaps and positions are natural numbers. A machine holds only so large a number,
and a computation that leaves its range has no answer: it stops with a `Fault`. `Limit` says how
far the range reaches. `Limit.unbounded` is plain arithmetic; `Limit.word64` is what the program
runs under.

Every operation on sizes that can fail is one of the few below, so a statement about plain
arithmetic and a statement about 64-bit words are about the same definitions, at two limits.
-/

namespace CanvasFusion

inductive Fault where
  | overflow
  | underflow
  | zeroDivisor
  | outOfRange
  | capacity
  | outOfSteps
  deriving DecidableEq, Repr, Inhabited

/-- How far sizes, memory and handles reach; `none` is no limit. -/
structure Limit where
  size : Option Nat
  /-- The largest number of bytes in one buffer. -/
  memory : Option Nat
  /-- The largest index a handle can carry. -/
  handle : Option Nat
  deriving DecidableEq, Repr

def Limit.within (bound : Option Nat) (n : Nat) : Bool :=
  match bound with
  | none => true
  | some b => n ≤ b

namespace Limit

def unbounded : Limit := ⟨none, none, none⟩

/-- Sizes of 64 bits, buffers of at most half the address space, handles of 32 bits. -/
def word64 : Limit :=
  ⟨some 0xffffffffffffffff, some 0x7fffffffffffffff, some 0xffffffff⟩

variable (lim : Limit)

def check (n : Nat) : Except Fault Nat :=
  if within lim.size n then .ok n else .error .overflow

def add (a b : Nat) : Except Fault Nat := lim.check (a + b)

def mul (a b : Nat) : Except Fault Nat := lim.check (a * b)

/-- The product of a list, multiplied up from one, left to right. A zero late in the list does not
save a product that has already left the range. -/
def product (ns : List Nat) : Except Fault Nat := ns.foldlM lim.mul 1

def sum (ns : List Nat) : Except Fault Nat := ns.foldlM lim.add 0

def room (count width : Nat) : Except Fault Unit :=
  if within lim.memory (count * width) then .ok () else .error .capacity

@[simp] theorem within_none (n : Nat) : within none n = true := rfl

@[simp] theorem within_some (b n : Nat) : within (some b) n = decide (n ≤ b) := rfl

@[simp] theorem check_unbounded (n : Nat) : unbounded.check n = .ok n := rfl

@[simp] theorem add_unbounded (a b : Nat) : unbounded.add a b = .ok (a + b) := rfl

@[simp] theorem mul_unbounded (a b : Nat) : unbounded.mul a b = .ok (a * b) := rfl

@[simp] theorem room_unbounded (c w : Nat) : unbounded.room c w = .ok () := rfl

end Limit

namespace Size

/-- `a - b`, which has to be a natural number. -/
def sub (a b : Nat) : Except Fault Nat :=
  if b ≤ a then .ok (a - b) else .error .underflow

def div (a b : Nat) : Except Fault Nat :=
  if b = 0 then .error .zeroDivisor else .ok (a / b)

def mod (a b : Nat) : Except Fault Nat :=
  if b = 0 then .error .zeroDivisor else .ok (a % b)

def divCeil (a b : Nat) : Except Fault Nat :=
  if b = 0 then .error .zeroDivisor else .ok (if a % b = 0 then a / b else a / b + 1)

/-- The entry of a list at a position that has to be there. -/
def entry {α : Type} (xs : List α) (i : Nat) : Except Fault α :=
  match xs[i]? with
  | some x => .ok x
  | none => .error .outOfRange

/-- The list with the entry at `i` replaced; `i` has to be a position of the list. -/
def replace {α : Type} (xs : List α) (i : Nat) (x : α) : Except Fault (List α) :=
  if i < xs.length then .ok (xs.set i x) else .error .outOfRange

end Size

end CanvasFusion
