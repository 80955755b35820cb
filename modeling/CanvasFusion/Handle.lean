import CanvasFusion.Limit

/-!
# Handles and the tables they address

Tensors and operations are stored in arrays and named by small integers. A handle carries the name
of its table in its type, so a handle of one table cannot address another, and it prints with that
name.
-/

namespace CanvasFusion

structure Handle (name : String) where
  index : Nat
  deriving DecidableEq, Repr, Inhabited

namespace Handle

variable {name : String}

/-- The handle of a position, which has to be one a handle can carry. -/
def ofIndex (lim : Limit) (i : Nat) : Except Fault (Handle name) :=
  if Limit.within lim.handle i then .ok ⟨i⟩ else .error .overflow

/-- A handle with its table's name, as in `TensorId(3)`. -/
def describe (h : Handle name) : String := s!"{name}({h.index})"

/-- A handle on its own, as in `%3`. -/
def label (h : Handle name) : String := s!"%{h.index}"

end Handle

abbrev TensorId := Handle "TensorId"

abbrev OpId := Handle "OpId"

/-- Entries addressed by the handles of one name, in the order they were added. -/
structure Table (name : String) (α : Type) where
  items : Array α
  deriving DecidableEq, Repr

namespace Table

variable {name : String} {α : Type}

def empty : Table name α := ⟨#[]⟩

instance : Inhabited (Table name α) := ⟨empty⟩

/-- An empty table with room for `count` entries of `width` bytes. -/
def withRoom (lim : Limit) (count width : Nat) : Except Fault (Table name α) := do
  lim.room count width
  pure empty

def ofList (xs : List α) : Table name α := ⟨xs.toArray⟩

def toList (t : Table name α) : List α := t.items.toList

def size (t : Table name α) : Nat := t.items.size

def next (t : Table name α) : Handle name := ⟨t.size⟩

/-- Add an entry at the end. Its handle is `t.next`. -/
def push (t : Table name α) (a : α) : Table name α := ⟨t.items.push a⟩

def get? (t : Table name α) (h : Handle name) : Option α := t.items[h.index]?

def contains (t : Table name α) (h : Handle name) : Bool := h.index < t.size

def get (t : Table name α) (h : Handle name) : Except Fault α :=
  match t.get? h with
  | some a => .ok a
  | none => .error .outOfRange

/-- Change the entry of a handle; a handle of no entry changes nothing. -/
def modify (t : Table name α) (h : Handle name) (f : α → α) : Table name α :=
  ⟨t.items.modify h.index f⟩

def handles (t : Table name α) : List (Handle name) := (List.range t.size).map Handle.mk

def entries (t : Table name α) : List (Handle name × α) := t.handles.zip t.toList

def text (f : α → String) (t : Table name α) : String :=
  let entries := t.entries.map fun (h, a) => s!"{h.describe}: {f a}"
  "\x7b" ++ String.intercalate ", " entries ++ "\x7d"

@[simp] theorem size_empty : (empty : Table name α).size = 0 := rfl

@[simp] theorem size_push (t : Table name α) (a : α) : (t.push a).size = t.size + 1 := by
  simp [size, push]

@[simp] theorem toList_push (t : Table name α) (a : α) : (t.push a).toList = t.toList ++ [a] := by
  simp [toList, push]

theorem get?_push (t : Table name α) (a : α) (h : Handle name) :
    (t.push a).get? h = if h = t.next then some a else t.get? h := by
  cases h with
  | mk i =>
    simp only [get?, push, next, size, Handle.mk.injEq, Array.getElem?_push]

@[simp] theorem size_modify (t : Table name α) (h : Handle name) (f : α → α) :
    (t.modify h f).size = t.size := by
  simp [size, modify]

end Table

end CanvasFusion
