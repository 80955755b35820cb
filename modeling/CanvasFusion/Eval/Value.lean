import CanvasFusion.Shape

/-!
# Tensor values

A dense value: a shape and its elements in row-major order. Reading and writing a position that is
not there is a fault, so a kernel that runs through has stayed inside its buffers.
-/

namespace CanvasFusion

structure Value (α : Type) where
  shape : Shape
  data : Array α
  deriving Repr

namespace Value

variable {α : Type}

def cellWidth : Nat := 4

def read (x : Value α) (flat : Nat) : Except Fault α :=
  match x.data[flat]? with
  | some a => .ok a
  | none => .error .outOfRange

/-- The element at an index, given the strides of the shape. -/
def readAt (lim : Limit) (x : Value α) (strides : List Nat) (index : Index) : Except Fault α := do
  x.read (← Shape.ravel lim index strides)

def write (data : Array α) (flat : Nat) (a : α) : Except Fault (Array α) :=
  if flat < data.size then .ok (data.setIfInBounds flat a) else .error .outOfRange

def filled (lim : Limit) (out : Shape) (a : α) : Except Fault (Array α) := do
  let n ← out.count lim
  lim.room n cellWidth
  pure (Array.replicate n a)

/-- A buffer for a shape, holding `f index` at each index. -/
def tabulate (lim : Limit) (out : Shape) (f : Index → Except Fault α) :
    Except Fault (Array α) := do
  let n ← out.count lim
  lim.room n cellWidth
  let cells ← (List.range n).mapM fun flat => do
    let index ← out.unravel flat
    f index
  pure cells.toArray

/-- Carry a state through the elements of a value, in row-major order, with the index of each. -/
def foldIndexed {σ : Type} (x : Value α) (f : σ → Index → α → Except Fault σ) (s : σ) :
    Except Fault σ :=
  x.data.toList.zipIdx.foldlM (fun s (a, flat) => do
    let index ← x.shape.unravel flat
    f s index a) s

end Value

end CanvasFusion
