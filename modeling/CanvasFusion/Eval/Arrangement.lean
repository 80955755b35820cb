import CanvasFusion.Eval.Value

/-!
# Moving elements

Padding, transposing, concatenating and slicing. Padding and concatenation carry each input element
to its place in the output; transposing and slicing fetch each output element from its place in the
input.
-/

namespace CanvasFusion

variable {α : Type} (lim : Limit)

def shifted (index : Index) (offset : List Nat) : Except Fault Index :=
  (index.zip offset).mapM fun (i, o) => lim.add i o

def padWith (front : List Nat) (value : α) (x : Value α) (out : Shape) :
    Except Fault (Array α) := do
  let start ← Value.filled lim out value
  let strides ← out.strides lim
  x.foldIndexed (fun data index v => do
    let index ← shifted lim index front
    let flat ← Shape.ravel lim index strides
    Value.write data flat v) start

def transposedSource (perm : List Nat) (index : Index) : Except Fault Index :=
  (perm.zip index).foldlM (fun source (p, i) => Size.replace source p i)
    (List.replicate perm.length 0)

def transpose (perm : List Nat) (x : Value α) (out : Shape) : Except Fault (Array α) := do
  let strides ← x.shape.strides lim
  Value.tabulate lim out fun index => do
    let source ← transposedSource perm index
    x.readAt lim strides source

/-- Put the elements of one input into a concatenation, `offset` along the axis. -/
def placeBlock (axis offset : Nat) (strides : List Nat) (data : Array α) (x : Value α) :
    Except Fault (Array α) :=
  x.foldIndexed (fun data index v => do
    let i ← Size.entry index axis
    let i ← lim.add i offset
    let index ← Size.replace index axis i
    let flat ← Shape.ravel lim index strides
    Value.write data flat v) data

/-- Concatenation along an axis. `blank` fills the buffer before the inputs are placed. -/
def concatenate (axis : Nat) (blank : α) (inputs : List (Value α)) (out : Shape) :
    Except Fault (Array α) := do
  let start ← Value.filled lim out blank
  let strides ← out.strides lim
  let (data, _) ← inputs.foldlM (fun (data, offset) x => do
    let data ← placeBlock lim axis offset strides data x
    let extent ← Size.entry x.shape axis
    let offset ← lim.add offset extent
    pure (data, offset)) (start, 0)
  pure data

def sliceAt (start : List Nat) (x : Value α) (out : Shape) : Except Fault (Array α) := do
  let strides ← x.shape.strides lim
  Value.tabulate lim out fun index => do
    let index ← shifted lim index start
    x.readAt lim strides index

end CanvasFusion
