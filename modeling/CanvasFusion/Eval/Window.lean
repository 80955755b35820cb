import CanvasFusion.Eval.Scalar
import CanvasFusion.Eval.Value

/-!
# Sliding windows

Convolution and pooling over the two spatial axes of a layout. Each output element is a left fold
over its window: channels first, then the rows and the columns of the kernel. Window positions that
fall outside the data are passed over.
-/

namespace CanvasFusion

variable {α : Type} [Scalar α] (lim : Limit)

/-- The position `o · stride + k · dilation - front`, if it lies within the data. -/
def windowSource (o k stride dilation front size : Nat) : Except Fault (Option Nat) := do
  let start ← lim.mul o stride
  let offset ← lim.mul k dilation
  let p ← lim.add start offset
  pure (if front ≤ p ∧ p - front < size then some (p - front) else none)

structure WindowFrame where
  layout : Layout
  kernel : Pair Nat
  stride : Pair Nat
  dilation : Pair Nat
  pad : Pair Padding

/-- Carry a state through the kernel positions along one dimension that fall on data. -/
def WindowFrame.along {σ : Type} (w : WindowFrame) (x : Shape) (index : Index) (d : Dim)
    (f : σ → Nat → Nat → Except Fault σ) (s : σ) : Except Fault σ := do
  let axis := w.layout.spatial.get d
  let o ← Size.entry index axis
  let size ← Size.entry x axis
  (List.range (w.kernel.get d)).foldlM (fun s k => do
    match ← windowSource lim o k (w.stride.get d) (w.dilation.get d) (w.pad.get d).front size with
    | none => pure s
    | some i => f s k i) s

/-- Carry a state through the cells of the window at an output index. The step gets the kernel
position and the data index of each cell; `base` is the data index with its spatial places still to
be filled in. -/
def WindowFrame.fold {σ : Type} (w : WindowFrame) (x : Shape) (index base : Index)
    (f : σ → Nat → Nat → Index → Except Fault σ) (s : σ) : Except Fault σ :=
  w.along lim x index .first (fun s k₀ i₀ => do
    let base ← Size.replace base w.layout.spatial.first i₀
    w.along lim x index .second (fun s k₁ i₁ => do
      let cell ← Size.replace base w.layout.spatial.second i₁
      f s k₀ k₁ cell) s) s

def convolve (p : Conv2d) (x w : Value α) (bias : Option (Value α)) (out : Shape) :
    Except Fault (Array α) := do
  let xStrides ← x.shape.strides lim
  let wStrides ← w.shape.strides lim
  let channels ← Size.entry w.shape 1
  let rows ← Size.entry w.shape 2
  let columns ← Size.entry w.shape 3
  let frame : WindowFrame := ⟨p.layout, ⟨rows, columns⟩, p.stride, p.dilation, p.pad⟩
  Value.tabulate lim out fun index => do
    let o ← Size.entry index p.layout.channel
    let start ← match bias with
      | none => pure Scalar.zero
      | some b => b.read o
    (List.range channels).foldlM (fun acc c => do
      let base ← Size.replace index p.layout.channel c
      frame.fold lim x.shape index base (fun acc k₀ k₁ cell => do
        let weight ← w.readAt lim wStrides [o, c, k₀, k₁]
        let v ← x.readAt lim xStrides cell
        pure (Scalar.add acc (Scalar.mul v weight))) acc) start

/-- Pooling. A mean divides by the number of cells that held data, if there were any. -/
def pool (p : Pool2d) (x : Value α) (out : Shape) : Except Fault (Array α) := do
  let strides ← x.shape.strides lim
  let frame : WindowFrame := ⟨p.layout, p.kernel, p.stride, .both 1, p.pad⟩
  Value.tabulate lim out fun index => do
    let start : α := match p.kind with
      | .max => Scalar.ofSingle .negInfinity
      | .avg => Scalar.zero
    let (acc, count) ← frame.fold lim x.shape index index (fun (acc, count) _ _ cell => do
      let v ← x.readAt lim strides cell
      let acc := match p.kind with
        | .max => Scalar.max acc v
        | .avg => Scalar.add acc v
      pure (acc, count + 1)) (start, 0)
    match p.kind with
    | .max => pure acc
    | .avg => pure (if 0 < count then Scalar.div acc (Scalar.ofCount count) else acc)

end CanvasFusion
