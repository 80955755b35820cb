import CanvasFusion.Operator.Basic

/-!
# Scalars

What the elements of a tensor are computed with. The kernels ask for nothing but the operations of
`Scalar`, so they can be run on floating-point numbers and reasoned about over any other numbers, or
over operations of which nothing is known.

The running program computes with single-precision floats.
-/

namespace CanvasFusion

class Scalar (α : Type) where
  ofSingle : Single → α
  ofCount : Nat → α
  add : α → α → α
  sub : α → α → α
  mul : α → α → α
  div : α → α → α
  max : α → α → α
  min : α → α → α
  exp : α → α
  activate : Activation → α → α

namespace Scalar

variable {α : Type} [Scalar α]

def zero : α := ofSingle .zero

def one : α := ofSingle .one

end Scalar

def BinaryKind.apply {α : Type} [Scalar α] (kind : BinaryKind) (a b : α) : α :=
  match kind with
  | .add => Scalar.add a b
  | .sub => Scalar.sub a b
  | .mul => Scalar.mul a b
  | .div => Scalar.div a b
  | .max => Scalar.max a b
  | .min => Scalar.min a b

/-! ## Single-precision floats -/

namespace Float32

def ofSingle (x : Single) : Float32 := Float32.ofBits x.bits

/-- The larger of two numbers, or the other one if one of them is none. -/
def larger (a b : Float32) : Float32 :=
  if a.isNaN then b else if b.isNaN then a else if a < b then b else a

def smaller (a b : Float32) : Float32 :=
  if a.isNaN then b else if b.isNaN then a else if b < a then b else a

/-- An activation function at a number. What is no number stays none under a clamp. -/
def activate (f : Activation) (x : Float32) : Float32 :=
  match f with
  | .relu => larger x 0
  | .relu6 => if x < 0 then 0 else if 6 < x then 6 else x
  | .sigmoid => 1 / (1 + (-x).exp)
  | .tanh => x.tanh
  | .leakyRelu alpha => if 0 < x then x else ofSingle alpha * x

instance : Scalar Float32 where
  ofSingle := ofSingle
  ofCount n := ofSingle (.ofInt n)
  add a b := a + b
  sub a b := a - b
  mul a b := a * b
  div a b := a / b
  max := larger
  min := smaller
  exp x := x.exp
  activate := activate

end Float32

end CanvasFusion
