import CanvasFusion.Number.Single

/-!
# Element types and their bytes

The types a tensor's elements can be stored as, with the little-endian bytes of their values. Values
are singles on the outside: an integer type rounds a single to the nearest integer, a half away from
zero, and stops at the ends of its range.
-/

namespace CanvasFusion

inductive ElementType where
  | f32
  | u8
  | i8
  | i32
  deriving DecidableEq, Repr, Inhabited

/-- A buffer that does not hold a whole number of elements, or not the number it should. -/
structure SizeMismatch where
  expected : Nat
  got : Nat
  deriving DecidableEq, Repr

/-- Stored values stand for `scale * (stored - zeroPoint)`. -/
structure Quantization where
  scale : Single
  zeroPoint : Int
  deriving DecidableEq, Repr

def Quantization.identity : Quantization := ⟨.one, 0⟩

/-- The four bytes of a word, low byte first. -/
def wordBytes (n : Nat) : List UInt8 :=
  [UInt8.ofNat n, UInt8.ofNat (n / 0x100), UInt8.ofNat (n / 0x10000), UInt8.ofNat (n / 0x1000000)]

def wordOfBytes (a b c d : UInt8) : Nat :=
  a.toNat + b.toNat * 0x100 + c.toNat * 0x10000 + d.toNat * 0x1000000

namespace ElementType

def width : ElementType → Nat
  | .f32 | .i32 => 4
  | .u8 | .i8 => 1

def name : ElementType → String
  | .f32 => "f32"
  | .u8 => "u8"
  | .i8 => "i8"
  | .i32 => "i32"

def all : List ElementType := [.f32, .u8, .i8, .i32]

def encodeOne (t : ElementType) (x : Single) : List UInt8 :=
  match t with
  | .f32 => wordBytes x.bits.toNat
  | .u8 => [UInt8.ofNat (x.toIntIn 0 255).toNat]
  | .i8 => [UInt8.ofNat (x.toIntIn (-128) 127 % 0x100).toNat]
  | .i32 => wordBytes (x.toIntIn (-0x80000000) 0x7fffffff % 0x100000000).toNat

def encode (t : ElementType) (xs : List Single) : List UInt8 := xs.flatMap t.encodeOne

def signed (bits n : Nat) : Int :=
  if n < Nat.pow 2 (bits - 1) then n else (n : Int) - Nat.pow 2 bits

def decodeBytes (f : UInt8 → Single) (bytes : List UInt8) : List Single := bytes.map f

/-- The values of elements of four bytes; a shorter rest is left out. -/
def decodeWords (f : Nat → Single) : List UInt8 → List Single
  | a :: b :: c :: d :: rest => f (wordOfBytes a b c d) :: decodeWords f rest
  | _ => []

/-- The values of a buffer, which has to hold a whole number of elements. -/
def decode (t : ElementType) (bytes : List UInt8) : Except SizeMismatch (List Single) :=
  if bytes.length % t.width ≠ 0 then
    .error ⟨bytes.length / t.width * t.width, bytes.length⟩
  else .ok <|
    match t with
    | .f32 => decodeWords (fun n => ⟨UInt32.ofNat n⟩) bytes
    | .u8 => decodeBytes (fun b => .ofInt b.toNat) bytes
    | .i8 => decodeBytes (fun b => .ofInt (signed 8 b.toNat)) bytes
    | .i32 => decodeWords (fun n => .ofInt (signed 32 n)) bytes

end ElementType

end CanvasFusion
