import CanvasFusion.Number.Single

/-!
# Decimals with a fixed number of places

A double printed with a fixed number of digits after the point: the exact value is rounded once, a
half to the even neighbour.
-/

namespace CanvasFusion.Fixed

/-- `x · 10^places` rounded to an integer, for a finite `x` that is not negative. -/
def scaled (places : Nat) (x : Float) : Nat :=
  let b : Nat := x.toBits.toNat
  let exponent : Nat := b / 0x10000000000000 % 0x800
  let fraction : Nat := b % 0x10000000000000
  let m : Nat := if exponent = 0 then fraction else 0x10000000000000 + fraction
  let q : Int := if exponent = 0 then -1074 else (exponent : Int) - 1075
  match q with
  | .ofNat k => m * Nat.pow 2 k * Nat.pow 10 places
  | .negSucc k => halfEven (m * Nat.pow 10 places) (k + 1)

/-- The text of a finite number that is not negative, with `places` digits after the point. -/
def text (places : Nat) (x : Float) : String :=
  let n := scaled places x
  let whole := n / Nat.pow 10 places
  let rest := Nat.toDigits 10 (n % Nat.pow 10 places)
  if places = 0 then s!"{whole}"
  else s!"{whole}." ++ String.ofList (List.replicate (places - rest.length) '0' ++ rest)

end CanvasFusion.Fixed
