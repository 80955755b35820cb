import CanvasFusion.Limit

/-!
# Shapes and indices

A shape lists the extents of a tensor's axes, outermost first. Elements are stored row by row: the
last axis varies fastest. `unravel` takes a position in that order to an index and `ravel` takes an
index back, through the strides.
-/

namespace CanvasFusion

abbrev Shape := List Nat

/-- One position on each axis. -/
abbrev Index := List Nat

def bracketed (ns : List Nat) : String := "[" ++ String.intercalate ", " (ns.map Nat.repr) ++ "]"

namespace Shape

def rank (s : Shape) : Nat := s.length

/-- The number of elements; one for a shape without axes. -/
def count (lim : Limit) (s : Shape) : Except Fault Nat := lim.product s

def text (s : Shape) : String := bracketed s

def withDim (s : Shape) (axis extent : Nat) : Except Fault Shape := Size.replace s axis extent

/-- The shape whose axis `i` is the axis `perm[i]` of this one. -/
def permuted (s : Shape) (perm : List Nat) : Except Fault Shape := perm.mapM (Size.entry s)

/-- How far apart neighbours along each axis are stored. The last stride is one, and each stride is
the next one times the next extent. -/
def strides (lim : Limit) : Shape → Except Fault (List Nat)
  | [] => .ok []
  | [_] => .ok [1]
  | _ :: d :: ds => do
    let rest ← strides lim (d :: ds)
    let s ← lim.mul (rest.headD 1) d
    pure (s :: rest)

/-- The index of a position in row-major order, together with what is left of the position once all
axes have taken their share. -/
def unravelRest : Shape → Nat → Except Fault (Index × Nat)
  | [], flat => .ok ([], flat)
  | d :: ds, flat => do
    let (index, flat) ← unravelRest ds flat
    let i ← Size.mod flat d
    let flat ← Size.div flat d
    pure (i :: index, flat)

def unravel (s : Shape) (flat : Nat) : Except Fault Index :=
  (unravelRest s flat).map Prod.fst

/-- The position of an index in row-major order, given the strides. -/
def ravel (lim : Limit) (index : Index) (strides : List Nat) : Except Fault Nat := do
  let offsets ← (index.zip strides).mapM fun (i, s) => lim.mul i s
  lim.sum offsets

end Shape

/-- Whether a list is a rearrangement of `0, …, rank - 1`. -/
def isPermutation (perm : List Nat) (rank : Nat) : Bool :=
  perm.length == rank && perm.all (· < rank) && decide perm.Nodup

def isIdentity (perm : List Nat) : Bool := perm == List.range perm.length

end CanvasFusion
