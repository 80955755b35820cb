import CanvasFusion.Operator.Basic
import CanvasFusion.Shape

/-!
# What can be wrong with an operation

The reasons for which an operator does not apply to its inputs, and the words for each.
-/

namespace CanvasFusion

inductive OperatorIssue where
  | noInputs
  | inputCount (count : Nat)
  | outputCount (count : Nat)
  | notRankFour (x : Shape)
  | badLayout (layout : Layout)
  | weightRank (weight : Shape)
  | channelCount (expected got : Nat)
  | biasShape (channels : Nat) (bias : Shape)
  | kernelFit (axis : Nat)
  | windowFit (axis : Nat)
  | padRank (rank : Nat)
  | broadcast (a b : Shape)
  | reductionAxis (axis : Nat)
  | permutation (perm : List Nat) (rank : Nat)
  | reshape (x : Shape) (count : Nat) (target : Shape)
  | axisRange (axis : Nat)
  | concat (s x : Shape) (axis : Nat)
  | sliceRank (rank : Nat)
  | sliceRange (start size axis : Nat) (x : Shape)
  deriving DecidableEq, Repr

def OperatorIssue.message : OperatorIssue → String
  | .noInputs => "operation has no inputs"
  | .inputCount n => s!"unexpected input count {n}"
  | .outputCount n => s!"expected one output, got {n}"
  | .notRankFour x => s!"expected a rank-4 input, got {x.text}"
  | .badLayout l => s!"invalid data layout {l.text}"
  | .weightRank w => s!"weight must be [O, I, KH, KW], got {w.text}"
  | .channelCount e g => s!"weight expects {e} input channels, data has {g}"
  | .biasShape o b => s!"bias must be [{o}], got {b.text}"
  | .kernelFit a => s!"kernel does not fit axis {a}"
  | .windowFit a => s!"window does not fit axis {a}"
  | .padRank r => s!"pad lists must have rank {r}"
  | .broadcast a b => s!"cannot broadcast {a.text} with {b.text}"
  | .reductionAxis a => s!"bad reduction axis {a}"
  | .permutation p r => s!"{bracketed p} is not a permutation of rank {r}"
  | .reshape x n t => s!"cannot reshape {x.text} ({n} elements) to {t.text}"
  | .axisRange a => s!"axis {a} out of range"
  | .concat s x a => s!"cannot concatenate {s.text} with {x.text} on axis {a}"
  | .sliceRank r => s!"begin/size must have rank {r}"
  | .sliceRange b s i x => s!"slice {b}+{s} exceeds axis {i} of {x.text}"

end CanvasFusion
