import CanvasFusion.Fusion.Context

/-!
# Plans

Each operation of the working copy is planned once: on the canvas or on batched data. Sliding
windows and zero padding bring tensors onto a canvas, if the roles of the axes are the ones the
operator works with. All other operators follow an input that is on a canvas already, if they can,
and keep to batched data otherwise.
-/

namespace CanvasFusion

/-- Why the inputs of an operation cannot share a canvas. -/
inductive Imbalance where
  | outputRank (shape : Shape)
  /-- An operand of a binary operator is no canvas tensor of the output's shape and no broadcast. -/
  | operand (i : Nat) (shape expected : Shape)
  | concatRank
  | concatAxis (axis channel : Nat)
  | concatInput (i : Nat)
  deriving DecidableEq, Repr

def Imbalance.message : Imbalance → String
  | .outputRank shape => s!"output shape {shape.text} is not rank 4"
  | .operand i shape expected =>
    s!"input {i} of shape {shape.text} does not match canvas operand {expected.text}"
  | .concatRank => "output is not rank 4"
  | .concatAxis axis channel => s!"axis {axis} is not the channel axis {channel}"
  | .concatInput i => s!"input {i} cannot share the canvas layout"

inductive Decision where
  | batched
  | unbalanced (reason : Imbalance)
  | fused (plan : FusedPlan)
  deriving DecidableEq, Repr

/-- How an operand of a binary operator goes with a canvas. -/
inductive OperandFit where
  /-- On the canvas of the output, or tileable onto it. -/
  | canvas
  /-- The same for all samples and all cells of a channel, so it is read as it is. -/
  | broadcast
  | misfit
  deriving DecidableEq, Repr

namespace Context

/-! ## Axis roles -/

/-- The axis map an operation hands on to an output of rank 4. A transposition moves the roles of
its input. A reshape keeps them if it keeps the shape. Other operators follow their first input on a
canvas, or else their first input with a map. -/
def inheritedAxisMap (ctx : Context) (op : Operation) : Except Fault (Option AxisMap) := do
  let x ← Size.entry op.inputs 0
  match op.kind with
  | .transpose perm => pure ((ctx.axisMaps.get? x).bind (·.permuted perm))
  | .reshape _ =>
    let before ← ctx.cloned.shape x
    let after ← ctx.cloned.shape op.output
    pure (if before = after then ctx.axisMaps.get? x else none)
  | _ =>
    match op.inputs.find? ctx.isCanvas with
    | some t => pure (ctx.axisMaps.get? t)
    | none => pure (op.inputs.findSome? ctx.axisMaps.get?)

/-- The axis map of the output of an operation: the inherited one, or the configured one. A tensor
of another rank has none. -/
def outputAxisMap (ctx : Context) (op : Operation) : Except Fault (Option AxisMap) := do
  let shape ← ctx.cloned.shape op.output
  if shape.rank ≠ 4 then pure none
  else
    let map ← ctx.inheritedAxisMap op
    pure (some (map.getD ctx.axes))

def fitsCanvas (ctx : Context) (t : TensorId) : Except Fault Bool :=
  if ctx.isCanvas t then .ok true else ctx.isTileable t

/-- The axis map of a tensor that is on a canvas or can be tiled onto one. -/
def canvasOperand (ctx : Context) (t : TensorId) : Except Fault (Option AxisMap) := do
  if ← ctx.fitsCanvas t then pure (ctx.axisMaps.get? t) else pure none

/-! ## Operators -/

/-- The gap rules of a sliding window. `order` says which spatial dimension of the operator lies
along each dimension of the canvas. -/
def windowRules (ctx : Context) (op : Operation) (map : AxisMap) (order : Pair Dim)
    (kernel stride dilation : Pair Nat) (pad : Pair Padding) : Except Fault (Pair GapRule) := do
  let x ← Size.entry op.inputs 0
  let before ← ctx.cloned.shape x
  let after ← ctx.cloned.shape op.output
  Pair.ofFnM fun d =>
    if !ctx.grid.isTiled d then pure .identity
    else do
      let j := order.get d
      let input ← Size.entry before (map.fuse.get d)
      let output ← Size.entry after (map.fuse.get d)
      pure (.window ⟨kernel.get j, stride.get j, dilation.get j, pad.get j, input, output⟩)

/-- A convolution goes onto the canvas of its data, if its layout is that of the canvas. The weight
and the bias have to be batched. -/
def planConv (ctx : Context) (op : Operation) (p : Conv2d) : Except Fault Decision := do
  let x ← Size.entry op.inputs 0
  if (op.inputs.drop 1).any ctx.isCanvas then pure .batched
  else
    match ← ctx.canvasOperand x with
    | none => pure .batched
    | some map =>
      match map.spatialOrder p.layout with
      | none => pure .batched
      | some order =>
        let w ← Size.entry op.inputs 1
        let weight ← ctx.cloned.shape w
        let height ← Size.entry weight 2
        let width ← Size.entry weight 3
        let rules ← ctx.windowRules op map order ⟨height, width⟩ p.stride p.dilation p.pad
        pure (.fused ⟨rules, [0]⟩)

/-- A pooling goes onto the canvas like a convolution, unless it is padded: it passes over padded
cells, and a zero is not nothing. -/
def planPool (ctx : Context) (op : Operation) (p : Pool2d) : Except Fault Decision := do
  if p.pad ≠ .both ⟨0, 0⟩ then pure .batched
  else
    let x ← Size.entry op.inputs 0
    match ← ctx.canvasOperand x with
    | none => pure .batched
    | some map =>
      match map.spatialOrder p.layout with
      | none => pure .batched
      | some order =>
        let rules ← ctx.windowRules op map order p.kernel p.stride (.both 1) p.pad
        pure (.fused ⟨rules, [0]⟩)

/-- Zero padding goes onto the canvas and takes its cells out of the gap, unless it pads the batch.
-/
def planPad (ctx : Context) (op : Operation) (p : ConstantPad) : Except Fault Decision := do
  if !p.value.isZero then pure .batched
  else
    let x ← Size.entry op.inputs 0
    match ← ctx.canvasOperand x with
    | none => pure .batched
    | some map =>
      let front ← Size.entry p.front map.batch
      if front ≠ 0 then pure .batched
      else
        let back ← Size.entry p.back map.batch
        if back ≠ 0 then pure .batched
        else
          let rules ← Pair.ofFnM fun d =>
            if !ctx.grid.isTiled d then pure GapRule.identity
            else do
              let front ← Size.entry p.front (map.fuse.get d)
              let back ← Size.entry p.back (map.fuse.get d)
              let total ← ctx.limit.add front back
              pure (.pad total)
          pure (.fused ⟨rules, [0]⟩)

/-- An operator of one input that leaves gaps alone follows its input. -/
def planUnary (ctx : Context) (op : Operation) : Except Fault Decision := do
  let x ← Size.entry op.inputs 0
  pure (if ctx.isCanvas x then .fused (.pointwise [0]) else .batched)

def planReshape (ctx : Context) (op : Operation) : Except Fault Decision := do
  let x ← Size.entry op.inputs 0
  let before ← ctx.cloned.shape x
  let after ← ctx.cloned.shape op.output
  if before = after then ctx.planUnary op else pure .batched

/-- How an operand goes with a canvas of the given axis map and batched shape. -/
def operandFit (ctx : Context) (map : AxisMap) (out : Shape) (x : TensorId) :
    Except Fault OperandFit := do
  let shape ← ctx.cloned.shape x
  let fits ← ctx.fitsCanvas x
  if shape = out ∧ ctx.axisMaps.get? x = some map ∧ fits then pure .canvas
  else if ctx.isCanvas x then pure .misfit
  else
    let invariant ← map.isSampleInvariant shape
    pure (if invariant then .broadcast else .misfit)

/-- A binary operator goes onto a canvas if one of its operands is on one and each other fits. A
division by a canvas stays batched: gaps of zeros as divisors give infinities, which no mask
removes. -/
def planBinary (ctx : Context) (op : Operation) (kind : BinaryKind) : Except Fault Decision := do
  if !op.inputs.any ctx.isCanvas then pure .batched
  else
    let out ← ctx.cloned.shape op.output
    match ctx.axisMaps.get? op.output with
    | none => pure (.unbalanced (.outputRank out))
    | some map =>
      let fits ← op.inputs.mapM (ctx.operandFit map out)
      match fits.idxOf? .misfit with
      | some i =>
        let x ← Size.entry op.inputs i
        let shape ← ctx.cloned.shape x
        pure (.unbalanced (.operand i shape out))
      | none =>
        let gapped := (fits.zipIdx.filter fun f => f.1 = .canvas).map (·.2)
        if kind = .div ∧ 1 ∈ gapped then pure .batched else pure (.fused (.pointwise gapped))

/-- A concatenation goes onto a canvas along the channels, if all its inputs fit one canvas. -/
def planConcat (ctx : Context) (op : Operation) (axis : Nat) : Except Fault Decision := do
  if !op.inputs.any ctx.isCanvas then pure .batched
  else
    match ctx.axisMaps.get? op.output with
    | none => pure (.unbalanced .concatRank)
    | some map =>
      if axis ≠ map.channel then pure (.unbalanced (.concatAxis axis map.channel))
      else
        let fits ← op.inputs.mapM fun x => do
          let fits ← ctx.fitsCanvas x
          pure (fits && ctx.axisMaps.get? x = some map)
        match fits.idxOf? false with
        | some i => pure (.unbalanced (.concatInput i))
        | none => pure (.fused (.pointwise (List.range op.inputs.length)))

/-- The plan for an operation whose output has its axis map already. A reduction may mix samples, so
it reads batched data. With one tile nothing goes onto a canvas. -/
def decision (ctx : Context) (op : Operation) : Except Fault Decision :=
  if !ctx.isEnabled then .ok .batched
  else
    match op.kind with
    | .conv2d p => ctx.planConv op p
    | .pool2d p => ctx.planPool op p
    | .pad p => ctx.planPad op p
    | .activation _ | .transpose _ => ctx.planUnary op
    | .binary kind => ctx.planBinary op kind
    | .reshape _ => ctx.planReshape op
    | .concat axis => ctx.planConcat op axis
    | .reduce .. | .slice .. | .softmax _ => .ok .batched

end Context

namespace Pass

def plan (o : OpId) (op : Operation) : Pass Plan := do
  match ← ask fun ctx => liftM (ctx.decision op) with
  | .batched => pure .batched
  | .fused plan => pure (.fused plan)
  | .unbalanced reason =>
    warn (.unbalancedBranches o op.kind.name reason.message)
    pure .batched

end Pass

end CanvasFusion
