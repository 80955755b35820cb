import CanvasFusion.Fusion.Context

/-!
# Adapters

Operations put between batched and canvas data.

*Tiling* takes batched data to a canvas. For a tensor `[N, C, F0, F1]` on a `t0 x t1` grid, with
extents `s` of a sample and gaps `g`:

```text
  pad back      [N, C, P0, P1]           P = s + g
  reshape       [t1, t0, C, P0, P1]
  transpose     [C, t0, P0, t1, P1]      perm [2, 1, 3, 0, 4]
  reshape       [1, C, t0*P0, t1*P1]
  slice         [1, C, E0, E1]           drops the gap at the end
```

A tensor whose axes stand in another order is transposed before and back afterwards.

*De-fusing* slices every tile out of a canvas and concatenates the tiles along the batch axis.

*Masking* multiplies a canvas by a constant that is one on tiles and zero on gaps.

Each adapter is built once for a tensor and used again after that.
-/

namespace CanvasFusion

/-- The values of a mask over the two canvas axes of a canvas: one on tiles and zero on gaps, row by
row in the order of the axes. -/
def tileMask (lim : Limit) (canvas : Shape) (map : AxisMap) (extent gap : Pair Nat) :
    Except Fault (List Single) := do
  let inside := fun (d : Dim) (pos : Nat) => do
    let step ← lim.add (extent.get d) (gap.get d)
    let rest ← Size.mod pos step
    pure (decide (rest < extent.get d))
  let (outer, inner) := if map.fuse.first < map.fuse.second then (Dim.first, Dim.second)
    else (Dim.second, Dim.first)
  let rows ← Size.entry canvas (map.fuse.get outer)
  let columns ← Size.entry canvas (map.fuse.get inner)
  let cells ← lim.mul rows columns
  lim.room cells 4
  let values ← (List.range rows).mapM fun a => (List.range columns).mapM fun b => do
    if !(← inside outer a) then pure Single.zero
    else if ← inside inner b then pure Single.one
    else pure Single.zero
  pure values.flatten

namespace Pass

def emitUnary (kind : Operator) (x : TensorId) : Pass TensorId := do
  let lim := (← get).limit
  onFused (Graph.emit lim kind [x] .transient)

def emitTranspose (perm : List Nat) (x : TensorId) : Pass TensorId :=
  if isIdentity perm then pure x else emitUnary (.transpose perm) x

/-- Fail if a fused tensor has another shape than expected of it. -/
def checkShape (t fused : TensorId) (expected : Shape) : Pass Unit := do
  let found ← ask fun ctx => liftM (ctx.fused.shape fused)
  if found ≠ expected then throw (.canvasMismatch t expected found)

def buildTiled (t : TensorId) : Pass TensorId := do
  let ctx ← get
  let lim := ctx.limit
  let map ← check (ctx.axisMap t)
  let gap ← check (ctx.gap t)
  let shape ← check (liftM (ctx.cloned.shape t))
  let channels ← check (liftM (Size.entry shape map.channel))
  let extent ← check (liftM (map.sampleExtent shape))
  let step ← check (liftM (Pair.ofFnM fun d => lim.add (extent.get d) (gap.get d)))
  let x ← check (ctx.fusedTensor t)
  let tiles := ctx.grid.tiles
  let gapless := gap = .both 0
  let x ← if gapless then pure x else do
    let back ← check (liftM (Dim.all.foldlM (fun back d =>
      Size.replace back (map.fuse.get d) (gap.get d)) [0, 0, 0, 0]))
    emitUnary (.pad ⟨[0, 0, 0, 0], back, .zero⟩) x
  let x ← emitTranspose map.canonicalPerm x
  let x ← emitUnary (.reshape [tiles.second, tiles.first, channels, step.first, step.second]) x
  let x ← emitUnary (.transpose [2, 1, 3, 0, 4]) x
  let full ← check (liftM (Pair.ofFnM fun d => lim.mul (tiles.get d) (step.get d)))
  let x ← emitUnary (.reshape [1, channels, full.first, full.second]) x
  let x ← if gapless then pure x else do
    let canvas ← check (liftM (Pair.ofFnM fun d =>
      ctx.grid.canvasExtent lim d (extent.get d) (gap.get d)))
    emitUnary (.slice [0, 0, 0, 0] [1, channels, canvas.first, canvas.second]) x
  let back ← check (liftM map.fromCanonicalPerm)
  let x ← emitTranspose back x
  checkShape t x (← check (ctx.gappedShape t))
  recordProportion x (← ask (·.canvasProportion t))
  recordTiled t x
  count fun c => { c with tileAdapters := c.tileAdapters + 1 }
  pure x

def tile (t : TensorId) : Pass TensorId := do
  match (← get).tiled.get? t with
  | some canvas => pure canvas
  | none => buildTiled t

def buildDefused (t : TensorId) (role : Role) : Pass TensorId := do
  let ctx ← get
  let lim := ctx.limit
  let map ← check (ctx.axisMap t)
  let gap ← check (ctx.gap t)
  let canvas ← check (ctx.fusedTensor t)
  let shape ← check (liftM (ctx.cloned.shape t))
  let extent ← check (liftM (map.sampleExtent shape))
  let size ← check (liftM (shape.withDim map.batch 1))
  let tiles ← (List.range ctx.grid.count).mapM fun sample => do
    let origin ← check (liftM (ctx.grid.tileOrigin lim sample extent gap))
    let start ← check (liftM (Dim.all.foldlM (fun start d =>
      Size.replace start (map.fuse.get d) (origin.get d)) (List.replicate shape.rank 0)))
    emitUnary (.slice start size) canvas
  let batched ← onFused (Graph.emit lim (.concat map.batch) tiles role)
  checkShape t batched shape
  recordProportion batched 1
  recordDefused t batched
  count fun c => { c with defuseAdapters := c.defuseAdapters + 1 }
  pure batched

/-- The batched form of a canvas tensor. The first call for a tensor decides the role of the
result. -/
def defuse (t : TensorId) (role : Role) : Pass TensorId := do
  match (← get).defused.get? t with
  | some batched => pure batched
  | none => buildDefused t role

def buildMasked (t : TensorId) : Pass TensorId := do
  let ctx ← get
  let lim := ctx.limit
  let map ← check (ctx.axisMap t)
  let gap ← check (ctx.gap t)
  let canvas ← check (ctx.fusedTensor t)
  let spec ← check (liftM (ctx.fused.spec canvas))
  let shape ← check (liftM (ctx.cloned.shape t))
  let extent ← check (liftM (map.sampleExtent shape))
  let values ← check (liftM (tileMask lim spec.shape map extent gap))
  let maskShape ← check (liftM (Dim.all.foldlM (fun (s : Shape) d => do
    let e ← Size.entry spec.shape (map.fuse.get d)
    s.withDim (map.fuse.get d) e) [1, 1, 1, 1]))
  let quant := match spec.element with
    | .u8 | .i8 => some Quantization.identity
    | _ => none
  let mask ← onFused (Graph.createConstant lim ⟨spec.element, maskShape, .constant, quant⟩
    (spec.element.encode values))
  let x ← onFused (Graph.emit lim (.binary .mul) [canvas, mask] .transient)
  recordProportion x (← ask (·.canvasProportion t))
  recordMasked t x
  count fun c => { c with masks := c.masks + 1 }
  pure x

def mask (t : TensorId) : Pass TensorId := do
  match (← get).masked.get? t with
  | some masked => pure masked
  | none => buildMasked t

def batchedForm (t : TensorId) : Pass TensorId := do
  let ctx ← get
  if ctx.isCanvas t then defuse t .transient else check (ctx.fusedTensor t)

def canvasForm (t : TensorId) (masked : Bool) : Pass TensorId := do
  let ctx ← get
  if !ctx.isCanvas t then tile t
  else if masked then mask t
  else check (ctx.fusedTensor t)

end Pass

end CanvasFusion
