import CanvasFusion.AxisMap
import CanvasFusion.Fusion.Error
import CanvasFusion.Json.Decode

/-!
# Options of the fusion pass
-/

namespace CanvasFusion

namespace AxisMap

/-- The axes are checked in the order batch, channel, canvas dimensions: each is an axis of a rank-4
tensor and none of the earlier ones. -/
def checkDistinct (seen : List Nat) : List Nat → Except FusionError Unit
  | [] => .ok ()
  | a :: rest =>
    if 4 ≤ a then .error (.invalidAxes (.outOfRange a))
    else if a ∈ seen then .error (.invalidAxes (.repeated a))
    else checkDistinct (a :: seen) rest

/-- The four roles are the four axes of a rank-4 tensor. -/
def validate (m : AxisMap) : Except FusionError Unit := checkDistinct [] m.canonicalPerm

def ofJson? (j : Json) : Option AxisMap := do
  match ← j.fields? ["batch", "channel", "fuse"] with
  | [batch, channel, fuse] =>
    let batch ← Json.required Json.nat? batch
    let channel ← Json.required Json.nat? channel
    let fuse ← Json.required (Json.pair? Json.nat?) fuse
    pure ⟨batch, channel, fuse⟩
  | _ => none

def toJson (m : AxisMap) : Json :=
  .object [("batch", .ofNat m.batch), ("channel", .ofNat m.channel),
    ("fuse", .ofNats m.fuse.toList)]

end AxisMap

structure Options where
  axes : AxisMap
  /-- How many samples to tile. If set, the graph inputs are given this batch extent; if not, the
  batch extent of the first rank-4 input is taken. -/
  tileCount : Option Nat
  maxBackwardPasses : Nat
  deriving DecidableEq, Repr

namespace Options

def standard : Options := ⟨.nchw, none, 64⟩

instance : Inhabited Options := ⟨standard⟩

/-- The axes are checked before the tile count. -/
def validate (o : Options) : Except FusionError Unit := do
  o.axes.validate
  if o.tileCount = some 0 then .error .invalidTileCount

def ofJson? (j : Json) : Option Options := do
  match ← j.fields? ["axes", "tile_count", "max_backward_passes"] with
  | [axes, tileCount, passes] =>
    let axes ← Json.withDefault standard.axes AxisMap.ofJson? axes
    let tileCount ← Json.withDefault none (Json.nullable? Json.nat?) tileCount
    let passes ← Json.withDefault standard.maxBackwardPasses Json.nat? passes
    pure ⟨axes, tileCount, passes⟩
  | _ => none

def toJson (o : Options) : Json :=
  .object ([("axes", o.axes.toJson)] ++
    (match o.tileCount with
      | none => []
      | some n => [("tile_count", .ofNat n)]) ++
    [("max_backward_passes", .ofNat o.maxBackwardPasses)])

end Options

end CanvasFusion
