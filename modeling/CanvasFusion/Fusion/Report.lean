import CanvasFusion.Fusion.Context
import CanvasFusion.Number.Fixed
import CanvasFusion.Text.Column

/-!
# The report of a run

What the pass did: the grid, how gap inference went, which operations ended up where, and every
warning. It is printed as a box of text or as a JSON object.
-/

namespace CanvasFusion

def Warning.toJson : Warning → Json
  | .unsupportedOperator op kind =>
    .object [("warning", .ofText "unsupported_operator"), ("op", .ofNat op.index),
      ("kind", .ofText kind)]
  | .unbalancedBranches op kind reason =>
    .object [("warning", .ofText "unbalanced_branches"), ("op", .ofNat op.index),
      ("kind", .ofText kind), ("reason", .ofText reason)]

namespace Counters

def members (c : Counters) : List (String × Nat) :=
  [("backward_passes", c.backwardPasses), ("forward_visits", c.forwardVisits),
    ("fused_ops", c.fusedOps), ("batched_ops", c.batchedOps), ("tile_adapters", c.tileAdapters),
    ("defuse_adapters", c.defuseAdapters), ("masks", c.masks)]

def toJson (c : Counters) : Json := .object (c.members.map fun (name, n) => (name, .ofNat n))

end Counters

structure Report where
  tileCount : Nat
  tiles : Pair Nat
  counters : Counters
  /-- The warnings, in the order in which they came up. -/
  warnings : List Warning
  deriving DecidableEq, Repr

namespace Report

/-- The share of emitted operations that are on the canvas. -/
def ratio (lim : Limit) (r : Report) : Except Fault Float := do
  let total ← lim.add r.counters.fusedOps r.counters.batchedOps
  pure (if total = 0 then 0 else Float.ofNat r.counters.fusedOps / Float.ofNat total)

def adapters (lim : Limit) (r : Report) : Except Fault Nat := do
  let n ← lim.add r.counters.tileAdapters r.counters.defuseAdapters
  lim.add n r.counters.masks

def toJson (r : Report) : Json :=
  .object ([("tile_count", .ofNat r.tileCount), ("tiles", .ofNats r.tiles.toList)]
    ++ (r.counters.members.map fun (name, n) => (name, Json.ofNat n))
    ++ [("warnings", .arr (r.warnings.map Warning.toJson))])

def topRule : String := "┌──────────────────────────────────────────────┐"

def middleRule : String := "├──────────────────────────────────────────────┤"

def bottomRule : String := "└──────────────────────────────────────────────┘"

def row (caption : String) (n : Nat) : String :=
  "│ " ++ Column.left 21 (caption ++ ":") ++ Column.right 6 s!"{n}"

def lines (lim : Limit) (r : Report) : Except Fault (List String) := do
  let c := r.counters
  let ratio ← r.ratio lim
  pure (
    [topRule, "│ BATCH FUSION                                 │", middleRule,
      row "Samples" r.tileCount ++ s!"  ({r.tiles.first} x {r.tiles.second} grid)",
      row "Fused operators" c.fusedOps, row "Batched operators" c.batchedOps,
      "│ " ++ Column.left 21 "Fused ratio:" ++ Column.right 5 (Fixed.text 1 (ratio * 100)) ++ "%",
      middleRule, row "Backward passes" c.backwardPasses, row "Forward visits" c.forwardVisits,
      middleRule, row "Tiling adapters" c.tileAdapters, row "De-fuse adapters" c.defuseAdapters,
      row "Masks" c.masks]
    ++ (if r.warnings.isEmpty then []
      else [middleRule, row "Warnings" r.warnings.length]
        ++ r.warnings.map fun w => "│   " ++ w.message)
    ++ [bottomRule])

def text (lim : Limit) (r : Report) : Except Fault String := do
  let lines ← r.lines lim
  pure (String.join (lines.map fun l => l ++ "\n"))

end Report

end CanvasFusion
