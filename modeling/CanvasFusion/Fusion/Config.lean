import CanvasFusion.Fusion.Options
import CanvasFusion.Toml.Reader

/-!
# Options in TOML

Options are a table with the keys `axes`, `tile_count` and `max_backward_passes`, all of which may
be left out; other keys are passed over. The axes are a table, or an array of the fields in order.
An array may be longer than what is read from it.
-/

namespace CanvasFusion

namespace Toml

def nat? : Toml → Option Nat
  | .integer i => if 0 ≤ i then some i.toNat else none
  | _ => none

def pair? {α : Type} (f : Toml → Option α) : Toml → Option (Pair α)
  | .array (a :: b :: _) => do
    let a ← f a
    let b ← f b
    pure ⟨a, b⟩
  | _ => none

/-- The values of some keys of a table, or of the first items of an array in their place. -/
def fields? (names : List String) : Toml → Option (List (Option Toml))
  | .table _ es => some (names.map fun name => es.lookup name)
  | .array items => some ((List.range names.length).map fun i => items[i]?)
  | _ => none

end Toml

def AxisMap.ofToml? (v : Toml) : Option AxisMap := do
  match ← v.fields? ["batch", "channel", "fuse"] with
  | [some batch, some channel, some fuse] =>
    let batch ← batch.nat?
    let channel ← channel.nat?
    let fuse ← fuse.pair? Toml.nat?
    pure ⟨batch, channel, fuse⟩
  | _ => none

namespace Options

def ofToml? (v : Toml) : Option Options := do
  match ← v.fields? ["axes", "tile_count", "max_backward_passes"] with
  | [axes, tileCount, passes] =>
    let axes ← match axes with
      | none => some standard.axes
      | some v => AxisMap.ofToml? v
    let tileCount ← match tileCount with
      | none => some none
      | some v => v.nat?.map some
    let passes ← match passes with
      | none => some standard.maxBackwardPasses
      | some v => v.nat?
    pure ⟨axes, tileCount, passes⟩
  | _ => none

def ofConfig (cs : List Char) : Except FusionError Options := do
  match (Toml.parse cs).bind ofToml? with
  | none => .error .config
  | some options =>
    options.validate
    pure options

end Options

end CanvasFusion
