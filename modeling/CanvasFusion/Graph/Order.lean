import CanvasFusion.Graph.Basic

/-!
# Dependency order

The operations of a graph in an order in which each comes after the operations that write its
inputs. An operation waits for as many writes as it has input places with a producer; when a
producer is listed, the operations reading its output wait for fewer, and those that wait for none
join the queue. Operations on a cycle, or behind one, never join.
-/

namespace CanvasFusion.Graph

def pendingInputs (g : Graph) (op : Operation) : Nat :=
  (op.inputs.filter fun t => (g.producer t).isSome).length

/-- What each operation still waits for, and the operations that wait for nothing. -/
structure Schedule where
  pending : List Nat
  queue : List OpId

/-- The operation `reader` no longer waits for `out`. A tensor read in two places counts twice. -/
def release (g : Graph) (out : TensorId) (s : Schedule) (reader : OpId) :
    Except Fault Schedule := do
  let op ← g.ops.get reader
  let waiting ← Size.entry s.pending reader.index
  let waiting ← Size.sub waiting (op.inputs.count out)
  let pending ← Size.replace s.pending reader.index waiting
  pure ⟨pending, if waiting = 0 then s.queue ++ [reader] else s.queue⟩

/-- List the queued operations one after the other; `listed` holds those so far, last first. -/
def schedule (g : Graph) : Nat → Schedule → List OpId → Except Fault (List OpId)
  | _, ⟨_, []⟩, listed => .ok listed.reverse
  | 0, ⟨_, _ :: _⟩, _ => .error .outOfSteps
  | steps + 1, ⟨pending, id :: queue⟩, listed => do
    let op ← g.ops.get id
    let s ← (g.consumers op.output).foldlM (g.release op.output) ⟨pending, queue⟩
    g.schedule steps s (id :: listed)

/-- The operations in dependency order. Each is queued at most once, which bounds the steps. -/
def order (g : Graph) : Except Fault (List OpId) :=
  let pending := g.ops.toList.map g.pendingInputs
  let queue := (g.ops.handles.zip pending).filterMap fun (id, n) => if n = 0 then some id else none
  g.schedule g.ops.size ⟨pending, queue⟩ []

end CanvasFusion.Graph
