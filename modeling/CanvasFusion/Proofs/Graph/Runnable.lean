import CanvasFusion.Proofs.Giving
import CanvasFusion.Proofs.Graph.Interface

/-!
# Graphs that are ready to run

A graph is *runnable* if nothing but the values of its inputs is missing to evaluate it: it is
well-formed, its operations come after what they read, and every constant has its data. Adding an
operation of a shape that can be inferred keeps it so (`after_emit_adds`).
-/

namespace CanvasFusion

open Table Option

namespace Graph

variable {g g' : Graph} {t y : TensorId} {x : Tensor} {kind : Operator} {inputs : List TensorId}
  {s : Shape} {spec : TensorSpec}

/-! ## Tensors of a shape -/

/-- The graph has the tensor, with this shape. -/
def Has (g : Graph) (t : TensorId) (s : Shape) : Prop :=
  ∃ x, g.tensors.get? t = some x ∧ x.spec.shape = s

theorem Has.known (h : g.Has t s) : ∃ x, g.tensors.get? t = some x :=
  let ⟨x, hx, _⟩ := h
  ⟨x, hx⟩

theorem Has.shapeOf_eq (h : g.Has t s) : g.shapeOf t = s := by
  obtain ⟨x, hx, rfl⟩ := h
  exact Graph.shapeOf_eq hx

theorem Has.shape_ok (h : g.Has t s) : g.shape t = .ok s := by
  obtain ⟨x, hx, rfl⟩ := h
  rw [Graph.shape_ok hx, Graph.shapeOf_eq hx]

theorem Has.lt (h : g.Has t s) : t.index < g.tensors.size := by
  obtain ⟨x, hx, -⟩ := h
  exact lt_of_get? hx

theorem Has.grow (h : g.Has t s) (hg : g.Grows g') : g'.Has t s := by
  obtain ⟨x, hx, rfl⟩ := h
  obtain ⟨x', hx', hspec, -⟩ := hg.tensor hx
  exact ⟨x', hx', by rw [hspec]⟩

/-! ## Runnable graphs -/

/-- Every constant has data that fill its shape, and no input has data. -/
structure Stocked (g : Graph) : Prop where
  constant : ∀ {t x}, g.tensors.get? t = some x → x.spec.role = .constant →
    ∃ data, x.data = some data ∧ x.spec.byteSize .unbounded = .ok data.length
  input : ∀ {t x}, g.tensors.get? t = some x → x.spec.role = .input → x.data = none

/-- A source with data is a constant. -/
theorem Stocked.role_eq_constant {data : List UInt8} (hg : g.Stocked)
    (hx : g.tensors.get? t = some x) (hw : x.spec.role.isWritable = false)
    (hdata : x.data = some data) : x.spec.role = .constant := by
  cases hrole : x.spec.role with
  | constant => rfl
  | input => grind [input]
  | output | transient =>
    rw [hrole] at hw
    cases hw

/-- Nothing but the values of its inputs is missing to evaluate the graph. -/
structure Runnable (g : Graph) : Prop where
  wellFormed : g.WellFormed
  sequential : g.Sequential
  stocked : g.Stocked

theorem runnable_empty : Runnable .empty where
  wellFormed := wellFormed_empty
  sequential := .empty
  stocked := ⟨fun h _ => (by cases h), fun h _ => (by cases h)⟩

/-- A tensor of a graph after one has been added is the new one or an old one. -/
theorem get?_withTensor {z : Tensor} (h : (g.withTensor x).tensors.get? t = some z) :
    t = g.tensors.next ∧ z = x ∨ g.tensors.get? t = some z := by
  rw [withTensor_tensors, get?_push] at h
  grind

theorem Stocked.withTensor (hg : g.Stocked)
    (hconstant : x.spec.role = .constant →
      ∃ data, x.data = some data ∧ x.spec.byteSize .unbounded = .ok data.length)
    (hinput : x.spec.role = .input → x.data = none) : (g.withTensor x).Stocked where
  constant hz hrole := by
    rcases get?_withTensor hz with ⟨-, rfl⟩ | hz
    · exact hconstant hrole
    · exact hg.constant hz hrole
  input hz hrole := by
    rcases get?_withTensor hz with ⟨-, rfl⟩ | hz
    · exact hinput hrole
    · exact hg.input hz hrole

/-- Edges and names have nothing to do with data. -/
theorem Stocked.of_tensors (hg : g.Stocked) (h : ∀ {t z}, g'.tensors.get? t = some z →
    ∃ x, g.tensors.get? t = some x ∧ z.spec = x.spec ∧ z.data = x.data) : g'.Stocked where
  constant hz hrole := by grind [constant]
  input hz hrole := by grind [input]

theorem Stocked.renamed (hg : g.Stocked) (h : Renames g g') : g'.Stocked := by
  refine hg.of_tensors fun {u z} hz => ?_
  rcases h with rfl | ⟨t, n, rfl⟩
  · exact ⟨z, hz, rfl, rfl⟩
  · rw [withTensorChanged, get?_modify] at hz
    by_cases hu : u = t
    · rw [if_pos hu] at hz
      grind [map_eq_some_iff]
    · rw [if_neg hu] at hz
      exact ⟨z, hz, rfl, rfl⟩

theorem Runnable.renamed (hg : g.Runnable) (h : Renames g g') : g'.Runnable :=
  ⟨h.wellFormed hg.wellFormed, h.sequential hg.sequential, hg.stocked.renamed h⟩

/-- A source has been added. -/
theorem Runnable.withSource (hg : g.Runnable) (hrole : x.spec.role.isWritable = false)
    (hproducer : x.producer = none) (hconsumers : x.consumers = [])
    (hconstant : x.spec.role = .constant →
      ∃ data, x.data = some data ∧ x.spec.byteSize .unbounded = .ok data.length)
    (hinput : x.spec.role = .input → x.data = none) : (g.withTensor x).Runnable where
  wellFormed := hg.wellFormed.withTensor hproducer hconsumers
  sequential := hg.sequential.withTensor hg.wellFormed hrole
  stocked := hg.stocked.withTensor hconstant hinput

/-- An operation has been added. -/
theorem Runnable.emitted {role : Role} (hg : g.Runnable) (hw : spec.role.isWritable = true)
    (hin : ∀ t ∈ inputs, ∃ x, g.tensors.get? t = some x) (hspec : g.emitSpec inputs s role spec)
    (hs : kind.inferShape .unbounded (inputs.map g.shapeOf) = .ok spec.shape) :
    (g.emitted spec kind inputs).Runnable where
  wellFormed := hg.wellFormed.emitted hw hin hs
  sequential := hg.sequential.emitted hg.wellFormed hin hspec
  stocked := by
    have hnew : (g.withTensor (.ofSpec spec)).Stocked := by
      refine hg.stocked.withTensor (fun hrole => ?_) fun _ => rfl
      have hrole' : spec.role = .constant := hrole
      rw [hrole'] at hw
      cases hw
    refine hnew.of_tensors fun {t z} hz => ?_
    rw [Graph.emitted, withOp_get?] at hz
    obtain ⟨x, hx, rfl⟩ := map_eq_some_iff.1 hz
    exact ⟨x, hx, rfl, rfl⟩

/-! ## What a graph was checked for -/

/-- Data fill the shape of their tensor and operations fit the shapes of theirs, within a limit. -/
structure Checked (lim : Limit) (g : Graph) : Prop where
  data : ∀ {t x bytes}, g.tensors.get? t = some x → x.data = some bytes →
    x.spec.byteSize lim = .ok bytes.length
  op : ∀ {o op}, g.ops.get? o = some op →
    op.kind.inferShape lim (op.inputs.map g.shapeOf) = .ok (g.shapeOf op.output)

namespace Checked

variable {lim : Limit}

theorem empty : Checked lim .empty := ⟨fun h _ => (by cases h), fun h => (by cases h)⟩

theorem withTensor (hg : g.Checked lim) (hwf : g.WellFormed)
    (hx : ∀ bytes, x.data = some bytes → x.spec.byteSize lim = .ok bytes.length) :
    (g.withTensor x).Checked lim where
  data {t z bytes} hz hdata := by
    rcases get?_withTensor hz with ⟨-, rfl⟩ | hz
    · exact hx bytes hdata
    · exact hg.data hz hdata
  op {o op} hop := by
    have hmap : op.inputs.map (g.withTensor x).shapeOf = op.inputs.map g.shapeOf := by
      refine List.map_congr_left fun t ht => ?_
      obtain ⟨y, hy⟩ := hwf.input_known hop ht
      exact withTensor_shapeOf hy x
    obtain ⟨y, hy⟩ := hwf.output_known hop
    rw [hmap, withTensor_shapeOf hy]
    exact hg.op hop

theorem withOp (hg : g.Checked lim) {op : Operation}
    (hs : op.kind.inferShape lim (op.inputs.map g.shapeOf) = .ok (g.shapeOf op.output)) :
    (g.withOp op).Checked lim where
  data {t z bytes} hz hdata := by
    rw [withOp_get?] at hz
    obtain ⟨x, hx, rfl⟩ := map_eq_some_iff.1 hz
    have hsize : x.spec.byteSize lim = .ok bytes.length := hg.data hx hdata
    exact hsize
  op {o op'} hop := by
    rw [withOp_ops, get?_push] at hop
    rw [withOp_shapeOf, List.map_congr_left fun t _ => withOp_shapeOf g op t]
    grind [op]

/-- A tensor may change in what neither its data nor its shape depend on. -/
theorem changed (hg : g.Checked lim) (t : TensorId) {f : Tensor → Tensor}
    {inputs outputs : List TensorId} (hsize : ∀ x, (f x).spec.byteSize lim = x.spec.byteSize lim)
    (hshape : ∀ x, (f x).spec.shape = x.spec.shape) (hdata : ∀ x, (f x).data = x.data) :
    Checked lim ⟨g.tensors.modify t f, g.ops, inputs, outputs⟩ where
  data {u z bytes} hz hbytes := by grind [get?_modify, map_eq_some_iff, data]
  op hop := by
    have hshapeOf := shapeOf_modify (g := g) (t := t) hshape inputs outputs
    rw [hshapeOf, List.map_congr_left fun u _ => hshapeOf u]
    exact hg.op hop

theorem apply (hg : g.Checked lim) (hwf : g.WellFormed) (c : Call) :
    (c.apply lim g).Checked lim := by
  have hnew : ∀ spec, (g.withTensor (.ofSpec spec)).Checked lim := fun spec =>
    hg.withTensor hwf fun bytes hbytes => (by cases hbytes)
  cases c with
  | createTensor spec => exact hnew spec
  | createConstant spec data =>
    refine After.run_snd (after_createConstant (fun hsize => ?_) fun _ _ => hg)
    refine hg.withTensor hwf fun bytes hbytes => ?_
    cases hbytes
    exact hsize
  | setName t name =>
    exact After.run_snd (after_setName (hg.changed t (fun _ => rfl) (fun _ => rfl) fun _ => rfl)
      fun _ _ => hg)
  | setOutput t =>
    refine After.run_snd (after_setOutput hg (fun _ _ _ => ?_) fun _ => hg)
    exact hg.changed t (fun _ => rfl) (fun _ => rfl) fun _ => rfl
  | addOp kind inputs outputs =>
    refine After.run_snd (after_addOp (fun out _ hc => hg.withOp ?_) fun _ => hg)
    grind [checkOp_eq_ok, shapeOf_eq, inferOutput_eq_ok]
  | emit kind inputs role =>
    refine After.run_snd (after_emit (fun s spec hs hspec _ => (hnew spec).withOp ?_) (fun _ => hg)
      fun _ => hnew)
    obtain ⟨-, hin, hs⟩ := inferOutput_eq_ok.1 hs
    obtain ⟨_, _, _, -, -, rfl⟩ := hspec
    rw [withTensor_shapeOf_next, List.map_congr_left fun t ht => ?_]
    · exact hs
    · grind [withTensor_shapeOf]

end Checked

/-- **A graph built by calls is checked**, under the limit it was built at. -/
theorem checked_build (lim : Limit) (calls : List Call) : (build lim calls).Checked lim :=
  build_induction .empty (fun calls c hg => hg.apply (wellFormed_build lim calls) c) calls

/-! ## Adding a source -/

section Gains

variable {data : Option (List UInt8)} {name : Option String}

theorem le_index_of_next (h : y = g.tensors.next) : g.tensors.size ≤ y.index := by
  rw [h]
  exact Nat.le_refl _

/-- The second graph has one more input or constant. -/
structure Gains (g g' : Graph) (spec : TensorSpec) (data : Option (List UInt8))
    (name : Option String) (y : TensorId) : Prop where
  grows : g.Grows g'
  runnable : g'.Runnable
  enters : Enters spec.role name y g g'
  fresh : y = g.tensors.next
  size_eq : g'.tensors.size = g.tensors.size + 1
  ops_eq : g'.ops = g.ops
  tensor : ∃ x, g'.tensors.get? y = some x ∧ x.spec = spec ∧ x.data = data

theorem Gains.has (h : g.Gains g' spec data name y) : g'.Has y spec.shape := by
  obtain ⟨x, hx, rfl, -⟩ := h.tensor
  exact ⟨x, hx, rfl⟩

theorem Gains.size_lt (h : g.Gains g' spec data name y) : g.tensors.size < g'.tensors.size :=
  h.size_eq ▸ Nat.lt_succ_self _

theorem Gains.named (h : g.Gains g' spec data none y) (name : Option String) :
    g.Gains (g'.named y name) spec data name y where
  grows := h.grows.trans (g'.renames_named y name).grows
  runnable := h.runnable.renamed (g'.renames_named y name)
  enters := h.enters.named name
  fresh := h.fresh
  size_eq := by rw [← h.size_eq, (g'.renames_named y name).size_eq]
  ops_eq := by rw [← h.ops_eq, (g'.renames_named y name).ops_eq]
  tensor := by
    obtain ⟨x, hx, hspec, hdata⟩ := h.tensor
    obtain ⟨x', hx', hspec', hdata'⟩ := (g'.renames_named y name).grows.tensor hx
    exact ⟨x', hx', hspec'.trans hspec, hdata'.trans hdata⟩

end Gains

/-- **Adding a constant** to a runnable graph, by the bytes it takes. -/
theorem after_createConstant_gains {lim : Limit} {data : List UInt8} {P : Prop} (hg : g.Runnable)
    (hrole : spec.role = .constant) (hs : spec.byteSize .unbounded = .ok data.length)
    (hlim : P → lim = .unbounded) :
    After (createConstant lim spec data) g (fun y g' => g.Gains g' spec (some data) none y)
      fun _ _ => ¬ P := by
  have hspec : { spec with role := .constant } = spec := by rw [← hrole]
  have hsource : spec.role.isWritable = false := by rw [hrole]; rfl
  refine after_createConstant (fun _ => ?_) fun hne _ hp => hne ?_
  · rw [hspec]
    have hinput : spec.role ≠ .input := fun h => by rw [h] at hrole; cases hrole
    refine ⟨.withTensor g _, hg.withSource hsource rfl rfl (fun _ => ⟨data, rfl, hs⟩)
      fun h => absurd h hinput, enters_withTensor g { Tensor.ofSpec spec with data := some data },
      rfl,
      size_push _ _, rfl, _, get?_push_next _ _, rfl, rfl⟩
  · grind

/-- **Adding an input** to a runnable graph. -/
theorem after_createTensor_gains {E : GraphError → Graph → Prop} (hg : g.Runnable)
    (hrole : spec.role = .input) :
    After (createTensor spec) g (fun y g' => g.Gains g' spec none none y) E := by
  have hsource : spec.role.isWritable = false := by rw [hrole]; rfl
  refine after_createTensor ⟨.withTensor g _, hg.withSource hsource rfl rfl (fun h => ?_)
    fun _ => rfl, enters_withTensor g (.ofSpec spec), rfl, size_push _ _, rfl, _,
    get?_push_next _ _, rfl, rfl⟩
  have h' : spec.role = .constant := h
  rw [hrole] at h'
  cases h'

/-! ## Adding an operation -/

section Adds

variable {role : Role}

/-- The second graph has one more operation, with a new output of the given role and shape. -/
structure Adds (g g' : Graph) (role : Role) (kind : Operator) (inputs : List TensorId)
    (y : TensorId) (s : Shape) : Prop where
  grows : g.Grows g'
  runnable : g'.Runnable
  continues : Continues (if role = .output then [y] else []) g g'
  fresh : y = g.tensors.next
  size_eq : g'.tensors.size = g.tensors.size + 1
  ops_eq : g'.ops = g.ops.push ⟨kind, inputs, y⟩
  tensor : ∃ z, g'.tensors.get? y = some z ∧ z.spec.shape = s ∧ z.spec.role = role

theorem Adds.has (h : g.Adds g' role kind inputs y s) : g'.Has y s := by
  obtain ⟨z, hz, hs, -⟩ := h.tensor
  exact ⟨z, hz, hs⟩

theorem Adds.size_lt (h : g.Adds g' role kind inputs y s) : g.tensors.size < g'.tensors.size :=
  h.size_eq ▸ Nat.lt_succ_self _

theorem Adds.op (h : g.Adds g' role kind inputs y s) :
    ∃ o, g'.ops.get? o = some ⟨kind, inputs, y⟩ :=
  ⟨g.ops.next, by rw [h.ops_eq]; exact get?_push_next _ _⟩

/-- **Adding an operation** to a runnable graph, by the shape of its output. -/
theorem after_emit_adds {lim : Limit} {P : Prop} (hg : g.Runnable) (hw : role.isWritable = true)
    (hne : inputs ≠ []) (hin : ∀ t ∈ inputs, ∃ x, g.tensors.get? t = some x)
    (hs : Gives P (kind.inferShape .unbounded (inputs.map g.shapeOf)) s)
    (hlim : P → lim = .unbounded) :
    After (emit lim kind inputs role) g (fun y g' => g.Adds g' role kind inputs y s)
      fun _ _ => ¬ P := by
  have hs' : Gives P (kind.inferShape lim (inputs.map g.shapeOf)) s :=
    .of_conforms (Operator.hasPeak_inferShape kind (inputs.map g.shapeOf)).conforms hs hlim
  refine after_emit_writable hw (fun s' spec hinfer hspec => ?_) fun hnone _ hp => ?_
  · have hspec' := hspec
    obtain ⟨_, _, first, rfl, -, rfl⟩ := hspec
    obtain ⟨-, -, hinfer⟩ := inferOutput_eq_ok.1 hinfer
    obtain rfl := hs'.eq hinfer
    let spec : TensorSpec := ⟨first.spec.element, s', role, first.spec.quant⟩
    obtain ⟨z, hz, hspec, -⟩ := emitted_output g spec kind _
    have hinputs : role ≠ .input := fun heq => by simp [heq, Role.isWritable] at hw
    exact ⟨.emitted .., hg.emitted hw hin hspec' (Operator.inferShape_unbounded hinfer),
      ((enters_withTensor g (.ofSpec spec)).withOp _).continues hinputs, rfl, emitted_size ..,
      withOp_ops .., z, hz, by rw [hspec], by rw [hspec]⟩
  · exact hnone s (inferOutput_eq_ok.2 ⟨hne, hin, hs'.ok hp⟩)

end Adds

end Graph

end CanvasFusion
