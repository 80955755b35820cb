import CanvasFusion.Fusion.WorkingCopy
import CanvasFusion.Proofs.Fusion.Consistency

/-!
# The working copy

A run starts from a grid and empty tables (`Starts`). Cloning copies a tensor at most once, in one
of three ways (`CopiedAs`): an input gets a new batch, a constant stays as it is, and the output of
an operation is written by the copy of that operation, which reads the copies of its inputs. The
working copy is well-formed and sequential, since it is built by `emit` alone, and everything in it
is a copy (`Copying`).

Where the inputs have as many samples as the grid has tiles (`KeepsBatch`), no shape and no operator
changes.
-/

namespace CanvasFusion

open List CanvasFusion.Graph Ledger

/-! ## The grid -/

theorem largestDivisor_dvd (n i : Nat) : largestDivisor n i ∣ n := by
  induction i with
  | zero => exact Nat.one_dvd n
  | succ i ih =>
    rw [largestDivisor]
    split_ifs with h
    · exact Nat.dvd_of_mod_eq_zero h
    · exact ih

/-- A grid has the tiles it needs for its samples. -/
theorem Grid.ofCount_spec {lim : Limit} {n : Nat} {grid : Grid}
    (h : Grid.ofCount lim n = .ok grid) : grid.count = max n 1 ∧
      (∀ d, 0 < grid.tiles.get d) ∧ grid.tiles.first * grid.tiles.second = grid.count := by
  unfold Grid.ofCount closestFactors at h
  simp only [bind_eq_ok] at h
  obtain ⟨tiles, ⟨_, _, htiles⟩, h⟩ := h
  cases htiles
  cases h
  have hdvd := largestDivisor_dvd (max n 1) (max n 1).sqrt
  have hpos : 0 < max n 1 := Nat.lt_of_lt_of_le Nat.zero_lt_one (Nat.le_max_right n 1)
  refine ⟨rfl, fun d => ?_, Nat.mul_div_cancel' hdvd⟩
  cases d with
  | first => exact Nat.pos_of_dvd_of_pos hdvd hpos
  | second => exact Nat.div_pos (Nat.le_of_dvd hpos hdvd) (Nat.pos_of_dvd_of_pos hdvd hpos)

namespace Context

variable {lim : Limit} {source g : Graph} {options : Options} {ctx ctx₀ : Context} {t c : TensorId}
  {o : OpId} {op : Operation}

/-- How many samples a run is about. -/
def sampleCount (source : Graph) (options : Options) : Except Fault Nat :=
  match options.tileCount with
  | some n => .ok n
  | none => (sourceBatch? source options.axes).map (·.getD 1)

/-- What a run starts from. -/
structure Starts (lim : Limit) (source : Graph) (options : Options) (ctx : Context) : Prop where
  limit : ctx.limit = lim
  source_eq : ctx.source = source
  cloned : ctx.cloned = .empty
  fused : ctx.fused = .empty
  axes_eq : ctx.axes = options.axes
  axes : ctx.axes.Valid
  maxBackwardPasses : ctx.maxBackwardPasses = options.maxBackwardPasses
  counters : ctx.counters = .zero
  warnings : ctx.warnings = []
  visited : ctx.visited = []
  count : ∃ n, sampleCount source options = .ok n ∧ Grid.ofCount lim n = .ok ctx.grid
  tables : ctx.cloneOf = .empty ∧ ctx.fusedOf = .empty ∧ ctx.gaps = .empty ∧
    ctx.canvasShapes = .empty ∧ ctx.proportions = .empty ∧ ctx.placements = .empty ∧
    ctx.axisMaps = .empty ∧ ctx.plans = .empty ∧ ctx.fills = .empty ∧ ctx.tiled = .empty ∧
    ctx.defused = .empty ∧ ctx.masked = .empty

theorem starts_of_initial (h : initial lim source options = .ok ctx) :
    Starts lim source options ctx := by
  unfold initial at h
  rw [bind_eq_ok] at h
  obtain ⟨_, hvalid, h⟩ := h
  have haxes : options.axes.Valid := by
    grind [Options.validate, bind_eq_ok, AxisMap.valid_of_validate]
  obtain ⟨n, grid, hcount, hgrid, h⟩ : ∃ n grid, sampleCount source options = .ok n ∧
      Grid.ofCount lim n = .ok grid ∧ Except.ok ctx = Except.ok (ε := FusionError) {
        limit := lim, source := source, cloned := .empty, fused := .empty, axes := options.axes
        grid := grid, maxBackwardPasses := options.maxBackwardPasses, warnings := []
        counters := .zero, cloneOf := .empty, fusedOf := .empty, gaps := .empty
        canvasShapes := .empty, proportions := .empty, placements := .empty, axisMaps := .empty
        plans := .empty, fills := .empty, tiled := .empty, defused := .empty, masked := .empty
        visited := [] } := by
    unfold sampleCount
    cases htile : options.tileCount with
    | some m =>
      simp only [htile, bind_eq_ok, lift_fault_eq_ok] at h
      obtain ⟨_, hm, grid, hgrid, h⟩ := h
      cases hm
      exact ⟨_, grid, rfl, hgrid, h.symm⟩
    | none =>
      simp only [htile, bind_eq_ok, lift_fault_eq_ok] at h
      obtain ⟨batch, hbatch, _, hm, grid, hgrid, h⟩ := h
      cases hm
      exact ⟨_, grid, by rw [hbatch]; rfl, hgrid, h.symm⟩
  cases h
  exact ⟨rfl, rfl, rfl, rfl, rfl, haxes, rfl, rfl, rfl, rfl, ⟨n, hcount, hgrid⟩,
    rfl, rfl, rfl, rfl, rfl, rfl, rfl, rfl, rfl, rfl, rfl, rfl⟩

/-! ## Copies -/

/-- The shape of an input after its batch has been set to the tile count. -/
def inputShape (ctx : Context) (s : Shape) : Shape :=
  if s.length = 4 then s.set ctx.axes.batch ctx.grid.count else s

/-- The operator that a copy has. -/
def CopiedKind (ctx : Context) (kind kind' : Operator) : Prop :=
  (∀ target, kind ≠ .reshape target) ∧ kind' = kind ∨
    ∃ target old, kind = .reshape target ∧ sourceBatch? ctx.source ctx.axes = .ok old ∧
      kind' = .reshape (rebatched ctx.axes.batch old ctx.grid.count target)

/-- How a tensor of the source is copied to a tensor of the working copy. -/
inductive CopiedAs (ctx : Context) (t c : TensorId) : Prop
  | input {x y : Tensor} (hx : ctx.source.tensors.get? t = some x) (hrole : x.spec.role = .input)
    (hy : ctx.cloned.tensors.get? c = some y)
    (hspec : y.spec = { x.spec with shape := ctx.inputShape x.spec.shape }) (hdata : y.data = none)
  | constant {x y : Tensor} (hx : ctx.source.tensors.get? t = some x)
    (hrole : x.spec.role = .constant) (hy : ctx.cloned.tensors.get? c = some y)
    (hspec : y.spec = x.spec) (hdata : y.data = some (x.data.getD []))
    (hsize : x.spec.byteSize .unbounded = .ok (x.data.getD []).length)
  | written {o o' : OpId} {op op' : Operation} (hop : ctx.source.ops.get? o = some op)
    (hout : op.output = t) (hsupported : op.kind.isSupported = true)
    (hop' : ctx.cloned.ops.get? o' = some op') (hout' : op'.output = c)
    (hkind : ctx.CopiedKind op.kind op'.kind)
    (hinputs : List.Forall₂ (fun x y => ctx.cloneOf.get? x = some y) op.inputs op'.inputs)
    {x y : Tensor} (hx : ctx.source.tensors.get? t = some x)
      (hy : ctx.cloned.tensors.get? c = some y)
    (hrole : x.spec.role = .output → y.spec.role = .output)

/-- What is true during cloning. -/
structure Copying (ctx₀ ctx : Context) : Prop where
  frame : ctx = { ctx₀ with
    warnings := ctx.warnings, cloned := ctx.cloned, cloneOf := ctx.cloneOf, visited := ctx.visited }
  wellFormed : ctx.cloned.WellFormed
  sequential : ctx.cloned.Sequential
  copied : ∀ {t c}, ctx.cloneOf.get? t = some c → ctx.CopiedAs t c
  injective : ∀ {t t' c}, ctx.cloneOf.get? t = some c → ctx.cloneOf.get? t' = some c → t = t'
  covered : ∀ {c y}, ctx.cloned.tensors.get? c = some y → ∃ t, ctx.cloneOf.get? t = some c

/-- A copy is there. -/
theorem CopiedAs.known (h : ctx.CopiedAs t c) (hwf : ctx.cloned.WellFormed) :
    ∃ y, ctx.cloned.tensors.get? c = some y := by
  cases h with
  | input _ _ hy | constant _ _ hy => exact ⟨_, hy⟩
  | written _ _ _ hop' hout' => exact hout' ▸ hwf.output_known hop'

/-- A copy stays one while the working copy grows. -/
theorem CopiedAs.grow (h : ctx.CopiedAs t c) {copies : Ledger TensorId TensorId}
    (hg : ctx.cloned.Grows g)
    (hcopies : ∀ x y, ctx.cloneOf.get? x = some y → copies.get? x = some y) :
    ({ ctx with cloned := g, cloneOf := copies } : Context).CopiedAs t c := by
  cases h with
  | input hx hrole hy hspec hdata =>
    obtain ⟨y', hy', hs, hd⟩ := hg.tensor hy
    exact .input hx hrole hy' (hs.trans hspec) (hd.trans hdata)
  | constant hx hrole hy hspec hdata hsize =>
    obtain ⟨y', hy', hs, hd⟩ := hg.tensor hy
    exact .constant hx hrole hy' (hs.trans hspec) (hd.trans hdata) hsize
  | written hop hout hsupported hop' hout' hkind hinputs hx hy hrole =>
    obtain ⟨y', hy', hs, -⟩ := hg.tensor hy
    exact .written hop hout hsupported (hg.op hop') hout' hkind (hinputs.imp fun x y => hcopies x y)
      hx hy' fun hout => hs ▸ hrole hout

theorem CopiedAs.mark (h : ctx.CopiedAs t c) (w : List Warning) (v : List OpId) :
    ({ ctx with warnings := w, visited := v } : Context).CopiedAs t c := by
  cases h with
  | input hx hrole hy hspec hdata => exact .input hx hrole hy hspec hdata
  | constant hx hrole hy hspec hdata hsize => exact .constant hx hrole hy hspec hdata hsize
  | written hop hout hsupported hop' hout' hkind hinputs hx hy hrole =>
    exact .written hop hout hsupported hop' hout' hkind hinputs hx hy hrole

/-- The state in which `c` is the copy of `t`. -/
abbrev withCopy (ctx : Context) (g : Graph) (t c : TensorId) : Context :=
  { ctx with cloned := g, cloneOf := ctx.cloneOf.record t c }

theorem Copying.record (h : Copying ctx₀ ctx) (hg : ctx.cloned.Grows g) (hwf : g.WellFormed)
    (hseq : g.Sequential) (hnew : ctx.cloneOf.get? t = none) (hfresh : c = ctx.cloned.tensors.next)
    (hsize : g.tensors.size = ctx.cloned.tensors.size + 1)
    (hcopied : (ctx.withCopy g t c).CopiedAs t c) : Copying ctx₀ (ctx.withCopy g t c) where
  frame := by conv => lhs; rw [h.frame]
  wellFormed := hwf
  sequential := hseq
  copied {t' c'} ht' := by
    have ht'' : (ctx.cloneOf.record t c).get? t' = some c' := ht'
    rw [get?_record] at ht''
    split_ifs at ht'' with heq
    · grind
    · refine (h.copied ht'').grow hg fun x y hx => ?_
      rw [get?_record, if_neg, hx]
      grind
  injective {t₁ t₂ c'} h₁ h₂ := by
    have hne : ∀ {t'}, ctx.cloneOf.get? t' ≠ some c := fun ht' => by
      obtain ⟨y, hy⟩ := (h.copied ht').known h.wellFormed
      exact Table.ne_next_of_get? hy hfresh
    grind [get?_record, injective]
  covered {c' y} hc' := by
    have hlt : c'.index < ctx.cloned.tensors.size + 1 := hsize ▸ Table.lt_of_get? hc'
    rcases Nat.lt_succ_iff_lt_or_eq.1 hlt with hold | hlast
    · obtain ⟨y', hy'⟩ := Table.exists_get? hold
      obtain ⟨t', ht'⟩ := h.covered hy'
      refine ⟨t', (get?_record ..).trans ((if_neg ?_).trans ht')⟩
      grind
    · refine ⟨t, (get?_record ..).trans ((if_pos rfl).trans ?_)⟩
      obtain ⟨i⟩ := c'
      grind [Table.next]

/-- A step of cloning that changes neither the copies nor the working copy. -/
theorem Copying.mark (h : Copying ctx₀ ctx) (w : List Warning) (v : List OpId) :
    Copying ctx₀ { ctx with warnings := w, visited := v } :=
  { h with
    frame := by conv => lhs; rw [h.frame]
    copied := fun ht => (h.copied ht).mark w v }

/-! ## Batches that stay as they are -/

/-- The batch of a graph is that of an input of rank four. -/
theorem sourceBatch?_cases (hsource : source.WellFormed) {axes : AxisMap} (haxes : axes.Valid) :
    (sourceBatch? source axes = .ok none ∧ ∀ t ∈ source.inputs, (source.shapeOf t).length ≠ 4) ∨
      ∃ t ∈ source.inputs, (source.shapeOf t).length = 4 ∧
        sourceBatch? source axes = .ok (some ((source.shapeOf t).extent axes.batch)) := by
  unfold sourceBatch?
  have hshapes : source.inputs.mapM source.shape = .ok (source.inputs.map source.shapeOf) := by
    grind [mapM_ok, shape_ok, WellFormed.mem_inputs]
  rw [hshapes, bind_ok]
  cases hfind : (source.inputs.map source.shapeOf).find? fun s => s.rank = 4 with
  | none =>
    refine .inl ⟨rfl, fun t ht hrank => ?_⟩
    have hnot := find?_eq_none.1 hfind _ (mem_map_of_mem ht)
    exact hnot (decide_eq_true hrank)
  | some s =>
    obtain ⟨t, ht, rfl⟩ := mem_map.1 (mem_of_find?_eq_some hfind)
    have hrank : (source.shapeOf t).length = 4 := by
      have hp := find?_some hfind
      exact of_decide_eq_true hp
    refine .inr ⟨t, ht, hrank, ?_⟩
    change (Size.entry _ _).map some = _
    rw [Shape.entry_ok (hrank ▸ haxes.batch_lt)]
    rfl

/-- The inputs of the source have as many samples as the grid has tiles. -/
def KeepsBatch (ctx : Context) : Prop :=
  ∀ t ∈ ctx.source.inputs, (ctx.source.shapeOf t).length = 4 →
    (ctx.source.shapeOf t).extent ctx.axes.batch = ctx.grid.count

/-- The batch of an input stays as it is. -/
theorem KeepsBatch.inputShape_eq (h : ctx.KeepsBatch) (ht : t ∈ ctx.source.inputs) :
    ctx.inputShape (ctx.source.shapeOf t) = ctx.source.shapeOf t := by
  unfold inputShape
  split_ifs with hrank
  · exact Shape.set_of_extent_eq (h t ht hrank)
  · rfl

/-- A copy has the operator of the source. -/
theorem KeepsBatch.copiedKind_eq (h : ctx.KeepsBatch) (haxes : ctx.axes.Valid)
    (hsource : ctx.source.WellFormed) {kind kind' : Operator} (hkind : ctx.CopiedKind kind kind') :
    kind' = kind := by
  rcases hkind with ⟨-, heq⟩ | ⟨target, old, rfl, hold, rfl⟩
  · exact heq
  · refine congrArg Operator.reshape ?_
    unfold rebatched
    split_ifs with hc
    · rcases sourceBatch?_cases hsource haxes with ⟨hnone, -⟩ | ⟨t, ht, hr, hb⟩
      · grind
      · cases hold.symm.trans hb
        rw [h t ht hr] at hc
        grind [List.set_getElem_self]
    · rfl

theorem Copying.keepsBatch (h : Copying ctx₀ ctx) (hb : ctx₀.KeepsBatch) : ctx.KeepsBatch := by
  unfold KeepsBatch
  rw [h.frame]
  exact hb

/-- A copy has the shape of the tensor it is of. -/
theorem Copying.shape_eq (h : Copying ctx₀ ctx) (hb : ctx₀.KeepsBatch) (haxes : ctx₀.axes.Valid)
    (hsource : ctx₀.source.WellFormed) (ht : ctx.cloneOf.get? t = some c) :
    ctx.cloned.shapeOf c = ctx₀.source.shapeOf t := by
  have hsrc : ctx.source = ctx₀.source := by rw [h.frame]
  have haxes' : ctx.axes.Valid := by rw [h.frame]; exact haxes
  have hsource' : ctx.source.WellFormed := hsrc ▸ hsource
  have hb' := h.keepsBatch hb
  rw [← hsrc]
  induction c using Handle.induction generalizing t with
  | _ c ih =>
    cases h.copied ht with
    | @input x y hx hrole hy hspec hdata =>
      grind [shapeOf_eq, KeepsBatch.inputShape_eq, WellFormed.mem_inputs]
    | @constant x y hx hrole hy hspec hdata => rw [shapeOf_eq hy, hspec, shapeOf_eq hx]
    | @written o o' op op' hop hout hsupported hop' hout' hkind hinputs =>
      subst hout hout'
      -- The inputs of the copy come before its output.
      have hshapes : op.inputs.map ctx.source.shapeOf = op'.inputs.map ctx.cloned.shapeOf :=
        map_eq_map_of_forall₂ hinputs fun x y _ hy hxy =>
          (ih _ (h.sequential.input_lt hop' hy) hxy).symm
      have hs := h.wellFormed.op_shape hop'
      rw [hb'.copiedKind_eq haxes' hsource' hkind, ← hshapes, hsource'.op_shape hop] at hs
      exact (Except.ok.inj hs).symm

/-- The state at another limit. -/
def under (ctx : Context) (lim : Limit) : Context := { ctx with limit := lim }

theorem under_self (h : ctx.limit = lim) : ctx.under lim = ctx := by
  subst h
  rfl

end Context

end CanvasFusion
