import CanvasFusion.Proofs.Fusion.Coverage
import CanvasFusion.Proofs.Fusion.Interface
import CanvasFusion.Proofs.Fusion.Matching

/-!
# The order of construction does not matter

Tensors and operations are numbered as a graph is built, and all walks of the pass follow these
numbers. Two graphs that differ in numbers only have the same computable tensors
(`Iso.computable_iff`), and their working copies match (`Cloned.matches_cloned`), though they list
their tensors and operations in different orders. From there on nothing depends on the order.
-/

namespace CanvasFusion

open CanvasFusion.Graph

/-! ## Renumbered sources -/

namespace Graph.Iso

variable {g g' : Graph} (φ : g.Iso g') {t : TensorId} {o : OpId}

section WellFormed

variable (hg : g.WellFormed) (hg' : g'.WellFormed)

include hg hg'

theorem computable (ht : g.Computable t) : g'.Computable (φ.tensor t) := by
  induction ht with
  | source ht => exact .source (φ.mem_sources hg hg' ht)
  | written hop hslice hsoftmax hin ih =>
    refine .written (φ.op_eq hop) hslice hsoftmax fun y hy => ?_
    obtain ⟨x, hx, rfl⟩ := List.mem_map.1 hy
    exact ih x hx

theorem computable_iff : g'.Computable (φ.tensor t) ↔ g.Computable t := by
  refine ⟨fun ht => ?_, φ.computable hg hg'⟩
  have h := φ.symm.computable hg' hg ht
  rwa [show φ.symm.tensor (φ.tensor t) = t from φ.tensor.symm_apply_apply t] at h

theorem passedOver {name : String} (ho : g.PassedOver o name) : g'.PassedOver (φ.op o) name := by
  obtain ⟨op, hop, hkind, hin, hname⟩ := ho
  refine ⟨_, φ.op_eq hop, hkind, fun y hy => ?_, hname⟩
  obtain ⟨x, hx, rfl⟩ := List.mem_map.1 hy
  exact φ.computable hg hg' (hin x hx)

include φ

/-- The batch is that of the first input of rank four, and the inputs keep their order. -/
theorem sourceBatch?_eq (axes : AxisMap) : sourceBatch? g' axes = sourceBatch? g axes := by
  have hshapes : ∀ {g : Graph}, g.WellFormed →
      g.inputs.mapM g.shape = .ok (g.inputs.map g.shapeOf) := fun {g} hg => mapM_ok fun t ht => by
    obtain ⟨x, hx, -⟩ := hg.mem_inputs.1 ht
    exact shape_ok hx
  unfold sourceBatch?
  rw [hshapes hg, hshapes hg', φ.inputs_eq, List.map_map,
    show g'.shapeOf ∘ φ.tensor = g.shapeOf from funext φ.shape_eq]

theorem sampleCount_eq (options : Options) :
    Context.sampleCount g' options = Context.sampleCount g options := by
  unfold Context.sampleCount
  rw [φ.sourceBatch?_eq hg hg']

end WellFormed

end Graph.Iso

/-- What a warning says, whichever operation it is about: the operator, and the reason if it gives
one. -/
def Warning.wording : Warning → String × Option String
  | .unsupportedOperator _ kind => (kind, none)
  | .unbalancedBranches _ kind reason => (kind, some reason)

/-- Where a tensor went and what it looks like there. -/
def TensorFusion.layout (i : TensorFusion) : Placement × Pair Nat × Shape :=
  (i.placement, i.gap, i.canvasShape)

namespace Context

variable {ctx₀ ctx₀' ctx ctx' : Context} {t c c' d d' : TensorId} {o o' : OpId}

/-! ## Working copies of renumbered sources -/

/-- Copies of tensors that correspond. -/
def Twins (ρ : TensorId → TensorId) (ctx ctx' : Context) (c c' : TensorId) : Prop :=
  ∃ t, ctx.cloneOf.get? t = some c ∧ ctx'.cloneOf.get? (ρ t) = some c'

/-- Copies of operations that correspond. -/
def TwinOps (σ : OpId → OpId) (ctx ctx' : Context) (o o' : OpId) : Prop :=
  ∃ p, ctx.Copies p o ∧ ctx'.Copies (σ p) o'

/-- Copies of one operator are the same, if the batches are. -/
theorem CopiedKind.unique {kind k k' : Operator} (h : ctx.CopiedKind kind k)
    (h' : ctx'.CopiedKind kind k') (haxes : ctx.axes = ctx'.axes) (hgrid : ctx.grid = ctx'.grid)
    (hbatch : sourceBatch? ctx'.source ctx'.axes = sourceBatch? ctx.source ctx.axes) : k = k' := by
  rcases h with ⟨hne, rfl⟩ | ⟨target, old, rfl, hold, rfl⟩
  · rcases h' with ⟨-, rfl⟩ | ⟨target, old, rfl, -⟩
    · rfl
    · exact absurd rfl (hne target)
  · rcases h' with ⟨hne, -⟩ | ⟨target', old', heq, hold', rfl⟩
    · exact absurd rfl (hne target)
    · grind

/-- An input is copied with the new batch, and a constant as it is. -/
theorem Cloned.shape_source (h : Cloned ctx₀ ctx) (hg : ctx₀.source.WellFormed)
    (ht : ctx.cloneOf.get? t = some c) (hmem : t ∈ ctx₀.source.sources) {x : Tensor}
    (hx : ctx₀.source.tensors.get? t = some x) : ctx.cloned.shapeOf c =
      if x.spec.role = .input then ctx.inputShape x.spec.shape else x.spec.shape := by
  rw [← h.source_eq] at hg hmem hx
  cases h.copying.copied ht with
  | input hx' hrole hy hspec =>
    cases hx.symm.trans hx'
    rw [shapeOf_eq hy, hspec, if_pos hrole]
  | constant hx' hrole hy hspec =>
    cases hx.symm.trans hx'
    rw [shapeOf_eq hy, hspec, if_neg (by simp [hrole])]
  | written hop hout => exact absurd (hout ▸ hmem) (hg.not_source_of_output hop)

section Copies

variable (φ : ctx₀.source.Iso ctx₀'.source) (h : Cloned ctx₀ ctx) (h' : Cloned ctx₀' ctx')
  (hg : ctx₀.source.WellFormed) (hg' : ctx₀'.source.WellFormed)

include h h'

theorem Twins.unique (hc : Twins φ.tensor ctx ctx' c c') (hd : Twins φ.tensor ctx ctx' d d') :
    c = d ↔ c' = d' := by
  obtain ⟨t, ht, ht'⟩ := hc
  obtain ⟨u, hu, hu'⟩ := hd
  constructor
  · rintro rfl
    cases h.copying.injective ht hu
    exact Option.some.inj (ht'.symm.trans hu')
  · rintro rfl
    cases φ.tensor.injective (h'.copying.injective ht' hu')
    exact Option.some.inj (ht.symm.trans hu)

include hg hg'

/-- What corresponds to a tensor with a copy has one too. -/
theorem exists_twin (ht : ctx.cloneOf.get? t = some c) :
    ∃ c', ctx'.cloneOf.get? (φ.tensor t) = some c' := by
  refine Option.ne_none_iff_exists'.1 (h'.computable_iff.2 ?_)
  exact φ.computable hg hg' (h.computable_iff.1 (by simp [ht]))

/-- What corresponds to an operation with a copy has one too. -/
theorem exists_twinOp (ho : ctx.Copies o o') : ∃ p, ctx'.Copies (φ.op o) p := by
  obtain ⟨op, op', hop, -, -, -, hout⟩ := ho
  rw [h.source_eq] at hop
  have hcomputable : ctx₀.source.Computable op.output := h.computable_iff.1 (by simp [hout])
  have hcomputable := φ.computable hg hg' hcomputable
  exact (h'.existsUnique_copy hg' (φ.op_eq hop) hcomputable).exists

variable (haxes : ctx.axes = ctx'.axes) (hgrid : ctx.grid = ctx'.grid)

include haxes hgrid

/-- Copies of corresponding operations have one operator, and read and write copies that
correspond. -/
theorem TwinOps.op (ho : TwinOps φ.op ctx ctx' o o') :
    ∃ op op', ctx.cloned.ops.get? o = some op ∧ ctx'.cloned.ops.get? o' = some op' ∧
      op.kind = op'.kind ∧ List.Forall₂ (Twins φ.tensor ctx ctx') op.inputs op'.inputs ∧
      Twins φ.tensor ctx ctx' op.output op'.output := by
  obtain ⟨p, ⟨q, op, hq, hop, hkind, hinputs, hout⟩, q', op', hq', hop', hkind', hinputs', hout'⟩ :=
    ho
  rw [h.source_eq] at hq
  rw [h'.source_eq, φ.op_eq hq, Option.some_inj] at hq'
  subst hq'
  have hbatch : sourceBatch? ctx'.source ctx'.axes = sourceBatch? ctx.source ctx.axes := by
    rw [h.source_eq, h'.source_eq, ← haxes, φ.sourceBatch?_eq hg hg']
  have hinputs' := List.forall₂_map_left_iff.1 hinputs'
  exact ⟨op, op', hop, hop', hkind.unique hkind' haxes hgrid hbatch,
    forall₂_comp hinputs.flip hinputs' fun hx hy => ⟨_, hx, hy⟩, q.output, hout, hout'⟩

/-- Copies of corresponding tensors have the same shape, along the order of the working copy. -/
theorem Twins.shape_eq (hc : Twins φ.tensor ctx ctx' c c') :
    ctx.cloned.shapeOf c = ctx'.cloned.shapeOf c' := by
  induction c using Handle.induction generalizing c' with
  | _ c ih =>
    obtain ⟨t, ht, ht'⟩ := id hc
    rcases h.copying.sources_or_copies (h.source_eq ▸ hg) ht with
      ⟨hmem, -⟩ | ⟨p, o, q, op, hq, rfl, hop, rfl, hcopies⟩
    · rw [h.source_eq] at hmem
      obtain ⟨x, hx, -⟩ := hg.mem_sources.1 hmem
      obtain ⟨x', hx', hspec⟩ := φ.tensor_eq hx
      grind [inputShape, Cloned.shape_source, Iso.mem_sources]
    · -- The shape of an output follows from the operator and the shapes of the inputs.
      obtain ⟨o', hcopies'⟩ := exists_twinOp φ h h' hg hg' hcopies
      obtain ⟨op₁, op', hop₁, hop', hkind, hinputs, hout⟩ :=
        TwinOps.op φ h h' hg hg' haxes hgrid ⟨p, hcopies, hcopies'⟩
      cases hop.symm.trans hop₁
      obtain rfl : op'.output = c' := (Twins.unique φ h h' hout hc).1 rfl
      have hshapes : op.inputs.map ctx.cloned.shapeOf = op'.inputs.map ctx'.cloned.shapeOf :=
        map_eq_map_of_forall₂ hinputs fun x x' hx _ hR =>
          ih x (h.copying.sequential.input_lt hop hx) hR
      have hinfer := h.copying.wellFormed.op_shape hop
      rw [hkind, hshapes, h'.copying.wellFormed.op_shape hop'] at hinfer
      exact (Except.ok.inj hinfer).symm

variable {done done' : List TensorId} (hm : Mirrors done ctx) (hm' : Mirrors done' ctx')

include hm hm'

/-- **The working copies match.** -/
theorem Cloned.matches_cloned : ctx.cloned.Matches (Twins φ.tensor ctx ctx') (TwinOps φ.op ctx ctx')
    ctx'.cloned where
  tensor {c c'} hc := by
    have hshape := Twins.shape_eq φ h h' hg hg' haxes hgrid hc
    obtain ⟨t, ht, ht'⟩ := hc
    obtain ⟨x, y, hx, hy, -, hrole⟩ := hm.copy ht
    obtain ⟨x', y', hx', hy', -, hrole'⟩ := hm'.copy ht'
    rw [h.source_eq] at hx
    rw [h'.source_eq] at hx'
    obtain ⟨x₁, hx₁, hspec⟩ := φ.tensor_eq hx
    grind [shapeOf_eq]
  unique hc hd := Twins.unique φ h h' hc hd
  left hy := by
    obtain ⟨t, ht⟩ := h.copying.covered hy
    obtain ⟨c', hc'⟩ := exists_twin φ h h' hg hg' ht
    exact ⟨c', t, ht, hc'⟩
  right hy := by
    obtain ⟨t, ht⟩ := h'.copying.covered hy
    obtain ⟨c, hc⟩ := exists_twin φ.symm h' h hg' hg ht
    exact ⟨c, φ.tensor.symm t, hc, by rwa [φ.tensor.apply_symm_apply]⟩
  op ho := TwinOps.op φ h h' hg hg' haxes hgrid ho
  op_left hop := by
    obtain ⟨p, hp, -⟩ := h.existsUnique_original hg hop
    obtain ⟨o', ho'⟩ := exists_twinOp φ h h' hg hg' hp
    exact ⟨o', p, hp, ho'⟩
  op_right hop := by
    obtain ⟨p, hp, -⟩ := h'.existsUnique_original hg' hop
    obtain ⟨o, ho⟩ := exists_twinOp φ.symm h' h hg' hg hp
    exact ⟨o, φ.op.symm p, ho, by rwa [φ.op.apply_symm_apply]⟩

end Copies

/-! ## Runs on renumbered sources -/

/-- A warning is about an operation of the source: it names the operation if that was passed over,
and its copy if that is unbalanced. -/
def Concerns (ctx : Context) (o : OpId) : Warning → Prop
  | .unsupportedOperator o' _ => o' = o
  | .unbalancedBranches o' _ _ => ctx.Copies o o'

theorem concerns_congr (h : ctx.Copies = ctx'.Copies) : ctx.Concerns = ctx'.Concerns := by
  funext o w
  cases w with
  | unsupportedOperator => rfl
  | unbalancedBranches => exact congrFun (congrFun h o) _

section Runs

variable {P : Prop} {lim : Limit} {options : Options} {ctx₁ ctx₂ ctx₃ ctx₁' ctx₂' ctx₃' : Context}
  (φ : ctx₀.source.Iso ctx₀'.source) (hg : ctx₀.source.WellFormed) (hg' : ctx₀'.source.WellFormed)
  (h₀ : Starts lim ctx₀.source options ctx₀) (h₀' : Starts lim ctx₀'.source options ctx₀')
  (h : Run P ctx₀ ctx₁ ctx₂ ctx₃) (h' : Run P ctx₀' ctx₁' ctx₂' ctx₃')

include φ hg hg' h₀ h₀'

/-- The number of samples is the same, so the grid is. -/
theorem grid_eq_of_iso : ctx₀.grid = ctx₀'.grid := by
  obtain ⟨n, hn, hgrid⟩ := h₀.count
  obtain ⟨n', hn', hgrid'⟩ := h₀'.count
  rw [φ.sampleCount_eq hg hg', hn] at hn'
  cases hn'
  exact Except.ok.inj (hgrid.symm.trans hgrid')

include h h'

/-- **The gaps of both runs are settled on matching working copies.** -/
theorem Run.matched : Matched (Twins φ.tensor ctx₁ ctx₁') (TwinOps φ.op ctx₁ ctx₁') ctx₃ ctx₃' := by
  have hgrid := grid_eq_of_iso φ hg hg' h₀ h₀'
  have haxes : ctx₀.axes = ctx₀'.axes := h₀.axes_eq.trans h₀'.axes_eq.symm
  refine ⟨?_, by rw [h.axes_eq, h'.axes_eq, haxes], by rw [h.grid_eq, h'.grid_eq, hgrid],
    h.emitted.emitting.settled, h'.emitted.emitting.settled⟩
  rw [h.cloned_eq, h'.cloned_eq]
  exact h.cloned.matches_cloned φ h'.cloned hg
    hg' (by rw [h.cloned.axes_eq, h'.cloned.axes_eq, haxes])
    (by rw [h.cloned.grid_eq, h'.cloned.grid_eq, hgrid]) h.cloned.mirrors h'.cloned.mirrors

/-- What one run says about an operation, the other says about the one that corresponds to it. -/
theorem Run.warns {o : OpId} {text : String × Option String}
    (hw : ∃ w ∈ ctx₃.warnings, ctx₁.Concerns o w ∧ w.wording = text) :
    ∃ w ∈ ctx₃'.warnings, ctx₁'.Concerns (φ.op o) w ∧ w.wording = text := by
  obtain ⟨w, hmem, hconcerns, rfl⟩ := hw
  cases w with
  | unsupportedOperator p name =>
    obtain rfl : p = o := hconcerns
    rw [h.mem_warnings] at hmem
    have hmem' := (h'.mem_warnings _ _).2 (φ.passedOver hg hg' hmem)
    exact ⟨.unsupportedOperator (φ.op p) name, hmem', rfl, rfl⟩
  | unbalancedBranches p name reason =>
    have hcopies : ctx₁.Copies o p := hconcerns
    obtain ⟨p', hcopies'⟩ := exists_twinOp φ h.cloned h'.cloned hg hg' hcopies
    have hm := h.matched φ hg hg' h₀ h₀' h'
    rw [hm.left.mem_warnings, hm.unbalanced_iff ⟨o, hcopies, hcopies'⟩,
      ← hm.right.mem_warnings] at hmem
    exact ⟨.unbalancedBranches p' name reason, hmem, hcopies', rfl⟩

end Runs

/-- Copies of corresponding tensors went the same way. -/
theorem Matched.layout_eq {R : TensorId → TensorId → Prop} {S : OpId → OpId → Prop}
    (h : Matched R S ctx ctx') (hc : R c c') :
    (ctx.fusionOf c).layout = (ctx'.fusionOf c').layout := by
  unfold fusionOf TensorFusion.layout
  rw [h.isCanvas_eq hc, h.gapOf_eq hc, h.canvasShapes_eq hc]

end Context

open Context

/-- **The order of construction does not matter.** Take two graphs that differ in the numbers of
their tensors and operations only, and fuse both with the same options. If both runs succeed, then
corresponding tensors are placed alike, with the same gap and the same canvas shape. The runs count
as many operations on the canvas and on batched data, and as many adapters of each kind. They warn
about corresponding operations, in the same words. -/
theorem fuse_renumbered {lim lim₁ lim₂ : Limit} {calls calls' : List Graph.Call} {options : Options}
    {r r' : Fused} (φ : (Graph.build lim₁ calls).Iso (Graph.build lim₂ calls'))
    (h : fuse lim options (Graph.build lim₁ calls) = .ok r)
    (h' : fuse lim options (Graph.build lim₂ calls') = .ok r') :
    ∃ ctx₀ ctx ctx₀' ctx',
      Context.initial lim (Graph.build lim₁ calls) options = .ok ctx₀ ∧
      Pass.fuse.run ctx₀ = (.ok r, ctx) ∧
      Context.initial lim (Graph.build lim₂ calls') options = .ok ctx₀' ∧
      Pass.fuse.run ctx₀' = (.ok r', ctx') ∧
      (∀ t, (r'.info.get? (φ.tensor t)).map TensorFusion.layout =
        (r.info.get? t).map TensorFusion.layout) ∧
      r'.report.counters.fusedOps = r.report.counters.fusedOps ∧
      r'.report.counters.batchedOps = r.report.counters.batchedOps ∧
      r'.report.counters.tileAdapters = r.report.counters.tileAdapters ∧
      r'.report.counters.defuseAdapters = r.report.counters.defuseAdapters ∧
      r'.report.counters.masks = r.report.counters.masks ∧
      ∀ o text, (∃ w ∈ r'.report.warnings, ctx'.Concerns (φ.op o) w ∧ w.wording = text) ↔
        ∃ w ∈ r.report.warnings, ctx.Concerns o w ∧ w.wording = text := by
  have hg := Graph.wellFormed_build lim₁ calls
  have hg' := Graph.wellFormed_build lim₂ calls'
  generalize Graph.build lim₁ calls = source at *
  generalize Graph.build lim₂ calls' = source' at *
  obtain ⟨ctx₀, ctx₁, ctx₂, ctx₃, ctx, hinit, hrun, h₀, hphases, hend⟩ := exists_run hg h
  obtain ⟨ctx₀', ctx₁', ctx₂', ctx₃', ctx', hinit', hrun', h₀', hphases', hend'⟩ :=
    exists_run hg' h'
  obtain rfl := h₀.source_eq
  obtain rfl := h₀'.source_eq
  have hm := hphases.matched φ hg hg' h₀ h₀' hphases'
  have hlimit : ctx₃.limit = ctx₃'.limit := by
    rw [hphases.limit_eq, hphases'.limit_eq, h₀.limit, h₀'.limit]
  obtain ⟨hfused, hbatched, htiles, hdefuses, hmasks⟩ :=
    hm.counters_eq (hphases.finished h₀) (hphases'.finished h₀') hlimit
  refine ⟨ctx₀, ctx, ctx₀', ctx', hinit, hrun, hinit', hrun', fun t => ?_, ?_, ?_, ?_, ?_, ?_,
    fun o text => ?_⟩
  · rw [hend.info, hend'.info, hphases.cloneOf_eq, hphases'.cloneOf_eq]
    cases ht : ctx₁.cloneOf.get? t with
    | none =>
      have hnone : ctx₁'.cloneOf.get? (φ.tensor t) = none := by
        by_contra hne
        have hcomputable := (φ.computable_iff hg hg').1 (hphases'.cloned.computable_iff.1 hne)
        exact hphases.cloned.computable_iff.2 hcomputable ht
      rw [hnone]
      rfl
    | some c =>
      obtain ⟨c', hc'⟩ := exists_twin φ hphases.cloned hphases'.cloned hg hg' ht
      rw [hc']
      exact congrArg some (hm.layout_eq ⟨t, ht, hc'⟩).symm
  · rw [hend.report, hend'.report]
    exact hfused.symm
  · rw [hend.report, hend'.report]
    exact hbatched.symm
  · rw [hend.report, hend'.report]
    exact htiles.symm
  · rw [hend.report, hend'.report]
    exact hdefuses.symm
  · rw [hend.report, hend'.report]
    exact hmasks.symm
  · rw [hend.report, hend'.report, concerns_congr (hphases.copies_eq hend),
      concerns_congr (hphases'.copies_eq hend')]
    refine ⟨fun hw => ?_, hphases.warns φ hg hg' h₀ h₀' hphases'⟩
    have hback := hphases'.warns φ.symm hg' hg h₀' h₀ hphases hw
    rwa [show φ.symm.op (φ.op o) = o from φ.op.symm_apply_apply o] at hback

/-- Pairs of neighbours, which are padded, made positive and sliced. -/
def padFirst : List Graph.Call :=
  [.createTensor ⟨.f32, [2, 1, 1, 4], .input, none⟩,
    .emit (.pool2d ⟨.max, ⟨1, 2⟩, ⟨1, 1⟩, .both ⟨0, 0⟩, .nchw⟩) [⟨0⟩] .transient,
    .emit (.pad ⟨[0, 0, 0, 1], [0, 0, 0, 0], .zero⟩) [⟨1⟩] .output,
    .emit (.activation .relu) [⟨1⟩] .output,
    .emit (.slice [0, 0, 0, 0] [2, 1, 1, 2]) [⟨1⟩] .output]

/-- The same, but sliced first and padded last. -/
def padLast : List Graph.Call :=
  [.createTensor ⟨.f32, [2, 1, 1, 4], .input, none⟩,
    .emit (.pool2d ⟨.max, ⟨1, 2⟩, ⟨1, 1⟩, .both ⟨0, 0⟩, .nchw⟩) [⟨0⟩] .transient,
    .emit (.slice [0, 0, 0, 0] [2, 1, 1, 2]) [⟨1⟩] .output,
    .emit (.activation .relu) [⟨1⟩] .output,
    .emit (.pad ⟨[0, 0, 0, 1], [0, 0, 0, 0], .zero⟩) [⟨1⟩] .output]

/-- Padding and slicing change places. -/
def padLater : (build .word64 padFirst).Iso (build .word64 padLast) where
  tensor := Equiv.swap ⟨2⟩ ⟨4⟩
  op := Equiv.swap ⟨1⟩ ⟨3⟩
  contents_eq
    | ⟨0⟩ | ⟨1⟩ | ⟨2⟩ | ⟨3⟩ | ⟨4⟩ => by decide +kernel
    | ⟨n + 5⟩ => by
      have hsize : (build .word64 padFirst).tensors.size = 5 := by decide +kernel
      have hsize' : (build .word64 padLast).tensors.size = 5 := by decide +kernel
      rw [Equiv.swap_apply_of_ne_of_ne (by simp) (by simp), contents, contents,
        Table.get?_eq_none (by simp [hsize']), Table.get?_eq_none (by simp [hsize])]
  ops_eq
    | ⟨0⟩ | ⟨1⟩ | ⟨2⟩ | ⟨3⟩ => by decide +kernel
    | ⟨n + 4⟩ => by
      have hsize : (build .word64 padFirst).ops.size = 4 := by decide +kernel
      have hsize' : (build .word64 padLast).ops.size = 4 := by decide +kernel
      rw [Equiv.swap_apply_of_ne_of_ne (by simp) (by simp), Table.get?_eq_none (by simp [hsize']),
        Table.get?_eq_none (by simp [hsize]), Option.map_none]
  inputs_eq := by decide +kernel

theorem fuse_renumbered_padLater : ∃ r r' ctx₀' ctx',
    fuse .word64 .standard (Graph.build .word64 padFirst) = .ok r ∧
    fuse .word64 .standard (Graph.build .word64 padLast) = .ok r' ∧
    Context.initial .word64 (Graph.build .word64 padLast) .standard = .ok ctx₀' ∧
    Pass.fuse.run ctx₀' = (.ok r', ctx') ∧
    (r'.info.get? ⟨4⟩).map TensorFusion.layout = (r.info.get? ⟨2⟩).map TensorFusion.layout ∧
    r'.report.counters.fusedOps = r.report.counters.fusedOps ∧
    r'.report.counters.batchedOps = r.report.counters.batchedOps ∧
    r'.report.counters.tileAdapters = r.report.counters.tileAdapters ∧
    r'.report.counters.defuseAdapters = r.report.counters.defuseAdapters ∧
    r'.report.counters.masks = r.report.counters.masks ∧
    .unsupportedOperator ⟨3⟩ "slice" ∈ r.report.warnings ∧
    ∃ w ∈ r'.report.warnings, ctx'.Concerns ⟨1⟩ w ∧ w.wording = ("slice", none) := by
  obtain ⟨r, hr⟩ :=
    exists_fused .word64 .standard (Graph.build .word64 padFirst) (by decide +kernel)
  obtain ⟨r', hr'⟩ :=
    exists_fused .word64 .standard (Graph.build .word64 padLast) (by decide +kernel)
  have hwarning : .unsupportedOperator ⟨3⟩ "slice" ∈ r.report.warnings := by
    have h : (fuse .word64 .standard (Graph.build .word64 padFirst)).toOption.map
      (·.report.warnings) = some [.unsupportedOperator ⟨3⟩ "slice"] := by decide +kernel
    simp only [hr, Except.toOption, Option.map_some, Option.some_inj] at h
    simp [h]
  obtain ⟨_, _, ctx₀', ctx', -, -, hinit', hrun', hlayout, hfused, hbatched, htiles,
    hdefuses, hmasks, hwarnings⟩ := fuse_renumbered padLater hr hr'
  exact ⟨r, r', ctx₀', ctx', hr, hr', hinit', hrun', hlayout ⟨2⟩, hfused, hbatched,
    htiles, hdefuses, hmasks, hwarning, (hwarnings ⟨3⟩ _).2 ⟨_, hwarning, rfl, rfl⟩⟩

end CanvasFusion
