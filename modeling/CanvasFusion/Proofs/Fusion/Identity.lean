import CanvasFusion.Proofs.Fusion.Coverage
import CanvasFusion.Proofs.Fusion.Demand
import CanvasFusion.Proofs.Fusion.OneTile

/-!
# A batch of one sample

With one sample there is nothing to put side by side, and the pass should do nothing.

The three phases are taken in turn. The working copy keeps all shapes, since one sample replaces one
(`StartsFlat.copyable`), so what the source was checked for at the limit of the run holds of the
copy. Gap inference stays flat. Emission then adds one tensor for each source and one tensor with
one operation for each operation of the copy (`Echoes`), and what it checks has been checked before.
-/

namespace CanvasFusion

open List Option CanvasFusion.Graph Pass Ledger

/-! ## What is new in a graph -/

namespace Graph

variable {g : Graph} {spec : TensorSpec} {kind : Operator} {inputs : List TensorId}

/-- Only the output of an operation is new, among the tensors. -/
theorem known_of_emitted {t : TensorId} {y : Tensor}
    (h : (g.emitted spec kind inputs).tensors.get? t = some y) :
    t = g.tensors.next ∨ ∃ x, g.tensors.get? t = some x := by
  grind [emitted, withOp_get?, map_eq_some_iff, get?_withTensor]

end Graph

/-! ## The start -/

theorem Grid.ofCount_one {lim : Limit} (h : lim.Holds 4) :
    Grid.ofCount lim 1 = .ok ⟨1, .both 1⟩ := by
  have hmul : lim.mul (Nat.sqrt 1 + 1) (Nat.sqrt 1 + 1) = .ok 4 := if_pos h
  unfold Grid.ofCount closestFactors
  simp only [max_self, hmul, bind_ok]
  rfl

/-- There is one sample, also if no input has a batch. -/
theorem HasBatch.sampleCount_eq {source : Graph} {options : Options} (h : HasBatch source options 1)
    (hsource : source.WellFormed) (haxes : options.axes.Valid) :
    Context.sampleCount source options = .ok 1 := by
  unfold Context.sampleCount
  rcases h.tileCount with hnone | hsome
  · rw [hnone]
    rcases Context.sourceBatch?_cases hsource haxes with ⟨hbatch, -⟩ | ⟨t, ht, hrank, hbatch⟩
    · rw [hbatch]
      rfl
    · rw [hbatch, h.inputs t ht hrank]
      rfl
  · rw [hsome]

namespace Context

variable {lim : Limit} {source : Graph} {options : Options} {ctx ctx₀ ctx₁ ctx₂ ctx₃ ctx' : Context}
  {t c f : TensorId} {o o' : OpId} {op op' : Operation}

/-- A run over one sample starts. -/
theorem exists_initial (hsource : source.WellFormed) (hvalid : options.validate = .ok ())
    (hbatch : HasBatch source options 1) (hlim : lim.Holds 4) :
    ∃ ctx₀, initial lim source options = .ok ctx₀ := by
  have haxes : options.axes.Valid := by
    obtain ⟨_, haxes, -⟩ := bind_eq_ok.1 hvalid
    exact AxisMap.valid_of_validate haxes
  rcases @initial_cases lim source options hsource with
    ⟨e, herr, -⟩ | hinit | ⟨n, e, hcount, hgrid, -⟩
  · grind
  · exact hinit
  · grind [Grid.ofCount_one, HasBatch.sampleCount_eq]

/-- What a run over one sample starts from. -/
structure StartsFlat (lim : Limit) (source : Graph) (options : Options) (ctx₀ : Context) : Prop
    extends Starts lim source options ctx₀ where
  wellFormed : source.WellFormed
  grid : ctx₀.grid = ⟨1, .both 1⟩
  batch : ctx₀.KeepsBatch
  copyable : ctx₀.Copyable
  extents : ∀ t, ∀ e ∈ source.shapeOf t, lim.Holds e

theorem Starts.flat (h₀ : Starts lim source options ctx₀) (hsource : source.WellFormed)
    (hchecked : source.Checked lim) (hbatch : HasBatch source options 1) (hlim : lim.Holds 4)
    (hextents : ∀ t, ∀ e ∈ source.shapeOf t, lim.Holds e)
    (hdata : ∀ t x, source.tensors.get? t = some x → x.spec.role = .constant → x.data ≠ none) :
    StartsFlat lim source options ctx₀ := by
  have hkeeps : ctx₀.KeepsBatch := h₀.keepsBatch hsource hbatch fun _ _ _ => Nat.one_pos
  have hsource' : ctx₀.source.WellFormed := h₀.source_eq ▸ hsource
  refine ⟨h₀, hsource, ?_, hkeeps, ⟨fun {t x} hx hrole => ?_, fun {ctx o op kind inputs} h hop hkind
    hinputs => ?_⟩, hextents⟩
  · obtain ⟨n, hcount, hgrid⟩ := h₀.count
    rw [hbatch.sampleCount_eq hsource (h₀.axes_eq ▸ h₀.axes)] at hcount
    cases hcount
    rw [Grid.ofCount_one hlim] at hgrid
    exact (Except.ok.inj hgrid).symm
  · rw [h₀.source_eq] at hx
    obtain ⟨bytes, hbytes⟩ := ne_none_iff_exists'.1 (hdata t x hx hrole)
    grind [limit, Checked.data]
  · have hsrc : ctx.source = ctx₀.source := by rw [h.frame]
    have haxes : ctx.axes.Valid := by rw [h.frame]; exact h₀.axes
    have hshapes : op.inputs.map ctx₀.source.shapeOf = inputs.map ctx.cloned.shapeOf :=
      map_eq_map_of_forall₂ hinputs fun x y _ _ hxy => (h.shape_eq hkeeps h₀.axes hsource' hxy).symm
    rw [h₀.limit, (h.keepsBatch hkeeps).copiedKind_eq haxes (hsrc ▸ hsource') hkind, ← hshapes]
    rw [h₀.source_eq] at hop ⊢
    exact ⟨_, hchecked.op hop⟩

/-! ## Gap inference -/

section

variable (h₀ : StartsFlat lim source options ctx₀)

include h₀

theorem StartsFlat.source_wellFormed (h : Cloned ctx₀ ctx₁) : ctx₁.source.WellFormed := by
  rw [h.source_eq, h₀.source_eq]
  exact h₀.wellFormed

theorem StartsFlat.shapeOf_clone (h : Cloned ctx₀ ctx₁) (ht : ctx₁.cloneOf.get? t = some c) :
    ctx₁.cloned.shapeOf c = source.shapeOf t := by
  have hshape := h.copying.shape_eq h₀.batch h₀.axes (h₀.source_eq ▸ h₀.wellFormed) ht
  rw [hshape, h₀.source_eq]

theorem StartsFlat.flat_cloned (h : Cloned ctx₀ ctx₁) : ctx₁.Flat := by
  have hf := h.fresh h₀.toStarts
  have hgaps : ctx₁.gaps = .empty := hf.gaps
  have hplacements : ctx₁.placements = .empty := hf.placements
  have hplans : ctx₁.plans = .empty := hf.plans
  refine ⟨?_, fun c e he => ?_, fun hv => (not_get?_empty hgaps hv).elim,
    fun hp => (not_get?_empty hplacements hp).elim,
    fun hp => (not_get?_empty hplans hp).elim, h.backwardPasses h₀.toStarts⟩
  · rw [h.copying.frame]
    exact h₀.grid
  · cases hz : ctx₁.cloned.tensors.get? c with
    | none => simp [shapeOf, hz] at he
    | some z =>
      obtain ⟨t, ht⟩ := h.copying.covered hz
      rw [h₀.shapeOf_clone h ht] at he
      rw [h.limit_eq, h₀.limit]
      exact h₀.extents t e he

theorem StartsFlat.flat_inferred (h : Inferred ctx₀ ctx₁ ctx₂) : ctx₂.Flat :=
  (after_inferGaps_flat (h.cloned.fresh h₀.toStarts) (h₀.flat_cloned h.cloned)).of_run h.infers

/-- The working copy fits together at the limit of the run. -/
theorem StartsFlat.infers (h : Inferred ctx₀ ctx₁ ctx₂) (hop : ctx₂.cloned.ops.get? o = some op) :
    ∃ s, op.kind.inferShape lim (op.inputs.map ctx₂.cloned.shapeOf) = .ok s := by
  rw [h.frame.cloned] at hop ⊢
  obtain ⟨o₀, ⟨op₀, op', hop₀, hop', hkind, hinputs, -⟩, -⟩ :=
    h.cloned.existsUnique_original (h₀.source_eq ▸ h₀.wellFormed) hop
  cases hop.symm.trans hop'
  rw [h.cloned.source_eq] at hop₀
  rw [← h₀.limit]
  exact h₀.copyable.infers h.cloned.copying hop₀ hkind hinputs

theorem StartsFlat.byteSize (h : Inferred ctx₀ ctx₁ ctx₂) {z : Tensor} {bytes : List UInt8}
    (hz : ctx₂.cloned.tensors.get? c = some z) (hrole : z.spec.role = .constant)
    (hbytes : z.data = some bytes) : z.spec.byteSize lim = .ok bytes.length := by
  rw [h.frame.cloned] at hz
  obtain ⟨t, ht⟩ := h.cloned.copying.covered hz
  cases h.cloned.copying.copied ht with
  | input hx hrole' hy hspec hdata => grind
  | constant hx hrole' hy hspec hdata hsize =>
    cases hz.symm.trans hy
    rw [h.cloned.source_eq] at hx
    obtain ⟨bytes', hbytes', hsize'⟩ := h₀.copyable.data hx hrole'
    rw [hdata, hbytes'] at hbytes
    cases hbytes
    rw [hspec, ← h₀.limit]
    exact hsize'
  | written _ _ _ hop' hout' _ _ =>
    exact absurd hout' (h.cloned.copying.wellFormed.output_ne hop' hz hrole)

end

/-! ## Emission -/

/-- The fused graph has the fused tensors of the working copy and their operations, and nothing
else. -/
structure Echoes (lim : Limit) (ctx : Context) : Prop where
  limit : ctx.limit = lim
  passes : ctx.counters.backwardPasses = 0
  tensor : ∀ {f y}, ctx.fused.tensors.get? f = some y → ∃ c, ctx.fusedOf.get? c = some f
  op : ∀ {o' op'}, ctx.fused.ops.get? o' = some op' → ∃ o op, ctx.cloned.ops.get? o = some op ∧
    op'.kind = op.kind ∧ List.Forall₂ (fun x f => ctx.fusedOf.get? x = some f)
    op.inputs op'.inputs ∧
    ctx.fusedOf.get? op.output = some op'.output

/-- The state after a tensor has been emitted, by what is new in the fused graph. -/
theorem Echoes.record (h : Echoes lim ctx) (hnew : ctx.fusedOf.get? c = none)
    (hlimit : ctx'.limit = ctx.limit) (hcloned : ctx'.cloned = ctx.cloned)
    (hpasses : ctx'.counters.backwardPasses = ctx.counters.backwardPasses)
    (hfusedOf : ctx'.fusedOf = ctx.fusedOf.record c f)
    (htensor : ∀ {u y}, ctx'.fused.tensors.get? u = some y →
      u = f ∨ ∃ y, ctx.fused.tensors.get? u = some y)
    (hop : ∀ {o' op'}, ctx'.fused.ops.get? o' = some op' → ctx.fused.ops.get? o' = some op' ∨
      ∃ o op, ctx.cloned.ops.get? o = some op ∧ op'.kind = op.kind ∧ op.output = c ∧
      op'.output = f ∧
        List.Forall₂ (fun x f => ctx.fusedOf.get? x = some f) op.inputs op'.inputs) :
    Echoes lim ctx' := by
  have hkeep : ∀ {x y}, ctx.fusedOf.get? x = some y → ctx'.fusedOf.get? x = some y := fun hx => by
    grind [get?_record_of_new]
  have hself : ctx'.fusedOf.get? c = some f := by
    rw [hfusedOf]
    exact get?_record_self ..
  refine ⟨hlimit.trans h.limit, hpasses.trans h.passes, fun {u y} hy => ?_, fun {o' op'} hop' => ?_⟩
  · grind [tensor]
  · rw [hcloned]
    rcases hop hop' with hold | ⟨o, op, hknown, hkind, rfl, rfl, hinputs⟩
    · obtain ⟨o, op, hknown, hkind, hinputs, hout⟩ := h.op hold
      exact ⟨o, op, hknown, hkind, hinputs.imp fun _ _ => hkeep, hkeep hout⟩
    · exact ⟨o, op, hknown, hkind, hinputs.imp fun _ _ => hkeep, hself⟩

/-- Nothing has to be adapted. -/
theorem after_batchedForms_flat (hcanvas : ∀ t, ctx.isCanvas t = false) {xs : List TensorId}
    (hin : ∀ x ∈ xs, ctx.fusedOf.get? x ≠ none) {E : FusionError → Context → Prop} :
    After (xs.mapM batchedForm) ctx (fun fs ctx' => ctx' = ctx ∧
      List.Forall₂ (fun x f => ctx.fusedOf.get? x = some f) xs fs) E := by
  refine .mapM (fun done fs ctx' => ctx' = ctx ∧
    List.Forall₂ (fun x f => ctx.fusedOf.get? x = some f) done fs) ⟨rfl, .nil⟩ ?_
  rintro done x rest fs _ hxs ⟨rfl, hfs⟩
  obtain ⟨f, hf⟩ := ne_none_iff_exists'.1
    (hin x (hxs ▸ mem_append_right done mem_cons_self))
  refine .bind (.get (.ite (fun h => ?_) fun _ => ?_))
  · grind
  · exact .check_ok (entry_ok_iff.2 hf) ⟨rfl, rel_append hfs (.cons hf .nil)⟩

theorem echoes_emitBatched {role : Role} (hw : role.isWritable = true)
    (hcanvas : ∀ t, ctx.isCanvas t = false) (h : Emitting False ctx) (he : Echoes lim ctx)
    (hop : ctx.cloned.ops.get? o = some op) (hin : ∀ x ∈ op.inputs, ctx.fusedOf.get? x ≠ none)
    (hnew : ctx.fusedOf.get? op.output = none)
    (hinfer : ∃ s, op.kind.inferShape lim (op.inputs.map ctx.cloned.shapeOf) = .ok s) :
    After (emitBatched op role) ctx (fun _ ctx' => Echoes lim ctx') fun _ _ => False := by
  have hwf := h.settled.wellFormed
  have hhas : ∀ x f, ctx.fusedOf.get? x = some f → ctx.fused.Has f (ctx.cloned.shapeOf x) :=
    fun x f hf => by
      have hhas := (h.fusedOf hf).1
      grind [fusedShape]
  obtain ⟨z, hz⟩ := hwf.output_known hop
  refine .then_ (after_batchedForms_flat hcanvas hin) ?_
  rintro inputs ctx ⟨rfl, hinputs⟩
  have hshapes : inputs.map ctx.fused.shapeOf = op.inputs.map ctx.cloned.shapeOf :=
    map_shapeOf hinputs hhas
  have hne : inputs ≠ [] := by
    rw [← length_pos_iff, ← hinputs.length_eq, length_pos_iff]
    exact hwf.inputs_ne_nil hop
  refine .bind (.get ?_)
  rw [he.limit]
  refine .bind (.onFused (after_emit_writable (E := fun _ _ => False)
    (Q := fun y g => ∃ spec, y = ctx.fused.tensors.next ∧
      g = ctx.fused.emitted spec op.kind inputs ∧ spec.shape = ctx.cloned.shapeOf op.output) hw
    (fun s spec hs hspec => ?_) fun hnone _ => ?_) (fun y g hy => ?_) fun _ _ => False.elim)
  · obtain ⟨-, -, hs⟩ := inferOutput_eq_ok.1 hs
    obtain ⟨_, _, _, -, -, rfl⟩ := hspec
    rw [hshapes] at hs
    have hs' := Operator.inferShape_unbounded hs
    rw [hwf.op_shape hop] at hs'
    exact ⟨_, rfl, rfl, (Except.ok.inj hs').symm⟩
  · obtain ⟨s, hs⟩ := hinfer
    rw [← hshapes] at hs
    exact hnone s (inferOutput_eq_ok.2 ⟨hne, fun f hf => by
      obtain ⟨x, -, hx⟩ := forall₂_right_mem hinputs hf
      exact (hhas x f hx).known, hs⟩)
  obtain ⟨spec, rfl, rfl, hspec⟩ := hy
  obtain ⟨y, hy, hyspec, -⟩ := emitted_output ctx.fused spec op.kind inputs
  refine .bind (.ask_fault (shape_ok hz) ?_)
  refine .bind (after_checkShape ⟨y, hy, by rw [hyspec, hspec]⟩ ?_)
  refine .bind (.recordNew hnew ?_)
  refine .bind (.recordNew (h.proportion_new (Nat.le_refl _)) (.modify ?_))
  refine he.record hnew rfl rfl rfl rfl (fun {u y'} hy' => ?_) fun {o' op'} hop' => ?_
  · exact known_of_emitted hy'
  · rcases op_of_emitted hop' with hold | ⟨rfl, rfl⟩
    · exact .inl hold
    · exact .inr ⟨o, op, hop, rfl, rfl, rfl, hinputs⟩

section Emission

variable (h₀ : StartsFlat lim source options ctx₀) (h : Inferred ctx₀ ctx₁ ctx₂)

include h₀ h

/-- **An operation** is emitted as it is. -/
theorem echoes_kept : KeptByOps False False ctx₂ (Echoes lim) := by
  intro o op ctx hrew he hop hseen hin
  have hflat := h₀.flat_inferred h
  have hs := hrew.emitting.settled
  have hcanvas : ∀ t, ctx.isCanvas t = false := fun t => by
    have hsame : ctx.isCanvas = ctx₂.isCanvas := congr_core isCanvas hrew.core fun _ => rfl
    rw [hsame]
    exact hflat.isCanvas t
  have hplan : ctx.plans.get? o = some .batched := by
    rcases hs.plan_cases hop with ⟨hplan, -⟩ | ⟨plan, hfuses⟩
    · exact hplan
    · have hon : ctx.isCanvas op.output = true := hfuses.canvas
      grind
  obtain ⟨z, hz⟩ := hs.wellFormed.output_known hop
  have hspec : ctx.cloned.spec op.output = .ok z.spec := by
    rw [spec, Table.get_eq_ok.2 hz]
    rfl
  have hw : Role.isWritable (if z.spec.role = .output then .output else .transient) = true := by
    split_ifs <;> rfl
  have hinfer : ∃ s, op.kind.inferShape lim (op.inputs.map ctx.cloned.shapeOf) = .ok s := by
    rw [hrew.cloned] at hop ⊢
    exact h₀.infers h hop
  unfold emitOp
  refine .bind (.get ?_)
  refine .bind (.check_ok (lift_graph_eq_ok.2 (op_eq_ok.2 hop)) ?_)
  refine .bind (.check_fault hspec ?_)
  refine .bind (.check_ok (a := .batched) (entry_ok_iff.2 hplan) ?_)
  exact .then_ (echoes_emitBatched hw hcanvas (hrew.emitting.visit (o :: ctx.visited))
    { he with } hop hin (hrew.unvisited (hrew.cloned ▸ hop) hseen) hinfer)
    fun _ _ he' => .pure fun _ => he'

/-- **An input or a constant** is emitted as it is. -/
theorem echoes_sources : KeptBySources False False ctx₂ fun _ => Echoes lim := by
  intro done t z ctx hcore hemitting he hz hw hnew
  have hcloned : ctx.cloned = ctx₂.cloned := congr_core cloned hcore fun _ => rfl
  have hconstant : ∀ data, z.data = some data → After (createConstant ctx.limit z.spec data)
      ctx.fused (fun y g => y = ctx.fused.tensors.next ∧ ∃ x, g = ctx.fused.withTensor x)
      fun _ _ => False := by
    intro data hdata
    have hrole := hemitting.stocked.role_eq_constant hz hw hdata
    refine after_createConstant (fun _ => ⟨rfl, _, rfl⟩) fun hne _ => hne ?_
    have hspec : { z.spec with role := .constant } = z.spec := by rw [← hrole]
    grind [Echoes.limit, StartsFlat.byteSize]
  unfold emitSource
  refine .bind (.get ?_)
  refine .bind (.check_fault (Table.get_eq_ok.2 hz) ?_)
  -- Either way one tensor is added at the end.
  refine .bind (.onFused (after_createSource hconstant fun _ =>
    after_createTensor ⟨rfl, _, rfl⟩) (fun y g hy => ?_) fun _ _ => False.elim)
  obtain ⟨rfl, x, rfl⟩ := hy
  extract_lets record
  refine after_nameFused ⟨x, Table.get?_push_next ..⟩ ?_
  refine .bind (.recordNew hnew (.recordNew
    (hemitting.proportion_new (Nat.le_refl _)) ?_))
  have hrenames := (ctx.fused.withTensor x).renames_named ctx.fused.tensors.next z.name
  refine fun _ => he.record hnew rfl rfl rfl rfl (fun {u y} hy => ?_) fun {o' op'} hop' => ?_
  · grind [named_get?, map_eq_some_iff, get?_withTensor]
  · have hop'' : ((ctx.fused.withTensor x).named ctx.fused.tensors.next z.name).ops.get? o' =
      some op' := hop'
    rw [hrenames.ops_eq] at hop''
    exact .inl hop''

/-- **Emission with one tile** succeeds. -/
theorem StartsFlat.after_emitAll :
    After emitAll ctx₂ (fun _ ctx₃ => Echoes lim ctx₃) fun _ _ => False := by
  have hblank := h.blank h₀.toStarts
  have hlimit : ctx₂.limit = lim := by
    rw [h.frame.eq]
    exact h.cloned.limit_eq.trans h₀.limit
  have hstart : Echoes lim { ctx₂ with visited := [] } := by
    refine ⟨hlimit, (h₀.flat_inferred h).passes, fun {f y} hy => ?_, fun {o' op'} hop' => ?_⟩
    · have hy' : ctx₂.fused.tensors.get? f = some y := hy
      rw [hblank.fused] at hy'
      cases hy'
    · have hop'' : ctx₂.fused.ops.get? o' = some op' := hop'
      rw [hblank.fused] at hop''
      cases hop''
  exact (after_emitAll_keeping (P := False) h.settled h.stocked hblank False.elim
    (J := fun _ => Echoes lim) (K := Echoes lim) hstart (@echoes_sources _ _ _ _ _ _ h₀ h)
    (fun _ _ _ hj => hj) (@echoes_kept _ _ _ _ _ _ h₀ h)).imp (fun _ _ h => h.2) fun _ _ h => h.2

end Emission

/-- **A run over one sample** comes to a result. -/
theorem StartsFlat.after_fuse (h₀ : StartsFlat lim source options ctx₀) : After Pass.fuse ctx₀
    (fun r ctx => ∃ ctx₁ ctx₂ ctx₃, Run False ctx₀ ctx₁ ctx₂ ctx₃ ∧ Collected ctx₃ ctx r)
    fun _ _ => False := by
  refine after_fuse_of h₀.toStarts h₀.wellFormed False.elim False.elim ?_ (fun h => ?_) fun h => ?_
  · exact (after_cloneSource (P := True) h₀.toStarts (h₀.source_eq ▸ h₀.wellFormed)
      fun _ => h₀.copyable).imp (fun _ _ _ => trivial) fun _ _ he => he.2 trivial
  · exact (after_inferGaps_flat (h.fresh h₀.toStarts) (h₀.flat_cloned h)).mono
      fun _ _ _ => trivial
  · exact (h₀.after_emitAll h).mono fun _ _ _ => trivial

end Context

/-! ## The fused graph -/

/-- The fused tensor that a tensor of the source went to. -/
def Fused.placeOf (r : Fused) (t : TensorId) : Option TensorId := (r.info.get? t).bind (·.fused)

/-- An operation of the fused graph is an operation of the source, with its inputs and its output
where they went. -/
def Fused.Keeps (r : Fused) (source : Graph) (o o' : OpId) : Prop :=
  ∃ op op', source.ops.get? o = some op ∧ r.graph.ops.get? o' = some op' ∧ op'.kind = op.kind ∧
    List.Forall₂ (fun x f => r.placeOf x = some f) op.inputs op'.inputs ∧
    r.placeOf op.output = some op'.output

/-- The fused graph is the computable part of the source, under the numbers that its tensors and
operations have there. -/
structure Fused.IsCopyOf (r : Fused) (source : Graph) : Prop where
  placed : ∀ t, r.placeOf t ≠ none ↔ source.Computable t
  injective : ∀ t t' f, r.placeOf t = some f → r.placeOf t' = some f → t = t'
  tensor : ∀ t f, r.placeOf t = some f → ∃ x y, source.tensors.get? t = some x ∧
    r.graph.tensors.get? f = some y ∧ y.spec.shape = x.spec.shape ∧
    (x.spec.role = .constant → y.data = x.data)
  originalTensor : ∀ f y, r.graph.tensors.get? f = some y → ∃ t, r.placeOf t = some f
  op : ∀ o op, source.ops.get? o = some op → source.Computable op.output →
    ∃! o', r.Keeps source o o'
  originalOp : ∀ o' op', r.graph.ops.get? o' = some op' → ∃! o, r.Keeps source o o'

/-- Every extent is a size, and the constants have data. -/
def Graph.Stored (lim : Limit) (g : Graph) : Prop :=
  ∀ t x, g.tensors.get? t = some x →
    (∀ n ∈ x.spec.shape, Limit.within lim.size n = true) ∧ (x.spec.role = .constant → x.data ≠ none)

instance (lim : Limit) (g : Graph) : Decidable (g.Stored lim) :=
  decidable_of_iff _ forall_tensors_iff

theorem Graph.Stored.holds {lim : Limit} {g : Graph} (h : g.Stored lim) (t : TensorId) :
    ∀ e ∈ g.shapeOf t, lim.Holds e := by
  intro e he
  cases hx : g.tensors.get? t with
  | none => simp [shapeOf, hx] at he
  | some x =>
    rw [shapeOf_eq hx] at he
    exact (h t x hx).1 e he

namespace Context

variable {lim : Limit} {source : Graph} {options : Options} {ctx ctx₀ ctx₁ ctx₂ ctx₃ : Context}
  {t c f : TensorId} {o o' : OpId} {op op' : Operation} {r : Fused}

theorem Collected.placeOf_eq (h : Collected ctx₃ ctx r) :
    r.placeOf t = (ctx₃.cloneOf.get? t).bind ctx₃.fusedOf.get? := by
  rw [Fused.placeOf, h.info]
  cases ctx₃.cloneOf.get? t <;> rfl

theorem Collected.placeOf_eq_some (h : Collected ctx₃ ctx r) : r.placeOf t = some f ↔
    ∃ c, ctx₃.cloneOf.get? t = some c ∧ ctx₃.fusedOf.get? c = some f := by
  rw [h.placeOf_eq, bind_eq_some_iff]

/-- Tensors of the working copy that are related to tensors of the source, and their fused
tensors. -/
theorem Collected.forall₂_placeOf (h : Collected ctx₃ ctx r) {xs cs fs : List TensorId}
    (hxs : List.Forall₂ (fun x c => ctx₃.cloneOf.get? x = some c) xs cs)
    (hcs : List.Forall₂ (fun c f => ctx₃.fusedOf.get? c = some f) cs fs) :
    List.Forall₂ (fun x f => r.placeOf x = some f) xs fs := by
  induction hxs generalizing fs with
  | nil =>
    cases hcs
    exact .nil
  | cons hx _ ih =>
    cases hcs with
    | cons hc hcs => exact .cons (h.placeOf_eq_some.2 ⟨_, hx, hc⟩) (ih hcs)

/-- Without a canvas nothing is needed. -/
theorem demand_flat (hcanvas : ∀ t, ctx.isCanvas t = false)
    (hplan : ∀ plan, ctx.plans.get? o ≠ some (.fused plan)) :
    (∀ t, ¬ (ctx.demand o).tiled t) ∧ (∀ t, ¬ (ctx.demand o).defused t) ∧
      ∀ t, ¬ (ctx.demand o).masked t := by
  unfold demand
  split
  · refine ⟨?_, ?_, ?_⟩
    · rintro t ⟨x, -, hx⟩
      exact batchedNeeds_other.1 hx
    · rintro t ⟨x, -, hx⟩
      grind [batchedNeeds_defused]
    · rintro t ⟨x, -, hx⟩
      exact batchedNeeds_other.2 hx
  · exact absurd ‹_› (hplan _)
  · exact ⟨fun _ => id, fun _ => id, fun _ => id⟩

section Result

variable (h₀ : StartsFlat lim source options ctx₀) (h : Run False ctx₀ ctx₁ ctx₂ ctx₃)

include h₀ h

theorem StartsFlat.flat_run (t : TensorId) : ctx₃.isCanvas t = false := by
  have hsame : ctx₃.isCanvas = ctx₂.isCanvas :=
    congr_core isCanvas h.emitted.core fun _ => rfl
  rw [hsame]
  exact (h₀.flat_inferred h.toInferred).isCanvas t

theorem StartsFlat.echoes : Echoes lim ctx₃ := (h₀.after_emitAll h.toInferred).of_run h.emits

/-- The fused tensor of a copy has the shape of the original. -/
theorem StartsFlat.has_fused (ht : ctx₃.cloneOf.get? t = some c)
    (hf : ctx₃.fusedOf.get? c = some f) : ctx₃.fused.Has f (source.shapeOf t) := by
  have hhas := (h.emitted.emitting.fusedOf hf).1
  rw [fusedShape, h₀.flat_run h c, if_neg Bool.false_ne_true, h.cloned_eq,
    h₀.shapeOf_clone h.cloned (h.cloneOf_eq ▸ ht)] at hhas
  exact hhas

/-- The fused tensor of a constant has its bytes. -/
theorem StartsFlat.data_fused {x y : Tensor} (hx : source.tensors.get? t = some x)
    (hrole : x.spec.role = .constant) (ht : ctx₃.cloneOf.get? t = some c)
    (hf : ctx₃.fusedOf.get? c = some f) (hy : ctx₃.fused.tensors.get? f = some y) :
    y.data = x.data := by
  have hwf := h.emitted.emitting.settled.wellFormed
  rw [← h₀.source_eq] at hx
  obtain ⟨bytes, hbytes, -⟩ := h₀.copyable.data hx hrole
  rw [← h.cloned.source_eq] at hx
  rw [h.cloneOf_eq] at ht
  -- The copy of a constant is a constant with the same data, and no operation writes it.
  obtain ⟨z, hz, hzrole, hzdata⟩ : ∃ z, ctx₃.cloned.tensors.get? c = some z ∧
      z.spec.role.isWritable = false ∧ z.data = x.data := by
    rw [h.cloned_eq]
    cases h.cloned.copying.copied ht with
    | input hx' hrole' => grind
    | constant hx' _ hz hspec hdata =>
      cases hx.symm.trans hx'
      refine ⟨_, hz, by rw [hspec, hrole]; rfl, ?_⟩
      grind
    | written hop hout =>
      exact absurd hout ((h₀.source_wellFormed h.cloned).output_ne hop hx hrole)
  have hmem : c ∈ ctx₃.cloned.sources := hwf.mem_sources.2 ⟨z, hz, hzrole⟩
  cases (h.emitted.emitting.fusedOf hf).2 with
  | source hz' _ hy' _ hdata => grind
  | batched hop hout => exact absurd (hout ▸ hmem) (hwf.not_source_of_output hop)
  | canvas hfuses hout => exact absurd (hout ▸ hmem) (hwf.not_source_of_output hfuses.known)

/-- A copied operation is emitted as it is. -/
theorem StartsFlat.op_fused (hop : ctx₃.cloned.ops.get? o = some op)
    (hf : ctx₃.fusedOf.get? op.output = some f) : ∃ o' inputs,
      ctx₃.fused.ops.get? o' = some ⟨op.kind, inputs, f⟩ ∧
      List.Forall₂ (fun x f => ctx₃.fusedOf.get? x = some f) op.inputs inputs := by
  have hwf := h.emitted.emitting.settled.wellFormed
  cases (h.emitted.emitting.fusedOf hf).2 with
  | source hz hrole =>
    exact absurd (hwf.mem_sources.2 ⟨_, hz, hrole⟩) (hwf.not_source_of_output hop)
  | batched hop₁ hout _ hop' hinputs =>
    obtain rfl := hwf.op_eq_of_output hop₁ hop hout
    cases hop.symm.trans hop₁
    refine ⟨_, _, hop', hinputs.imp fun x f hb => ?_⟩
    grind [BatchedAs, flat_run]
  | canvas hfuses hout =>
    have hcanvas := hfuses.canvas
    grind [flat_run]

/-- The kind of an operation is that of its original. -/
theorem StartsFlat.kind_eq {kind kind' : Operator} (hkind : ctx₁.CopiedKind kind kind') :
    kind' = kind := by
  have haxes : ctx₁.axes.Valid := by
    rw [h.cloned.copying.frame]
    exact h₀.axes
  exact (h.cloned.copying.keepsBatch h₀.batch).copiedKind_eq haxes
    (h₀.source_wellFormed h.cloned) hkind

/-- **The fused graph is the computable part of the source.** -/
theorem StartsFlat.isCopyOf (hend : Collected ctx₃ ctx r) : r.IsCopyOf source := by
  have hsource : ctx₀.source.WellFormed := h₀.source_eq ▸ h₀.wellFormed
  have hwf := hend.relabels.runnable h.emitted.emitting.runnable
  have hplaced : ∀ t, r.placeOf t ≠ none ↔ source.Computable t := fun t => by
    rw [← h₀.source_eq, ← h.cloned.computable_iff, ← h.cloneOf_eq, hend.placeOf_eq]
    cases ht : ctx₃.cloneOf.get? t with
    | none => simp
    | some c => exact iff_of_true (h.fusedOf_clone ht) (some_ne_none c)
  have hinjective : ∀ t t' f, r.placeOf t = some f → r.placeOf t' = some f → t = t' := by
    intro t t' f ht ht'
    obtain ⟨c, hc, hf⟩ := hend.placeOf_eq_some.1 ht
    obtain ⟨c', hc', hf'⟩ := hend.placeOf_eq_some.1 ht'
    obtain rfl := h.emitted.emitting.injective hf hf'
    rw [h.cloneOf_eq] at hc hc'
    exact h.cloned.copying.injective hc hc'
  refine ⟨hplaced, hinjective, fun t f ht => ?_, fun f y hy => ?_, fun o op hop hcomputable => ?_,
    fun o' op' hop' => ?_⟩
  · obtain ⟨c, hc, hf⟩ := hend.placeOf_eq_some.1 ht
    obtain ⟨x, hx⟩ := h.source_known hc
    rw [h.source_eq, h₀.source_eq] at hx
    obtain ⟨y, hy, hshape⟩ := h₀.has_fused h hc hf
    obtain ⟨y', hy', hspec, hdata⟩ := hend.relabels.grows.tensor hy
    grind [shapeOf_eq, Collected.graph, data_fused]
  · rw [hend.graph] at hy
    obtain ⟨y', hy'⟩ := hend.relabels.known hy
    obtain ⟨c, hf⟩ := (h₀.echoes h).tensor hy'
    obtain ⟨z, hz⟩ := h.emitted.emitting.clone_known hf
    obtain ⟨t, ht⟩ := h.cloned.copying.covered (h.cloned_eq ▸ hz)
    exact ⟨t, hend.placeOf_eq_some.2 ⟨c, h.cloneOf_eq ▸ ht, hf⟩⟩
  · obtain ⟨o₁, ⟨op₀, op₁, hop₀, hop₁, hkind, hinputs, hout⟩, -⟩ :=
      h.cloned.existsUnique_copy hsource (h₀.source_eq ▸ hop) (h₀.source_eq ▸ hcomputable)
    rw [h.cloned.source_eq, h₀.source_eq] at hop₀
    cases hop.symm.trans hop₀
    rw [← h.cloneOf_eq] at hinputs hout
    rw [← h.cloned_eq] at hop₁
    obtain ⟨f, hf⟩ := ne_none_iff_exists'.1 (h.fusedOf_clone hout)
    obtain ⟨o', inputs, hop', hinputs'⟩ := h₀.op_fused h hop₁ hf
    have hkept : r.graph.ops.get? o' = some ⟨op₁.kind, inputs, f⟩ := by
      rw [hend.graph, hend.relabels.ops_eq]
      exact hop'
    have hplace := hend.placeOf_eq_some.2 ⟨_, hout, hf⟩
    refine ⟨o',
      ⟨op, _, hop, hkept, h₀.kind_eq h hkind, hend.forall₂_placeOf hinputs hinputs', hplace⟩, ?_⟩
    rintro o'' ⟨op₂, op'', hop₂, hop'', -, -, hplace''⟩
    cases hop.symm.trans hop₂
    rw [hend.graph] at hkept hop''
    exact hwf.wellFormed.op_eq_of_output hop'' hkept (Option.some.inj (hplace''.symm.trans hplace))
  · obtain ⟨o₁, op₁, hop₁, hkind₁, hinputs₁, hout₁⟩ := (h₀.echoes h).op (by
      rw [← hend.relabels.ops_eq, ← hend.graph]
      exact hop')
    obtain ⟨o, ⟨op, op₂, hop, hop₂, hkind, hinputs, hout⟩, -⟩ :=
      h.cloned.existsUnique_original hsource (h.cloned_eq ▸ hop₁)
    rw [h.cloned_eq] at hop₁
    cases hop₁.symm.trans hop₂
    rw [h.cloned.source_eq, h₀.source_eq] at hop
    rw [← h.cloneOf_eq] at hinputs hout
    have hplace := hend.placeOf_eq_some.2 ⟨_, hout, hout₁⟩
    refine ⟨o, ⟨op, op', hop, hop', hkind₁.trans (h₀.kind_eq h hkind),
      hend.forall₂_placeOf hinputs hinputs₁, hplace⟩, ?_⟩
    rintro o₂ ⟨op₂, op'', hop₂, hop'', -, -, hplace''⟩
    cases hop'.symm.trans hop''
    exact h₀.wellFormed.op_eq_of_output hop₂ hop (hinjective _ _ _ hplace'' hplace)

/-- **Nothing is adapted**, and no operation is on the canvas. -/
theorem StartsFlat.counters_eq : ctx₃.counters.fusedOps = 0 ∧ ctx₃.counters.tileAdapters = 0 ∧
    ctx₃.counters.defuseAdapters = 0 ∧ ctx₃.counters.masks = 0 ∧
    ctx₃.counters.backwardPasses = 0 := by
  have hplan : ∀ o plan, ctx₃.plans.get? o ≠ some (.fused plan) := fun o plan hplan => by
    have hsame : ctx₃.plans = ctx₂.plans := congr_core plans h.emitted.core fun _ => rfl
    rw [hsame] at hplan
    cases (h₀.flat_inferred h.toInferred).plan hplan
  have hdemand := fun o => demand_flat (h₀.flat_run h) (hplan o)
  have hbooks := h.accounted h₀.toStarts
  refine ⟨?_, hbooks.tallied.tiled.eq_zero fun t => ?_, hbooks.tallied.defused.eq_zero fun t => ?_,
    hbooks.tallied.masked.eq_zero fun t => ?_, (h₀.echoes h).passes⟩
  · rw [hbooks.fusedOps, countP_eq_zero]
    intro o _
    rw [isFused]
    cases hp : ctx₃.plans.get? o with
    | none => exact Bool.false_ne_true
    | some p =>
      cases p with
      | batched => exact Bool.false_ne_true
      | fused plan => exact absurd hp (hplan o plan)
  · grind [Accounted.tiled]
  · grind [Accounted.defused]
  · grind [Accounted.masked]

/-- Where tensors went. -/
theorem StartsFlat.fusionOf_eq (c : TensorId) :
    (ctx₃.fusionOf c).placement = .batched ∧ (ctx₃.fusionOf c).gap = .both 0 := by
  refine ⟨by simp [fusionOf, h₀.flat_run h c], ?_⟩
  have hsame : ctx₃.gapOf = ctx₂.gapOf := congr_core gapOf h.emitted.core fun _ => rfl
  show ctx₃.gapOf c = .both 0
  rw [hsame, gapOf]
  cases hgap : ctx₂.gaps.get? c with
  | none => rfl
  | some v => exact (h₀.flat_inferred h.toInferred).gap hgap

end Result

end Context

open Context

/-- **The pass over one sample is the identity.** It comes to a result, whose graph is the
computable part of the source: tensors keep their shapes, constants their bytes, and operations
their kinds, inputs and outputs. Nothing is adapted, nothing is on a canvas and there are no gaps.
The limit has to hold the extents of the source, and four, which is where the search for a grid of
one tile ends. -/
theorem fuse_one_sample {lim : Limit} {calls : List Graph.Call} {options : Options}
    (hvalid : options.validate = .ok ()) (hbatch : HasBatch (Graph.build lim calls) options 1)
    (hlim : lim.Holds 4) (hstored : (Graph.build lim calls).Stored lim) :
    ∃ r, fuse lim options (Graph.build lim calls) = .ok r ∧ r.IsCopyOf (Graph.build lim calls) ∧
      r.report.adapters lim = .ok 0 ∧ r.report.counters.fusedOps = 0 ∧
      r.report.counters.backwardPasses = 0 ∧
      ∀ t info, r.info.get? t = some info → info.placement = .batched ∧ info.gap = .both 0 := by
  have hsource := Graph.wellFormed_build lim calls
  obtain ⟨ctx₀, hinit⟩ := exists_initial hsource hvalid hbatch hlim
  have h₀ := (starts_of_initial hinit).flat hsource (Graph.checked_build lim calls) hbatch hlim
    hstored.holds fun t x hx => (hstored t x hx).2
  rcases hrun : Pass.fuse.run ctx₀ with ⟨e | r, ctx⟩
  · exact (h₀.after_fuse.of_run_error hrun).elim
  obtain ⟨ctx₁, ctx₂, ctx₃, h, hend⟩ := h₀.after_fuse.of_run hrun
  obtain ⟨hfused, htiles, hdefuses, hmasks, hpasses⟩ := h₀.counters_eq h
  have hreport : r.report.counters = ctx₃.counters := congrArg Report.counters hend.report
  refine ⟨r, ?_, h₀.isCopyOf h hend, ?_, ?_, ?_, fun t info hinfo => ?_⟩
  · rw [fuse, hinit, bind_ok, hrun]
  · have hadd : lim.add 0 0 = .ok 0 := if_pos lim.holds_zero
    rw [Report.adapters, hreport, htiles, hdefuses, hmasks, hadd, bind_ok, hadd]
  · rw [hreport, hfused]
  · rw [hreport, hpasses]
  · rw [hend.info] at hinfo
    obtain ⟨c, -, rfl⟩ := Option.map_eq_some_iff.1 hinfo
    exact h₀.fusionOf_eq h c

/-- One image through a convolution, with a reshape that names the batch and a softmax that is left
out. -/
def oneImage : List Graph.Call :=
  [.createTensor ⟨.u8, [1, 1, 2, 2], .input, none⟩,
    .createConstant ⟨.u8, [1, 1, 1, 2], .constant, none⟩ [3, 5],
    .emit (.conv2d ⟨⟨1, 1⟩, ⟨1, 1⟩, .both ⟨0, 0⟩, .nchw⟩) [⟨0⟩, ⟨1⟩] .transient,
    .emit (.reshape [1, 2, 1, 1]) [⟨2⟩] .output, .emit (.softmax 1) [⟨2⟩] .output]

theorem fuse_one_sample_oneImage : Options.standard.validate = .ok () ∧
    HasBatch (Graph.build .word64 oneImage) .standard 1 ∧ Limit.word64.Holds 4 ∧
    (Graph.build .word64 oneImage).Stored .word64 ∧
    ∃ r, fuse .word64 .standard (Graph.build .word64 oneImage) = .ok r ∧
      r.IsCopyOf (Graph.build .word64 oneImage) ∧ r.report.adapters .word64 = .ok 0 ∧
      r.report.counters.fusedOps = 0 := by
  have hvalid : Options.standard.validate = .ok () := by decide
  have hbatch : HasBatch (Graph.build .word64 oneImage) .standard 1 := ⟨.inl rfl, by decide +kernel⟩
  have hstored : (Graph.build .word64 oneImage).Stored .word64 := by decide +kernel
  obtain ⟨r, hr, hcopy, hadapters, hfused, -⟩ := fuse_one_sample hvalid hbatch rfl hstored
  exact ⟨hvalid, hbatch, rfl, hstored, r, hr, hcopy, hadapters, hfused⟩

end CanvasFusion
