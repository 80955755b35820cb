import CanvasFusion.Proofs.Fusion.Walk
import CanvasFusion.Proofs.Fusion.WorkingCopy
import CanvasFusion.Proofs.Graph.Interface

/-!
# Cloning

Cloning copies the inputs and constants of the source and walks from there. It copies exactly the
tensors that can be computed by supported operations (`Computable`), and leaves a warning for each
operation that is ready but not supported.
-/

namespace CanvasFusion

open Table Ledger List Option CanvasFusion.Graph Pass Operator Bool Tensor

/-! ## Computable tensors -/

/-- Inputs and constants, and what operations other than slices and softmax compute from such
tensors. -/
inductive Graph.Computable (g : Graph) : TensorId → Prop where
  | source {t : TensorId} (ht : t ∈ g.sources) : Computable g t
  | written {o : OpId} {op : Operation} (hop : g.ops.get? o = some op)
      (hslice : ∀ start size, op.kind ≠ .slice start size)
        (hsoftmax : ∀ axis, op.kind ≠ .softmax axis)
      (hin : ∀ x ∈ op.inputs, Computable g x) : Computable g op.output

theorem Operator.isSupported_iff {kind : Operator} :
    kind.isSupported = true ↔
      (∀ start size, kind ≠ .slice start size) ∧ ∀ axis, kind ≠ .softmax axis := by
  cases kind <;> simp [isSupported]

namespace Graph

variable {g : Graph} {t : TensorId} {o : OpId} {op : Operation}

theorem Computable.of_supported (hop : g.ops.get? o = some op) (hs : op.kind.isSupported = true)
    (hin : ∀ x ∈ op.inputs, g.Computable x) : g.Computable op.output :=
  .written hop (isSupported_iff.1 hs).1 (isSupported_iff.1 hs).2 hin

/-- An operation whose output is computable is supported and has computable inputs. -/
theorem Computable.of_output (hg : g.WellFormed) (hop : g.ops.get? o = some op)
    (h : g.Computable op.output) :
    op.kind.isSupported = true ∧ ∀ x ∈ op.inputs, g.Computable x := by
  generalize hout : op.output = t at h
  cases h with
  | source ht => exact absurd ht (hout ▸ hg.not_source_of_output hop)
  | written hop' hslice hsoftmax hin => grind [isSupported_iff, WellFormed.op_eq_of_output]

/-- Whether an operation is there and supported. -/
def supports (g : Graph) (o : OpId) : Bool := (g.ops.get? o).any (·.kind.isSupported)

theorem supports_eq (hop : g.ops.get? o = some op) : g.supports o = op.kind.isSupported := by
  simp [supports, hop]

/-- The warning about an operation that is not supported. -/
def unsupported? (g : Graph) (o : OpId) : Option Warning :=
  (g.ops.get? o).bind fun op =>
    if op.kind.isSupported then none else some (.unsupportedOperator o op.kind.name)

theorem unsupported?_eq (hop : g.ops.get? o = some op) : g.unsupported? o =
    if op.kind.isSupported then none else some (.unsupportedOperator o op.kind.name) := by
  simp [unsupported?, hop]

end Graph

namespace Context

variable {lim : Limit} {source g : Graph} {options : Options} {ctx ctx₀ ctx' : Context}
  {t c : TensorId} {o : OpId} {op : Operation} {P : Prop}

/-! ## The state during cloning -/

/-- What is true during cloning. -/
structure Cloning (ctx₀ ctx : Context) : Prop where
  copying : Copying ctx₀ ctx
  computable : ∀ {t}, ctx.cloneOf.get? t ≠ none → ctx₀.source.Computable t
  visited_nodup : ctx.visited.Nodup
  visited : ∀ o ∈ ctx.visited, ∃ op, ctx₀.source.ops.get? o = some op ∧
    (∀ x ∈ op.inputs, ctx.cloneOf.get? x ≠ none) ∧
    (op.kind.isSupported = true → ctx.cloneOf.get? op.output ≠ none)
  unvisited : ∀ {o op}, ctx₀.source.ops.get? o = some op → o ∉ ctx.visited →
    ctx.cloneOf.get? op.output = none
  ops_size : ctx.cloned.ops.size = (ctx.visited.filter ctx₀.source.supports).length
  warnings : ctx.warnings = ctx.visited.reverse.filterMap ctx₀.source.unsupported?

/-- Copies have the names and the roles of what they are copies of, and the copies of inputs are in
the order of these. -/
structure Mirrors (done : List TensorId) (ctx : Context) : Prop where
  copy : ∀ {t c}, ctx.cloneOf.get? t = some c → ∃ x y, ctx.source.tensors.get? t = some x ∧
    ctx.cloned.tensors.get? c = some y ∧ y.name = x.name ∧ y.spec.role = x.spec.role
  inputs : List.Forall₂ (fun t c => ctx.cloneOf.get? t = some c) done ctx.cloned.inputs

/-- A tensor has been copied. -/
theorem Mirrors.record {done : List TensorId} {x : Tensor} (h : Mirrors done ctx)
    (hx : ctx.source.tensors.get? t = some x) (hnew : ctx.cloneOf.get? t = none)
    (he : Graph.Enters x.spec.role x.name c ctx.cloned g) (visited : List OpId) :
    Mirrors (done ++ if x.spec.role = .input then [t] else [])
      { ctx.withCopy g t c with visited := visited } where
  copy {t' c'} hc' := by grind [get?_record, Enters.entered, copy, Enters.tensor]
  inputs := by
    rw [he.inputs]
    refine rel_append (h.inputs.imp fun u v huv => ?_) ?_
    · rw [get?_record, if_neg, huv]
      grind
    · split_ifs
      · exact .cons (by rw [get?_record, if_pos rfl]) .nil
      · exact .nil

/-- Cloning changes no shape, and every constant can be copied. -/
structure Smooth (ctx : Context) : Prop where
  limit : ctx.limit = .unbounded
  batch : ctx.KeepsBatch
  data : ∀ {t x}, ctx.source.tensors.get? t = some x → x.spec.role = .constant →
    ∃ bytes, x.data = some bytes ∧ x.spec.byteSize .unbounded = .ok bytes.length

/-- Nothing that cloning meets fails: constants have their data, and the copy of an operation fits
the shapes that the copies of its inputs have. -/
structure Copyable (ctx₀ : Context) : Prop where
  data : ∀ {t x}, ctx₀.source.tensors.get? t = some x → x.spec.role = .constant →
    ∃ bytes, x.data = some bytes ∧ x.spec.byteSize ctx₀.limit = .ok bytes.length
  infers : ∀ {ctx o op kind inputs}, Copying ctx₀ ctx → ctx₀.source.ops.get? o = some op →
    ctx.CopiedKind op.kind kind →
    List.Forall₂ (fun x y => ctx.cloneOf.get? x = some y) op.inputs inputs →
    ∃ s, kind.inferShape ctx₀.limit (inputs.map ctx.cloned.shapeOf) = .ok s

theorem Smooth.copyable (hs : ctx₀.Smooth) (hsource : ctx₀.source.WellFormed)
    (haxes : ctx₀.axes.Valid) : ctx₀.Copyable where
  data := by
    rw [hs.limit]
    exact hs.data
  infers {ctx o op kind inputs} h hop hkind hinputs := by
    have hsrc : ctx.source = ctx₀.source := by rw [h.frame]
    have haxes' : ctx.axes.Valid := by rw [h.frame]; exact haxes
    have hshapes : op.inputs.map ctx₀.source.shapeOf = inputs.map ctx.cloned.shapeOf :=
      map_eq_map_of_forall₂ hinputs fun x y _ _ hxy => (h.shape_eq hs.batch haxes hsource hxy).symm
    rw [hs.limit, (h.keepsBatch hs.batch).copiedKind_eq haxes' (hsrc ▸ hsource) hkind, ← hshapes]
    exact ⟨_, hsource.op_shape hop⟩

theorem Cloning.source_eq (h : Cloning ctx₀ ctx) : ctx.source = ctx₀.source := by
  rw [h.copying.frame]

theorem Cloning.limit_eq (h : Cloning ctx₀ ctx) : ctx.limit = ctx₀.limit := by
  rw [h.copying.frame]

theorem Cloning.grid_eq (h : Cloning ctx₀ ctx) : ctx.grid = ctx₀.grid := by
  rw [h.copying.frame]

theorem Cloning.axes_eq (h : Cloning ctx₀ ctx) : ctx.axes = ctx₀.axes := by
  rw [h.copying.frame]

theorem Ledger.record_ne_none {κ ν : Type} [DecidableEq κ] {l : Ledger κ ν} {k k' : κ} {v : ν}
    (h : l.get? k' ≠ none) : (l.record k v).get? k' ≠ none := by
  rw [get?_record]
  grind

theorem Starts.copying (h : Starts lim source options ctx) : Copying ctx ctx where
  frame := rfl
  wellFormed := h.cloned ▸ wellFormed_empty
  sequential := h.cloned ▸ .empty
  copied ht := by
    rw [h.tables.1] at ht
    cases ht
  injective ht := by
    rw [h.tables.1] at ht
    cases ht
  covered hc := by
    rw [h.cloned] at hc
    cases hc

theorem Starts.cloning (h : Starts lim source options ctx) : Cloning ctx ctx where
  copying := h.copying
  computable ht := by
    rw [h.tables.1] at ht
    exact absurd rfl ht
  visited_nodup := h.visited ▸ nodup_nil
  visited o ho := by
    rw [h.visited] at ho
    cases ho
  unvisited _ _ := by
    rw [h.tables.1]
    rfl
  ops_size := by
    rw [h.cloned, h.visited]
    rfl
  warnings := by
    rw [h.warnings, h.visited]
    rfl

/-- A source has been copied. -/
theorem Cloning.record_source (h : Cloning ctx₀ ctx) (hsource : ctx₀.source.WellFormed)
    (ht : t ∈ ctx₀.source.sources) (hops : g.ops = ctx.cloned.ops)
    (hcopy : Copying ctx₀ (ctx.withCopy g t c)) : Cloning ctx₀ (ctx.withCopy g t c) where
  copying := hcopy
  computable {t'} ht' := by
    by_cases heq : t = t'
    · exact heq ▸ .source ht
    · refine h.computable (t := t') ?_
      rwa [get?_record, if_neg heq] at ht'
  visited_nodup := h.visited_nodup
  visited o ho := by
    obtain ⟨op, hop, hin, hout⟩ := h.visited o ho
    exact ⟨op, hop, fun x hx => Ledger.record_ne_none (hin x hx),
      fun hs => Ledger.record_ne_none (hout hs)⟩
  unvisited {o op} hop ho := by
    have hne : t ≠ op.output := fun heq => hsource.not_source_of_output hop (heq ▸ ht)
    rw [get?_record, if_neg hne]
    exact h.unvisited hop ho
  ops_size := by
    rw [hops]
    exact h.ops_size
  warnings := h.warnings

section Visiting

variable (h : Cloning ctx₀ ctx) (hop : ctx₀.source.ops.get? o = some op)
  (hin : ∀ x ∈ op.inputs, ctx.cloneOf.get? x ≠ none) (hnew : o ∉ ctx.visited)

include h hop hin hnew

/-- The output of a supported operation has been copied. -/
theorem Cloning.record_output (hsource : ctx₀.source.WellFormed)
    (hs : op.kind.isSupported = true) {g : Graph} (hops : g.ops.size = ctx.cloned.ops.size + 1)
    (hcopy : Copying ctx₀ { ctx.withCopy g op.output c with visited := o :: ctx.visited }) :
    Cloning ctx₀ { ctx.withCopy g op.output c with visited := o :: ctx.visited } where
  copying := hcopy
  computable {t'} ht' := by
    by_cases heq : op.output = t'
    · exact heq ▸ .of_supported hop hs fun x hx => h.computable (hin x hx)
    · refine h.computable (t := t') ?_
      rwa [get?_record, if_neg heq] at ht'
  visited_nodup := nodup_cons.2 ⟨hnew, h.visited_nodup⟩
  visited o' ho' := by
    rcases mem_cons.1 ho' with rfl | ho'
    · refine ⟨op, hop, fun x hx => Ledger.record_ne_none (hin x hx), fun _ => ?_⟩
      rw [get?_record, if_pos rfl]
      exact some_ne_none c
    · obtain ⟨op', hop', hin', hout'⟩ := h.visited o' ho'
      exact ⟨op', hop', fun x hx => Ledger.record_ne_none (hin' x hx),
        fun hs => Ledger.record_ne_none (hout' hs)⟩
  unvisited {o' op'} hop' ho' := by
    have hne : op.output ≠ op'.output := fun heq =>
      ho' (hsource.op_eq_of_output hop hop' heq ▸ mem_cons_self)
    rw [get?_record, if_neg hne]
    exact h.unvisited hop' fun hmem => ho' (mem_cons_of_mem o hmem)
  ops_size := by rw [filter_cons, supports_eq hop, if_pos hs, length_cons, hops, h.ops_size]
  warnings := by grind [reverse_cons, unsupported?_eq, warnings]

/-- An operation that is not supported has been passed over. -/
theorem Cloning.pass_over (hs : op.kind.isSupported = false) :
    Cloning ctx₀ { ctx with
      visited := o :: ctx.visited
      warnings := ctx.warnings ++ [.unsupportedOperator o op.kind.name] } where
  copying := h.copying.mark _ _
  computable := h.computable
  visited_nodup := nodup_cons.2 ⟨hnew, h.visited_nodup⟩
  visited o' ho' := by grind [op, visited]
  unvisited hop' ho' := h.unvisited hop' fun hmem => ho' (mem_cons_of_mem o hmem)
  ops_size := by
    rw [filter_cons, supports_eq hop, hs]
    exact h.ops_size
  warnings := by grind [reverse_cons, unsupported?_eq, warnings]

end Visiting

/-! ## Single steps -/

section Steps

variable {x y : Tensor} {E : FusionError → Context → Prop} {Q : Unit → Context → Prop}

theorem after_copyName (ctx : Context) (hx : ctx.source.tensors.get? t = some x)
    (hc : ctx.cloned.tensors.get? c = some y)
    (h : Q () { ctx with cloned := ctx.cloned.named c x.name }) : After (copyName t c) ctx Q E := by
  unfold copyName
  refine .bind (.ask_fault (get_eq_ok.2 hx) ?_)
  cases hname : x.name with
  | none =>
    rw [hname] at h
    exact .pure h
  | some n =>
    rw [hname] at h
    refine .onCloned (after_setName (E := fun _ _ => False) (Q := fun _ g =>
      g = ctx.cloned.named c (some n)) rfl fun hnone => ?_) (fun _ g hg => hg ▸ h)
      fun _ _ hfalse => hfalse.elim
    grind

/-- Naming and recording a copy that has just been added. -/
theorem after_recordCopy (h : Copying ctx₀ ctx) (hx : ctx.source.tensors.get? t = some x)
    (hnew : ctx.cloneOf.get? t = none) {g : Graph} (hg : ctx.cloned.Grows g) (hwf : g.WellFormed)
    (hseq : g.Sequential) (hfresh : c = ctx.cloned.tensors.next)
    (hsize : g.tensors.size = ctx.cloned.tensors.size + 1)
    (henters : Graph.Enters x.spec.role none c ctx.cloned g)
    (hcopied : ∀ g' copies, g.Grows g' →
      (∀ x y, ctx.cloneOf.get? x = some y → copies.get? x = some y) →
      ({ ctx with cloned := g', cloneOf := copies } : Context).CopiedAs t c)
    (hQ : ∀ g', g'.ops = g.ops → Graph.Enters x.spec.role x.name c ctx.cloned g' →
      Copying ctx₀ (ctx.withCopy g' t c) → Q () (ctx.withCopy g' t c)) :
    After (copyName t c) { ctx with cloned := g }
      (fun _ ctx' => After (recordClone t c) ctx' Q E) E := by
  obtain ⟨y, hy, -⟩ := henters.entered
  have hren := g.renames_named c x.name
  refine after_copyName { ctx with cloned := g } hx hy ?_
  refine .recordNew hnew (hQ _ hren.ops_eq (henters.named x.name) ?_)
  refine h.record (hg.trans hren.grows) (hren.wellFormed hwf) (hren.sequential hseq) hnew hfresh
    (hren.size_eq.trans hsize) (hcopied _ _ hren.grows fun x y hxy => ?_)
  rw [get?_record, if_neg, hxy]
  grind

theorem after_clonedKind (haxes : ctx.axes.Valid) (hsource : ctx.source.WellFormed)
    {kind : Operator} {Q : Operator → Context → Prop}
    (h : ∀ kind', ctx.CopiedKind kind kind' → Q kind' ctx) : After (clonedKind kind) ctx Q E := by
  unfold clonedKind
  split
  · rename_i target
    obtain ⟨old, hold⟩ : ∃ old, sourceBatch? ctx.source ctx.axes = .ok old := by
      rcases sourceBatch?_cases hsource haxes with ⟨hb, -⟩ | ⟨_, _, _, hb⟩ <;> exact ⟨_, hb⟩
    refine .bind (.get ?_)
    refine .bind (.check_fault hold ?_)
    exact .pure (h _ (.inr ⟨target, old, rfl, hold, rfl⟩))
  · rename_i hne
    exact .pure (h _ (.inl ⟨hne, rfl⟩))

end Steps

section Cloning

variable (hsource : ctx₀.source.WellFormed) (haxes : ctx₀.axes.Valid) (hP : P → ctx₀.Copyable)
  {Q : Unit → Context → Prop}

include hsource haxes in
theorem after_cloneInput (h : Cloning ctx₀ ctx) (ht : t ∈ ctx₀.source.inputs)
    (hnew : ctx.cloneOf.get? t = none)
    (hQ : ∀ c g, Cloning ctx₀ (ctx.withCopy g t c) →
      (∀ done, Mirrors done ctx → Mirrors (done ++ [t]) (ctx.withCopy g t c)) →
      Q () (ctx.withCopy g t c)) :
    After (cloneInput t) ctx Q (Outside P) := by
  have hcopying := h.copying
  obtain ⟨x, hx, hrole⟩ := hsource.mem_inputs.1 ht
  rw [← h.source_eq] at hx
  have hspec : ctx.source.spec t = .ok x.spec := by
    rw [Graph.spec, get_eq_ok.2 hx]
    rfl
  -- The copy is created with the new shape, whichever way that comes about.
  have hcreate : After (do
      let cloned ← onCloned (createTensor
        { x.spec with shape := ctx.inputShape x.spec.shape })
      copyName t cloned
      recordClone t cloned) ctx Q (Outside P) := by
    refine .bind (.onCloned (after_createTensor (E := fun _ _ => False)
      (Q := fun c g => c = ctx.cloned.tensors.next ∧ g = ctx.cloned.withTensor (.ofSpec
        { x.spec with shape := ctx.inputShape x.spec.shape })) ⟨rfl, rfl⟩) ?_
      fun _ _ hfalse => hfalse.elim)
    rintro c g ⟨rfl, rfl⟩
    have hw : (ofSpec { x.spec with shape := ctx.inputShape x.spec.shape }).spec.role.isWritable =
        false := by
      rw [ofSpec, hrole]
      rfl
    refine .bind (after_recordCopy hcopying hx hnew (.withTensor ..)
      (hcopying.wellFormed.withTensor rfl rfl)
      (hcopying.sequential.withTensor hcopying.wellFormed hw) rfl (size_push ..)
      (enters_withTensor ctx.cloned (.ofSpec { x.spec with shape := ctx.inputShape x.spec.shape }))
      (fun g' copies hgrow _ => ?_) fun g' hops henters hcopy => ?_)
    · obtain ⟨y, hy, hs, hd⟩ := hgrow.tensor (get?_push_next ctx.cloned.tensors _)
      exact .input hx hrole hy hs hd
    · refine hQ _ g' (h.record_source hsource (mem_append_left _ ht) hops hcopy) fun done hm => ?_
      have hstep := hm.record hx hnew henters ctx.visited
      rwa [if_pos hrole] at hstep
  unfold cloneInput
  refine .bind (.get ?_)
  refine .bind (.check_fault hspec ?_)
  refine .ite (fun hrank => ?_) fun hrank => ?_
  · have hlt : ctx.axes.batch < x.spec.shape.length := by
      rw [h.axes_eq]
      exact Nat.lt_of_lt_of_eq haxes.batch_lt hrank.symm
    refine .bind (.check_fault (Shape.withDim_ok hlt _) ?_)
    have hshape : x.spec.shape.set ctx.axes.batch ctx.grid.count = ctx.inputShape x.spec.shape :=
      (if_pos hrank).symm
    grind
  · have hshape : x.spec.shape = ctx.inputShape x.spec.shape := (if_neg hrank).symm
    grind

include hsource hP in
theorem after_cloneConstant (h : Cloning ctx₀ ctx) (ht : t ∈ ctx₀.source.constants)
    (hnew : ctx.cloneOf.get? t = none)
    (hQ : ∀ c g, Cloning ctx₀ (ctx.withCopy g t c) →
      (∀ done, Mirrors done ctx → Mirrors done (ctx.withCopy g t c)) →
      Q () (ctx.withCopy g t c)) :
    After (cloneConstant t) ctx Q (Outside P) := by
  have hcopying := h.copying
  obtain ⟨x, hx₀, hrole⟩ := mem_constants.1 ht
  have hx := hx₀
  rw [← h.source_eq] at hx
  unfold cloneConstant
  refine .bind (.get ?_)
  refine .bind (.check_fault (get_eq_ok.2 hx) ?_)
  refine .bind (.onCloned (after_createConstant
    (E := fun _ _ => ¬ P)
    (Q := fun c g => x.spec.byteSize ctx.limit = .ok (x.data.getD []).length ∧
      c = ctx.cloned.tensors.next ∧ g = ctx.cloned.withTensor
        { ofSpec { x.spec with role := .constant } with data := some (x.data.getD []) })
    (fun hsize => ⟨hsize, rfl, rfl⟩) fun hsize _ hp => ?_) ?_
    fun e _ hne => ⟨isInternal_ofGraph e, hne⟩)
  · obtain ⟨bytes, hbytes, hlen⟩ := (hP hp).data hx₀ hrole
    refine hsize ?_
    rw [h.limit_eq, hbytes]
    exact hlen
  · rintro c g ⟨hsize, rfl, rfl⟩
    have henters := enters_withTensor ctx.cloned
      { ofSpec { x.spec with role := .constant } with data := some (x.data.getD []) }
    refine .bind (after_recordCopy hcopying hx hnew (.withTensor ..)
      (hcopying.wellFormed.withTensor rfl rfl)
      (hcopying.sequential.withTensor hcopying.wellFormed rfl) rfl (size_push ..)
      (hrole.symm ▸ henters) (fun g' copies hgrow _ => ?_) fun g' hops henters hcopy => ?_)
    · obtain ⟨y, hy, hs, hd⟩ := hgrow.tensor (get?_push_next ctx.cloned.tensors _)
      refine .constant hx hrole hy (hs.trans ?_) hd ((hasPeak_byteSize x.spec).ok_unbounded hsize)
      rw [ofSpec, ← hrole]
    · refine hQ _ g' (h.record_source hsource (mem_append_right _ ht) hops hcopy) fun done hm => ?_
      have hstep := hm.record hx hnew henters ctx.visited
      rwa [hrole, if_neg (by decide), append_nil] at hstep

theorem mapM_get?_eq_some {l : Ledger TensorId TensorId} {xs ys : List TensorId} :
    xs.mapM l.get? = some ys ↔ List.Forall₂ (fun x y => l.get? x = some y) xs ys := by
  induction xs generalizing ys with
  | nil =>
    rw [mapM_nil, forall₂_nil_left_iff]
    grind
  | cons x rest ih => grind [forall₂_cons_left_iff, bind_eq_bind, bind_eq_some_iff]

/-- The copy of an operation can be added. -/
theorem Cloning.inferOutput_ok (h : Cloning ctx₀ ctx) (hsource : ctx₀.source.WellFormed)
    (hc : ctx₀.Copyable) (hop : ctx₀.source.ops.get? o = some op)
    {kind : Operator} (hkind : ctx.CopiedKind op.kind kind) {inputs : List TensorId}
    (hinputs : List.Forall₂ (fun x y => ctx.cloneOf.get? x = some y) op.inputs inputs) :
    ∃ s, ctx.cloned.inferOutput ctx.limit kind inputs = .ok s := by
  obtain ⟨s, hs⟩ := hc.infers h.copying hop hkind hinputs
  refine ⟨s, inferOutput_eq_ok.2 ⟨?_, fun c hc => ?_, h.limit_eq ▸ hs⟩⟩
  · grind [forall₂_nil_right_iff, WellFormed.inputs_ne_nil]
  · obtain ⟨t, -, htc⟩ := forall₂_right_mem hinputs hc
    exact (h.copying.copied htc).known h.copying.wellFormed

/-- The tensors that have a copy. -/
def hasClone (ctx : Context) (t : TensorId) : Bool := ctx.cloneOf.contains t

theorem hasClone_iff : ctx.hasClone t = true ↔ ctx.cloneOf.get? t ≠ none := by
  simp [hasClone, Ledger.contains, isSome_iff_ne_none]

theorem hasClone_record (g : Graph) (v : List OpId) (c : TensorId) (u : TensorId) :
    ({ ctx.withCopy g t c with visited := v } : Context).hasClone u =
      (ctx.hasClone u || decide (u = t)) := by
  unfold hasClone Ledger.contains
  rw [get?_record]
  grind

include hsource haxes hP in
theorem after_cloneOp (h : Cloning ctx₀ ctx) (hop : ctx₀.source.ops.get? o = some op) :
    After (cloneOp o) ctx (fun r ctx' => (Cloning ctx₀ ctx' ∧
        ∀ done, Mirrors done ctx → Mirrors done ctx') ∧
      ctx₀.source.Advances ctx.hasClone ctx'.hasClone r ∧ (∀ o' ∈ ctx.visited, o' ∈ ctx'.visited) ∧
      ((∀ x ∈ op.inputs, ctx.hasClone x = true) → o ∈ ctx'.visited)) (Outside P) := by
  have hop' := hop
  rw [← h.source_eq] at hop'
  obtain ⟨y, hy⟩ := hsource.output_known hop
  have hspec : ctx.source.spec op.output = .ok y.spec := by
    rw [Graph.spec, h.source_eq, get_eq_ok.2 hy]
    rfl
  unfold cloneOp
  refine .bind (.get ?_)
  refine .bind (.check_ok (lift_graph_eq_ok.2 (op_eq_ok.2 hop')) ?_)
  split
  · rename_i hnone
    refine .pure ⟨⟨h, fun _ => id⟩, rfl, fun _ ho => ho, fun hin => ?_⟩
    obtain ⟨inputs, hinputs⟩ : ∃ inputs, op.inputs.mapM ctx.cloneOf.get? = some inputs := by
      have hex : ∀ x ∈ op.inputs, ∃ y, ctx.cloneOf.get? x = some y := fun x hx =>
        ne_none_iff_exists'.1 (hasClone_iff.1 (hin x hx))
      choose! f hf using hex
      exact ⟨op.inputs.map f, mapM_get?_eq_some.2
        (forall₂_map_right_iff.2 (forall₂_same.2 hf))⟩
    grind
  · rename_i inputs hinputs
    rw [mapM_get?_eq_some] at hinputs
    have hin : ∀ x ∈ op.inputs, ctx.cloneOf.get? x ≠ none := fun x hx hx' => by
      obtain ⟨y, -, hxy⟩ := forall₂_left_mem hinputs hx
      grind
    refine .bind (.bind (.get ?_))
    refine .ite (fun hseen => .pure (.pure ⟨⟨h, fun _ => id⟩, rfl, fun _ ho => ho,
      fun _ => hseen⟩)) fun hseen => ?_
    refine .bind (.set (.pure ?_))
    refine .ite (fun hfalse => by cases hfalse) fun _ => ?_
    refine .ite (fun hs => .bind (.modify ?_)) fun hs => ?_
    · rw [not_eq_true'] at hs
      exact .pure ⟨⟨h.pass_over hop hin hseen hs, fun _ hm => ⟨hm.copy, hm.inputs⟩⟩, rfl,
        fun _ ho => mem_cons_of_mem o ho, fun _ => mem_cons_self⟩
    rw [not_eq_true, not_eq_false'] at hs
    refine .bind (after_clonedKind (h.axes_eq ▸ haxes) (h.source_eq ▸ hsource)
      fun kind hkind => ?_)
    refine .bind (.check_fault hspec ?_)
    have hw : ∀ r : Role, (if r = .output then Role.output else .transient).isWritable = true := by
      intro r
      split_ifs <;> rfl
    refine .bind (.onCloned (after_emit_writable (E := fun _ _ => ¬ P)
      (Q := fun c g => c = ctx.cloned.tensors.next ∧ ∃ s spec,
        ctx.cloned.inferOutput ctx.limit kind inputs = .ok s ∧
          ctx.cloned.emitSpec inputs s (if y.spec.role = .output then .output else .transient)
          spec ∧
          g = ctx.cloned.emitted spec kind inputs) (hw y.spec.role) ?_
      fun hnone _ hp => ?_) ?_ fun e _ hne => ⟨isInternal_ofGraph e, hne⟩)
    · grind
    · obtain ⟨s, hs'⟩ := h.inferOutput_ok hsource (hP hp) hop hkind hinputs
      exact hnone s hs'
    · rintro c g ⟨rfl, s, spec, hs', hspec, rfl⟩
      obtain ⟨-, hknown, hs'⟩ := inferOutput_eq_ok.1 hs'
      obtain ⟨hshape, hrole⟩ : spec.shape = s ∧
          spec.role = if y.spec.role = .output then .output else .transient := by
        obtain ⟨_, _, _, -, -, rfl⟩ := hspec
        exact ⟨rfl, rfl⟩
      have hcopying := h.copying
      -- The output of an operation has the role of one, or none.
      have hrole' : spec.role = y.spec.role := by
        cases hr : y.spec.role with
        | output | transient => rw [hrole, hr]; rfl
        | input | constant =>
          refine absurd (hsource.mem_sources.2 ⟨y, hy, ?_⟩) (hsource.not_source_of_output hop)
          rw [hr]
          rfl
      have henters := (enters_withTensor ctx.cloned (.ofSpec spec)).withOp
        ⟨kind, inputs, ctx.cloned.tensors.next⟩
      refine .bind ((after_recordCopy (hcopying.mark ctx.warnings (o :: ctx.visited))
        (h.source_eq ▸ hy) (h.unvisited hop hseen) (.emitted ..)
        (hcopying.wellFormed.emitted (hrole ▸ hw y.spec.role) hknown
          (hshape ▸ inferShape_unbounded hs'))
        (hcopying.sequential.emitted hcopying.wellFormed hknown hspec) rfl (emitted_size ..)
        (hrole' ▸ henters) (fun g' copies hgrow hext => ?_) fun g' hops henters hcopy => ?_).mono
        fun _ ctx' h' => .bind (h'.mono fun _ _ h'' => h''))
      · obtain ⟨z, hz, hspec, -⟩ := emitted_output ctx.cloned spec kind inputs
        obtain ⟨z', hz', hspec', -⟩ := hgrow.tensor hz
        refine .written hop' rfl hs (hgrow.op (emitted_op ..)) rfl hkind
          (hinputs.imp fun x y => hext x y) (h.source_eq ▸ hy) hz' fun hout => ?_
        grind
      · refine .pure ⟨⟨h.record_output hop hin hseen hsource hs ?_ hcopy, fun done hm => ?_⟩,
          ⟨lt_of_get? hy, ?_, hasClone_record g' _ _⟩,
          fun _ ho => mem_cons_of_mem o ho, fun _ => mem_cons_self⟩
        · grind [emitted_ops_size]
        · have hstep :=
            hm.record (h.source_eq ▸ hy) (h.unvisited hop hseen) henters (o :: ctx.visited)
          grind
        · simp [hasClone, Ledger.contains, h.unvisited hop hseen]

/-! ## All of it -/

/-- How cloning ends: with a copy of everything that can be computed. -/
structure Cloned (ctx₀ ctx : Context) : Prop extends Cloning ctx₀ ctx where
  sources : ∀ t ∈ ctx₀.source.sources, ctx.cloneOf.get? t ≠ none
  complete : ∀ {o op}, ctx₀.source.ops.get? o = some op →
    (∀ x ∈ op.inputs, ctx.cloneOf.get? x ≠ none) → o ∈ ctx.visited
  mirrors : Mirrors ctx₀.source.inputs ctx

/-- **Cloning** copies everything that can be computed. It never finds its tables out of step, and
does not fail at all where everything can be copied. -/
theorem after_cloneSource {lim : Limit} {source : Graph} {options : Options}
    (h₀ : Starts lim source options ctx₀) (hsource : ctx₀.source.WellFormed)
    (hP : P → ctx₀.Copyable) :
    After cloneSource ctx₀ (fun _ ctx => Cloned ctx₀ ctx) (Outside P) := by
  have haxes := h₀.axes
  have hnodup := hsource.sources_nodup
  -- The copies so far are those of the sources that are done.
  let I : List TensorId → Context → Prop := fun done ctx =>
    Cloning ctx₀ ctx ∧ ctx.visited = [] ∧ ∀ t, ctx.cloneOf.get? t ≠ none ↔ t ∈ done
  have hrecord : ∀ {done ctx t c g}, I done ctx → Cloning ctx₀ (ctx.withCopy g t c) →
      I (done ++ [t]) (ctx.withCopy g t c) := by
    rintro done ctx t c g ⟨-, hvisited, hdone⟩ h
    refine ⟨h, hvisited, fun u => ?_⟩
    rw [get?_record, mem_append, mem_singleton, ← hdone u]
    grind
  have hstart : Mirrors [] ctx₀ := by
    refine ⟨fun {t c} hc => ?_, ?_⟩
    · rw [h₀.tables.1] at hc
      cases hc
    · rw [h₀.cloned]
      exact .nil
  unfold cloneSource
  refine .bind (.get ?_)
  refine .then_ (.forM (fun done ctx => I done ctx ∧ Mirrors done ctx)
    ⟨⟨h₀.cloning, h₀.visited, fun t => ?_⟩, hstart⟩ fun done t rest ctx hxs h => ?_)
    fun _ ctx₁ h₁ => ?_
  · simp [h₀.tables.1]
  · have ht : t ∈ ctx₀.source.inputs := hxs ▸ mem_append_right _ mem_cons_self
    have hfresh : t ∉ done := fun hmem =>
      (nodup_append.1 (hxs ▸ hsource.inputs_nodup)).2.2 t hmem t mem_cons_self rfl
    refine after_cloneInput hsource haxes h.1.1 ht ?_ fun c g hc hm => ⟨hrecord h.1 hc, hm _ h.2⟩
    exact not_not.1 (mt (h.1.2.2 t).1 hfresh)
  refine .then_ (.forM (fun done ctx => I (ctx₀.source.inputs ++ done) ctx ∧
    Mirrors ctx₀.source.inputs ctx) ?_ fun done t rest ctx hxs h => ?_) fun _ ctx₂ h₂ => ?_
  · grind
  · have ht : t ∈ ctx₀.source.constants := hxs ▸ mem_append_right _ mem_cons_self
    have hfresh : t ∉ ctx₀.source.inputs ++ done := fun hmem => by
      grind [sources, append_assoc, nodup_append, mem_cons_self]
    refine after_cloneConstant hsource hP h.1.1 ht ?_ fun c g hc hm => ⟨?_, hm _ h.2⟩
    · exact not_not.1 (mt (h.1.2.2 t).1 hfresh)
    · grind
  obtain ⟨⟨hcloning, hvisited, hdone⟩, hmirrors⟩ := h₂
  have hclones : ctx₂.hasClone = fun t => decide (t ∈ ctx₀.source.sources) := by
    funext t
    rw [Bool.eq_iff_iff, hasClone_iff, decide_eq_true_iff]
    exact hdone t
  have hwalk := After.walk hsource cloneOp hasClone
    (fun ctx => (Cloning ctx₀ ctx ∧ Mirrors ctx₀.source.inputs ctx) ∧
      ∀ t ∈ ctx₀.source.sources, ctx.cloneOf.get? t ≠ none)
    (Outside P) (fun o op ctx hop h => ?_) ctx₀.source.readings
    (ctx₀.source.sources.flatMap ctx₀.source.consumers) ctx₂
    ⟨⟨hcloning, hmirrors⟩, fun t ht => (hdone t).2 ht⟩
    (hsource.queued_sources (fun t ht => (hdone t).1 (hasClone_iff.1 ht)) _) ?_
  · refine hwalk.mono ?_
    rintro _ ctx ⟨⟨⟨hcloning, hmirrors⟩, hsources⟩, hqueued⟩
    refine ⟨hcloning, hsources, fun hop hin => ?_, hmirrors⟩
    exact (hqueued.ready hop fun x hx => hasClone_iff.2 (hin x hx)).resolve_right not_mem_nil
  · refine (after_cloneOp hsource haxes hP h.1.1 hop).mono ?_
    rintro r ctx' ⟨⟨hcloning', hmirrors'⟩, hadv, hkeep, hself⟩
    refine ⟨⟨⟨hcloning', hmirrors' _ h.1.2⟩, fun t ht => hasClone_iff.1 ?_⟩, hadv, hkeep, hself⟩
    have hold := hasClone_iff.2 (h.2 t ht)
    cases r with
    | none => exact (congrFun hadv t).trans hold
    | some u => rw [hadv.2.2 t, hold, Bool.true_or]
  · grind [unread_add_readers, lt_of_get?, WellFormed.mem_sources]

end Cloning

section Ended

variable (h : Cloned ctx₀ ctx)

include h

/-- **The tensors with a copy are the computable ones.** -/
theorem Cloned.computable_iff : ctx.cloneOf.get? t ≠ none ↔ ctx₀.source.Computable t := by
  refine ⟨h.computable, fun ht => ?_⟩
  induction ht with
  | source ht => exact h.sources _ ht
  | written hop hslice hsoftmax hin ih =>
    obtain ⟨op', hop', -, hout⟩ := h.visited _ (h.complete hop ih)
    grind [isSupported_iff]

/-- The operations visited are those that are ready. -/
theorem Cloned.mem_visited (hop : ctx₀.source.ops.get? o = some op) :
    o ∈ ctx.visited ↔ ∀ x ∈ op.inputs, ctx₀.source.Computable x := by
  constructor
  · intro ho x hx
    obtain ⟨op', hop', hin, -⟩ := h.visited o ho
    grind [computable_iff]
  · exact fun hin => h.complete hop fun x hx => h.computable_iff.2 (hin x hx)

end Ended

/-- A working copy made at any limit has nothing inferred yet, and is a graph in plain
arithmetic. -/
theorem Cloned.fresh (h : Cloned ctx₀ ctx) (h₀ : Starts lim source options ctx₀) :
    (ctx.under .unbounded).Fresh := by
  have hframe := h.copying.frame
  obtain ⟨-, -, hgaps, -, -, hplacements, haxisMaps, hplans, -⟩ := h₀.tables
  obtain ⟨n, -, hgrid⟩ := h₀.count
  obtain ⟨-, hpos, hcount⟩ := Grid.ofCount_spec hgrid
  refine ⟨⟨rfl, h.copying.wellFormed, h.copying.sequential, ?_, ?_, ?_⟩, ?_, ?_, ?_, ?_,
    fun o name reason hmem => ?_⟩
  · rw [hframe]
    exact h₀.axes
  · rw [hframe]
    exact hpos
  · rw [hframe]
    exact hcount
  · rw [hframe]
    exact hplacements
  · rw [hframe]
    exact haxisMaps
  · rw [hframe]
    exact hplans
  · rw [hframe]
    exact hgaps
  · obtain ⟨o', -, hunsupported⟩ := mem_filterMap.1 (h.warnings ▸ hmem)
    obtain ⟨op, -, hite⟩ := bind_eq_some_iff.1 hunsupported
    grind

end Context

end CanvasFusion
