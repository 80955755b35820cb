import CanvasFusion.Proofs.Fusion.Adapters

/-!
# Emission

Every operation is emitted once its inputs are there, each brought into the form that is needed
(`after_fusedInput`). So at the end every tensor of the working copy has a fused tensor and every
operation has been emitted, once (`after_emitAll`).
-/

namespace CanvasFusion

open CanvasFusion.Graph Table Ledger List Option Pass

/-! ## Rules that read gaps -/

theorem GapRule.conforms_readsGap (r : GapRule) : Conforms fun lim => r.readsGap lim := by
  cases r with
  | identity | pad total => exact .const _
  | window w => exact .ite (.const _) (.bind w.hasPeak_backReach.conforms fun _ => .const _)

theorem GapRule.readsGap_ok {r : GapRule} (hr : r.Valid) : ∃ b, r.readsGap .unbounded = .ok b := by
  cases r with
  | identity => exact ⟨false, rfl⟩
  | window w =>
    show ∃ b, w.readsGap .unbounded = .ok b
    rw [Window.readsGap, Window.backReach_ok hr]
    split_ifs
    · exact ⟨true, rfl⟩
    · exact ⟨_, rfl⟩
  | pad total => exact ⟨true, rfl⟩

namespace Context

variable {ctx ctx' ctx₀ : Context} {t x y f : TensorId} {o : OpId} {op : Operation}
  {plan : FusedPlan} {P : Prop} {g : Graph} {z : Tensor} {E : FusionError → Context → Prop}

section Fills

/-- Whether an operation reads gaps of a tensor along one dimension. -/
def readsGapAlong (ctx : Context) (plan : FusedPlan) (t : TensorId) (d : Dim) :
    Except FusionError Bool := do
  if !ctx.grid.isTiled d then pure false
  else
    let reads ← (plan.rules.get d).readsGap ctx.limit
    pure (reads && 0 < (ctx.gapOf t).get d)

variable (h : Emitting P ctx)

include h

theorem Emitting.fill_ok (ht : ctx.isCanvas t = true) (hx : ctx.fusedOf.get? t ≠ none) :
    ∃ v, ctx.fill t = .ok v ∧ ctx.fills.get? t = some v := by
  obtain ⟨v, hv⟩ := ne_none_iff_exists'.1 (h.fills.2 ⟨ht, hx⟩)
  exact ⟨v, by rw [fill, hv]; rfl, hv⟩

/-- Whether gaps of a tensor are read along one dimension. -/
theorem Emitting.readsGap_cases (hfuses : ctx.Fuses o op plan) (t : TensorId) (d : Dim) :
    (∃ e, ctx.readsGapAlong plan t d = .error e ∧ Outside P e ctx) ∨
      ∃ b, ctx.readsGapAlong plan t d = .ok b ∧ (b = true ↔ ctx.grid.isTiled d = true ∧
        (plan.rules.get d).readsGap .unbounded = .ok true ∧ 0 < (ctx.gapOf t).get d) := by
  unfold readsGapAlong
  cases htiled : ctx.grid.isTiled d with
  | false => exact .inr ⟨false, rfl, by simp⟩
  | true =>
    cases hreads : (plan.rules.get d).readsGap ctx.limit with
    | ok reads =>
      have hreads' := GapRule.conforms_readsGap _ _ _ hreads
      exact .inr ⟨_, rfl, by simp [hreads']⟩
    | error fault =>
      refine .inl ⟨_, rfl, isInternal_of_lift_fault (α := Bool) (x := .error fault) rfl,
        fun hp => ?_⟩
      obtain ⟨b, hb⟩ := GapRule.readsGap_ok (hfuses.sound.valid d)
      grind [limit]

/-- **When a mask is needed.** -/
theorem after_needsMask (hfuses : ctx.Fuses o op plan) (hx : ctx.fusedOf.get? t ≠ none)
    (hs : ctx.HasSamples t) {Q : Bool → Context → Prop}
    (htrue : ctx.needsMask plan t = .ok true → ctx.isCanvas t = true →
      ctx.ReadsGapOf plan t → Q true ctx)
    (hfalse : ctx.needsMask plan t = .ok false →
      (ctx.isCanvas t = true → ctx.fills.get? t = some .zeroed ∨ ¬ ctx.ReadsGapOf plan t) →
      Q false ctx) : After (ask (·.needsMask plan t)) ctx Q (Outside P) := by
  have hgap : ctx.gap t = .ok (ctx.gapOf t) := hs.gap_ok h.settled
  cases hcanvas : ctx.isCanvas t with
  | false =>
    have hno : ctx.needsMask plan t = .ok false := by rw [needsMask, hcanvas]; rfl
    grind [After.ask_ok]
  | true =>
    obtain ⟨v, hv, hfill⟩ := h.fill_ok hcanvas hx
    by_cases hzero : v = .zeroed
    · have hno : ctx.needsMask plan t = .ok false := by rw [needsMask, hcanvas, hv, hzero]; rfl
      exact .ask_ok hno (hfalse hno fun _ => .inl (hzero ▸ hfill))
    have hread : ctx.needsMask plan t = (do
        if ← ctx.readsGapAlong plan t .first then pure true
        else ctx.readsGapAlong plan t .second) := by
      rw [needsMask, hcanvas, hv, hgap]
      refine (if_neg hzero).trans ?_
      change (ctx.readsGapAlong plan t .first >>= fun b => Dim.all.tail.foldlM _ b) = _
      refine bind_congr fun b => ?_
      cases b with
      | true => rfl
      | false => exact bind_pure (ctx.readsGapAlong plan t .second)
    -- The second dimension is looked at only if the first one is not read.
    rcases h.readsGap_cases hfuses t .first with ⟨e, he, hout⟩ | ⟨b, hb, hiff⟩
    · rw [he] at hread
      exact .ask_error hread hout
    rw [hb] at hread
    cases b with
    | true => exact .ask_ok hread (htrue hread hcanvas ⟨_, hiff.1 rfl⟩)
    | false =>
      rcases h.readsGap_cases hfuses t .second with ⟨e, he, hout⟩ | ⟨b', hb', hiff'⟩
      · exact .ask_error (hread.trans he) hout
      have hneeds : ctx.needsMask plan t = .ok b' := hread.trans hb'
      cases b' with
      | true => exact .ask_ok hneeds (htrue hneeds hcanvas ⟨_, hiff'.1 rfl⟩)
      | false =>
        refine .ask_ok hneeds (hfalse hneeds fun _ => .inr ?_)
        rintro ⟨d, hd⟩
        cases d with
        | first => exact Bool.false_ne_true (hiff.2 hd)
        | second => exact Bool.false_ne_true (hiff'.2 hd)

theorem Emitting.inputFill_ok (hx : ctx.fusedOf.get? t ≠ none) : ∃ v, ctx.inputFill t = .ok v := by
  unfold inputFill
  by_cases hcanvas : ctx.isCanvas t = true
  · rw [if_pos hcanvas]
    grind [fill_ok]
  · rw [if_neg hcanvas]
    exact ⟨_, rfl⟩

/-- What the gaps of an output hold is known once the inputs are there. -/
theorem Emitting.outputFill_ok (hfuses : ctx.Fuses o op plan)
    (hin : ∀ x ∈ op.inputs, ctx.fusedOf.get? x ≠ none) : ∃ v, ctx.outputFill op plan = .ok v := by
  have hfills : ∃ fills, (plan.gapped.mapM fun i => do
      let x ← Size.entry op.inputs i
      ctx.inputFill x : Except FusionError (List GapFill)) = .ok fills := by
    refine exists_mapM fun i hi => ?_
    have hlt : i < op.inputs.length := hfuses.sound.gapped_lt i hi
    obtain ⟨v, hv⟩ := h.inputFill_ok (hin _ (getElem_mem hlt))
    exact ⟨v, bind_eq_ok.2 ⟨_, lift_fault_eq_ok.2 (entry_eq_ok.2 (getElem?_eq_getElem hlt)), hv⟩⟩
  obtain ⟨fills, hfills⟩ := hfills
  have hpos : 0 < fills.length := by
    rw [← (mapM_eq_ok_iff.1 hfills).length_eq]
    exact length_pos_iff.2 hfuses.sound.gapped_ne
  have hfirst := entry_eq_ok.2 (getElem?_eq_getElem hpos)
  have hwindow : ∃ v, ctx.windowFill op.output = .ok v := by
    rw [windowFill, (hfuses.output_hasSamples h.settled).gap_ok h.settled, bind_ok]
    exact ⟨_, rfl⟩
  unfold outputFill
  rw [hfills, bind_ok, hfirst]
  cases op.kind with
  | conv2d | pool2d => exact hwindow
  | _ => exact ⟨_, rfl⟩

end Fills

/-! ## The forms of an input -/

section Forms

variable (h : Emitting P ctx)

include h

theorem after_batchedForm (hx : ctx.fusedOf.get? t ≠ none) : After (batchedForm t) ctx
    (fun f ctx' => Adapted P (ctx.batchedNeeds t) [] ctx ctx' ∧ ctx'.BatchedAs t f)
      (Outside P) := by
  obtain ⟨x, hx⟩ := ne_none_iff_exists'.1 hx
  refine .bind (.get (.ite (fun hcanvas => ?_) fun hcanvas => ?_))
  · rw [batchedNeeds, if_pos hcanvas]
    refine (after_defuse h hcanvas hx rfl).mono fun f ctx' hf => ⟨hf.1, ?_⟩
    rw [BatchedAs, hf.1.grown.isCanvas, if_pos hcanvas]
    exact hf.2
  · rw [batchedNeeds, if_neg hcanvas]
    refine .check_ok (a := x) (by rw [fusedTensor, hx]; rfl) ⟨.refl h, ?_⟩
    rwa [BatchedAs, if_neg hcanvas]

/-- The canvas form, by whether a mask is needed. -/
theorem after_canvasForm {masked : Bool} (hx : ctx.fusedOf.get? t ≠ none) (ht : ctx.HasSamples t)
    (hneeds : ctx.needsMask plan t = .ok masked) (hmask : masked = true → ctx.ReadsGaps)
    (hclean : masked = false → ctx.isCanvas t = true →
      ctx.fills.get? t = some .zeroed ∨ ¬ ctx.ReadsGapOf plan t) :
    After (canvasForm t masked) ctx (fun f ctx' =>
      Adapted P (if ctx.isCanvas t then if ctx.needsMask plan t = .ok true then .mask t else .none
        else .tile t) [] ctx ctx' ∧ ctx'.CanvasAs plan t f) (Outside P) := by
  obtain ⟨x, hx⟩ := ne_none_iff_exists'.1 hx
  refine .bind (.get (.ite (fun hbatched => ?_) fun hcanvas => ?_))
  · have hbatched : ctx.isCanvas t = false := by simpa using hbatched
    rw [hbatched]
    refine (after_tile h ht hbatched hx).mono fun f ctx' hf => ⟨hf.1, ?_⟩
    exact .tiled (hf.1.grown.isCanvas ▸ hbatched) hf.2
  · have hcanvas : ctx.isCanvas t = true := by simpa using hcanvas
    rw [if_pos hcanvas, hneeds]
    refine .ite (fun hm => ?_) fun hm => ?_
    · rw [if_pos (congrArg Except.ok hm)]
      refine (after_mask h hcanvas hx (hmask hm)).mono fun f ctx' hf => ⟨hf.1, ?_⟩
      exact .masked (hf.1.grown.isCanvas ▸ hcanvas) hf.2
    · rw [if_neg fun heq => hm (Except.ok.inj heq)]
      refine .check_ok (a := x) (by rw [fusedTensor, hx]; rfl) ⟨.refl h, ?_⟩
      exact .clean hcanvas hx (hclean (by simpa using hm) hcanvas)

/-- An output of the graph is de-fused at once. -/
theorem after_outputForm {role : Role} (hcanvas : ctx.isCanvas t = true)
    (hx : ctx.fusedOf.get? t = some x) (hnew : ctx.defused.get? t = none) :
    After (do if role = .output then let _ ← defuse t .output) ctx (fun _ ctx' => ∃ outs,
      Adapted P (if role = .output then .defuse t else .none) outs ctx ctx' ∧
      List.Forall₂ ctx'.BatchedAs (if role = .output then [t] else []) outs) (Outside P) := by
  refine .ite (fun hrole => ?_) fun hrole => ?_
  · simp only [if_pos hrole]
    refine .then_ (after_defuse h hcanvas hx rfl) fun f ctx' hf => .pure ?_
    obtain ⟨hadapted, hf⟩ := hf
    rw [if_pos ⟨rfl, hnew⟩] at hadapted
    refine ⟨[f], hadapted, .cons ?_ .nil⟩
    rwa [BatchedAs, hadapted.grown.isCanvas, if_pos hcanvas]
  · simp only [if_neg hrole]
    exact .pure ⟨[], .refl h, .nil⟩

/-- **An input of an operation on the canvas** is brought into the form that the plan asks for. -/
theorem after_fusedInput (hfuses : ctx.Fuses o op plan) {i : Nat} (hi : op.inputs[i]? = some t)
    (hx : ctx.fusedOf.get? t ≠ none) : After (fusedInput plan t i) ctx (fun f ctx' =>
      Adapted P (ctx.operandNeeds plan (t, i)) [] ctx ctx' ∧ ctx'.OperandAs plan i t f)
    (Outside P) := by
  unfold fusedInput operandNeeds OperandAs
  refine .ite (fun hgapped => ?_) fun hbatched => ?_
  · simp only [if_pos hgapped]
    have ht := (hfuses.operand hgapped hi).1
    refine .bind (after_needsMask h hfuses hx ht (fun hneeds _ hreads => ?_)
      fun hneeds hclean => ?_)
    · obtain ⟨d, htiled, hreads, -⟩ := hreads
      exact after_canvasForm h hx ht hneeds (fun _ => ⟨o, plan, d, hfuses.planned, htiled, hreads⟩)
        fun hfalse => by cases hfalse
    grind [after_canvasForm]
  · simp only [if_neg hbatched]
    exact after_batchedForm h hx

end Forms

section Inputs

variable (h : Emitting P ctx) (hin : ∀ x ∈ op.inputs, ctx.fusedOf.get? x ≠ none)

include h hin

theorem after_batchedInputs : After (op.inputs.mapM batchedForm) ctx
    (fun inputs ctx' => Adapted P (.any op.inputs ctx.batchedNeeds) [] ctx ctx' ∧
      List.Forall₂ ctx'.BatchedAs op.inputs inputs) (Outside P) := by
  refine .mapM (fun done inputs ctx' => Adapted P (.any done ctx.batchedNeeds) [] ctx ctx' ∧
    Forall₂ ctx'.BatchedAs done inputs) ⟨.refl_any h _, .nil⟩
    fun done x rest inputs ctx₁ hxs h₁ => ?_
  have hx : ctx₁.fusedOf.get? x ≠ none := by
    rw [h₁.1.fusedOf]
    exact hin x (hxs ▸ mem_append_right done mem_cons_self)
  refine (after_batchedForm h₁.1.emitting hx).mono fun f ctx₂ h₂ => ⟨?_, ?_⟩
  · rw [Needs.any_snoc]
    exact h₁.1.trans (h₁.1.grown.batchedNeeds ▸ h₂.1)
  · exact rel_append (h₁.2.imp fun _ _ hold => hold.grow h₂.1.grown) (.cons h₂.2 .nil)

theorem after_fusedInputs (hfuses : ctx.Fuses o op plan) :
    After (op.inputs.zipIdx.mapM fun (x, i) => fusedInput plan x i) ctx
      (fun inputs ctx' => Adapted P (.any op.inputs.zipIdx (ctx.operandNeeds plan)) [] ctx ctx' ∧
        List.Forall₂ (fun p => ctx'.OperandAs plan p.2 p.1) op.inputs.zipIdx inputs)
        (Outside P) := by
  refine .mapM (fun (done : List (TensorId × Nat)) inputs ctx' =>
    Adapted P (.any done (ctx.operandNeeds plan)) [] ctx ctx' ∧
    Forall₂ (fun p => ctx'.OperandAs plan p.2 p.1) done inputs)
    ⟨.refl_any h _, .nil⟩ fun done p rest inputs ctx₁ hps h₁ => ?_
  obtain ⟨x, i⟩ := p
  have hmem : (x, i) ∈ op.inputs.zipIdx := hps ▸ mem_append_right done mem_cons_self
  have hi : op.inputs[i]? = some x := mem_zipIdx_iff_getElem?.1 hmem
  have hx := hin x (mem_of_getElem? hi)
  refine (after_fusedInput h₁.1.emitting (hfuses.congr h₁.1.grown.core) hi (h₁.1.fusedOf ▸ hx)).mono
    fun f ctx₂ h₂ => ⟨?_, ?_⟩
  · rw [Needs.any_snoc, ← h₁.1.grown.operandNeeds fun hcanvas => h.fills.2 ⟨hcanvas, hx⟩]
    exact h₁.1.trans h₂.1
  · exact rel_append (h₁.2.imp fun _ _ hold => hold.grow h₂.1.grown) (.cons h₂.2 .nil)

end Inputs

/-! ## Emitting a tensor -/

/-- The second state has one more tensor of the working copy emitted, and has counted some more
operations. -/
structure Emits (P : Prop) (t : TensorId) (fusedOps batchedOps : Nat) (ctx ctx' : Context) :
    Prop where
  grown : Grown ctx ctx'
  emitting : Emitting P ctx'
  fusedOf : ∀ {u}, ctx'.fusedOf.get? u ≠ none ↔ ctx.fusedOf.get? u ≠ none ∨ u = t
  visited : ctx'.visited = ctx.visited
  fusedOps_eq : ctx'.counters.fusedOps = ctx.counters.fusedOps + fusedOps
  batchedOps_eq : ctx'.counters.batchedOps = ctx.counters.batchedOps + batchedOps

section Adapted

variable {ctx'' : Context} {fusedOps batchedOps : Nat} {n : Needs} {outs : List TensorId}

theorem Adapted.emits (h : Adapted P n outs ctx ctx')
    (h' : Emits P t fusedOps batchedOps ctx' ctx'') : Emits P t fusedOps batchedOps ctx ctx'' where
  grown := h.grown.trans h'.grown
  emitting := h'.emitting
  fusedOf := by
    intro u
    rw [h'.fusedOf, h.fusedOf]
  visited := h'.visited.trans h.visited
  fusedOps_eq := by rw [h'.fusedOps_eq, h.fusedOps]
  batchedOps_eq := by rw [h'.batchedOps_eq, h.batchedOps]

theorem Emits.adapted (h : Emits P t fusedOps batchedOps ctx ctx')
    (h' : Adapted P n outs ctx' ctx'') : Emits P t fusedOps batchedOps ctx ctx'' where
  grown := h.grown.trans h'.grown
  emitting := h'.emitting
  fusedOf := by
    intro u
    rw [h'.fusedOf, h.fusedOf]
  visited := h'.visited.trans h.visited
  fusedOps_eq := h'.fusedOps.trans h.fusedOps_eq
  batchedOps_eq := h'.batchedOps.trans h.batchedOps_eq

end Adapted

/-- The state after a tensor has been emitted. -/
theorem Emitting.emits (h : Emitting P ctx) (hnew : ctx.fusedOf.get? t = none) {g : Graph}
    {fills : Ledger TensorId GapFill} {p : Float} {counters : Counters} {fusedOps batchedOps : Nat}
    (hgrows : ctx.fused.Grows g) (hrunnable : g.Runnable)
    (hsize : ctx.fused.tensors.size ≤ g.tensors.size) (hlate : ctx.fused.tensors.size ≤ y.index)
    (hhas : g.Has y (ctx.fusedShape t))
    (hold : ∀ {u v}, ctx.fills.get? u = some v → fills.get? u = some v)
    (hfills : ∀ {u}, fills.get? u ≠ none ↔ ctx.fills.get? u ≠ none ∨ u = t ∧ ctx.isCanvas t = true)
    (hinputs : ∀ f ∈ g.inputs, f ∈ ctx.fused.inputs ∨ f = y ∧ t ∈ ctx.cloned.inputs)
    (hmasks : counters.masks = ctx.counters.masks)
    (hfused : counters.fusedOps = ctx.counters.fusedOps + fusedOps)
    (hbatched : counters.batchedOps = ctx.counters.batchedOps + batchedOps)
    (hemitted : EmittedAs { ctx with
      fused := g, fusedOf := ctx.fusedOf.record t y, fills := fills
      proportions := ctx.proportions.record y p, counters := counters } t y) :
    Emits P t fusedOps batchedOps ctx { ctx with
      fused := g, fusedOf := ctx.fusedOf.record t y, fills := fills
      proportions := ctx.proportions.record y p, counters := counters } where
  grown := ⟨rfl, rfl, hgrows, get?_record_of_new hnew, id, id, id, hold⟩
  emitting := by
    refine h.grow ⟨rfl, rfl, hgrows, get?_record_of_new hnew, id, id, id, hold⟩ hrunnable
      (fun {u f} hf => ?_) (fun {u u' f} hf hf' => ?_) .inl .inl .inl (fun {u} => ?_)
      (fun {f} hf => ?_) (fun f hf => ?_) fun hpos => ?_
    · rcases cases_of_get?_record hf with hf | ⟨rfl, rfl⟩
      · exact .inl hf
      · exact .inr ⟨hhas, hemitted⟩
    · have hne : ∀ {v}, ctx.fusedOf.get? v = some y → False := fun hv =>
        absurd (h.fusedOf hv).1.lt (Nat.not_lt.2 hlate)
      rcases cases_of_get?_record hf with hold | ⟨rfl, rfl⟩
      · rcases cases_of_get?_record hf' with hold' | ⟨rfl, rfl⟩
        · exact h.injective hold hold'
        · exact (hne hold).elim
      · rcases cases_of_get?_record hf' with hold' | ⟨rfl, -⟩
        · exact (hne hold').elim
        · rfl
    · show fills.get? u ≠ none ↔ ctx.isCanvas u = true ∧ (ctx.fusedOf.record t y).get? u ≠ none
      grind [get?_record_ne_none, fills]
    · rcases get?_record_ne_none.1 hf with hf | rfl
      · exact Nat.lt_of_lt_of_le (h.proportions hf) hsize
      · exact hhas.lt
    · grind [get?_record_of_new, inputs, get?_record_self]
    · exact h.masks (hmasks ▸ hpos)
  fusedOf := get?_record_ne_none
  visited := rfl
  fusedOps_eq := hfused
  batchedOps_eq := hbatched

/-! ## Operations -/

section Shapes

variable {α : Type} {R : α → TensorId → Prop} {shape : α → Shape} {xs : List α} {ys : List TensorId}
  (h : List.Forall₂ R xs ys) (hR : ∀ x y, R x y → g.Has y (shape x))

include h hR

theorem map_shapeOf : ys.map g.shapeOf = xs.map shape := by
  induction h with
  | nil => rfl
  | cons hxy _ ih => rw [map_cons, map_cons, (hR _ _ hxy).shapeOf_eq, ih]

theorem exists_has : ∀ y ∈ ys, ∃ s, g.Has y s := by
  intro y hy
  obtain ⟨x, -, hxy⟩ := forall₂_right_mem h hy
  exact ⟨shape x, hR x y hxy⟩

end Shapes

theorem after_canvasKind (hs : ctx.core.Settled) (ht : ctx.HasSamples op.output)
    {Q : Operator → Context → Prop}
    (hQ : Q (ctx.canvasKindOf op) ctx) : After (canvasKind op) ctx Q E := by
  unfold canvasKind
  unfold canvasKindOf at hQ
  cases hkind : op.kind <;> rw [hkind] at hQ
  case reshape => exact .bind (.ask_ok (ht.gappedShape_ok hs) (.pure hQ))
  all_goals exact .pure hQ

/-- An operation has been emitted by its plan, with what it needs. If its output is one of the
graph, then the fused graph has an output more, which is the batched form. -/
structure Served (P : Prop) (o : OpId) (op : Operation) (ctx ctx' : Context) : Prop extends
    Emits P op.output (if ctx.isFused o then 1 else 0)
      (if ctx.isFused o then 0 else 1) ctx ctx' where
  supplies : ∃ outs, Supplies (ctx.demand o) outs ctx ctx' ∧
    List.Forall₂ ctx'.BatchedAs (if op.output ∈ ctx.cloned.outputs then [op.output] else []) outs
  inner : ctx.isCanvas op.output = true → ∃ f z, ctx'.fusedOf.get? op.output = some f ∧
    ctx'.fused.tensors.get? f = some z ∧ z.spec.role = .transient

section Operations

variable (h : Emitting P ctx) (hop : ctx.cloned.ops.get? o = some op)
  (hin : ∀ x ∈ op.inputs, ctx.fusedOf.get? x ≠ none) (hnew : ctx.fusedOf.get? op.output = none)
  {role : Role}

include h hop hin hnew

/-- On batched data an output of the graph is written as such. -/
theorem after_emitBatched (hw : role.isWritable = true)
    (hbatched : ctx.isCanvas op.output = false) : After (emitBatched op role) ctx
      (fun _ ctx' => Emits P op.output 0 1 ctx ctx' ∧ ∃ outs,
        Supplies (.any op.inputs ctx.batchedNeeds) outs ctx ctx' ∧
        List.Forall₂ ctx'.BatchedAs (if role = .output then [op.output] else []) outs)
      (Outside P) := by
  refine .then_ (after_batchedInputs h hin) fun inputs ctx₁ h₁ => ?_
  obtain ⟨hadapted, hinputs⟩ := h₁
  have h₁ := hadapted.emitting
  have hop₁ : ctx₁.cloned.ops.get? o = some op := hadapted.grown.cloned ▸ hop
  have hbatched₁ : ctx₁.isCanvas op.output = false := hadapted.grown.isCanvas ▸ hbatched
  have hnew₁ : ctx₁.fusedOf.get? op.output = none := hadapted.fusedOf ▸ hnew
  have hwf := h₁.settled.wellFormed
  have hhas := fun x f => h₁.has_of_batchedAs (t := x) (f := f)
  have hshape : Gives P (op.kind.inferShape .unbounded (inputs.map ctx₁.fused.shapeOf))
      (ctx₁.cloned.shapeOf op.output) := by
    rw [map_shapeOf hinputs hhas]
    exact .of_ok (hwf.op_shape hop₁)
  have hne : inputs ≠ [] := by
    rw [← length_pos_iff, ← hinputs.length_eq, length_pos_iff]
    exact hwf.inputs_ne_nil hop₁
  refine .bind (.get ?_)
  refine .bind (after_emit h₁.limit h₁.runnable hw hne (exists_has hinputs hhas) hshape
    fun y g hy => ?_)
  obtain ⟨z, hz⟩ := hwf.output_known hop₁
  refine .bind (.ask_fault (shape_ok hz) ?_)
  refine .bind (after_checkShape hy.has ?_)
  refine .bind (.recordNew hnew₁ ?_)
  have hlate := le_index_of_next hy.fresh
  refine .bind (.recordNew (h₁.proportion_new hlate) (.modify ?_))
  have hhas' : g.Has y (ctx₁.fusedShape op.output) := by
    rw [fusedShape, hbatched₁]
    exact hy.has
  obtain ⟨o', hop'⟩ := hy.op
  refine ⟨hadapted.emits (h₁.emits hnew₁ hy.grows hy.runnable (Nat.le_of_lt hy.size_lt)
    hlate hhas' id
    (by simp [hbatched₁]) (fun f hf => .inl (hy.continues.inputs ▸ hf)) rfl rfl rfl ?_), _,
    hadapted.supplies.step hy.continues rfl rfl rfl fun hc => ⟨hc.tiled, hc.defused, hc.masked, ?_⟩,
      ?_⟩
  · refine .batched hop₁ rfl hbatched₁ hop' (hinputs.imp fun _ _ hb => hb.grow ?_)
    exact ⟨rfl, rfl, hy.grows, get?_record_of_new hnew₁, id, id, id, id⟩
  · rw [hy.ops_eq, size_push, hc.ops, countedOps]
    show _ = ctx₁.counters.fusedOps + (ctx₁.counters.batchedOps + 1) + _ + _ +
      (ctx₁.tiled.keys.map ctx₁.tilingOps).sum
    ring
  · rw [nil_append]
    split_ifs
    · refine .cons ?_ .nil
      unfold BatchedAs
      rw [if_neg]
      · exact get?_record_self ..
      · exact hbatched₁ ▸ Bool.false_ne_true
    · exact .nil

omit hop in
/-- On the canvas the output of an operation stays inside, and an output of the graph is de-fused at
once. -/
theorem after_emitFused (hfuses : ctx.Fuses o op plan) :
    After (emitFused op plan role) ctx (fun _ ctx' => Emits P op.output 1 0 ctx ctx' ∧
      (∃ outs, Supplies (ctx.fusedNeeds op plan role) outs ctx ctx' ∧
        List.Forall₂ ctx'.BatchedAs (if role = .output then [op.output] else []) outs) ∧
      ∃ f z, ctx'.fusedOf.get? op.output = some f ∧ ctx'.fused.tensors.get? f = some z ∧
        z.spec.role = .transient) (Outside P) := by
  refine .then_ (after_fusedInputs h hin hfuses) fun inputs ctx₁ h₁ => ?_
  obtain ⟨hadapted, hinputs⟩ := h₁
  have h₁ := hadapted.emitting
  have hs := h₁.settled
  have hfuses₁ : ctx₁.Fuses o op plan := hfuses.congr hadapted.grown.core
  have hnew₁ : ctx₁.fusedOf.get? op.output = none := hadapted.fusedOf ▸ hnew
  have hin₁ : ∀ x ∈ op.inputs, ctx₁.fusedOf.get? x ≠ none := hadapted.fusedOf ▸ hin
  have ht := hfuses₁.output_hasSamples hs
  have hhas : ∀ (p : TensorId × Nat) f, ctx₁.OperandAs plan p.2 p.1 f →
      ctx₁.fused.Has f (ctx₁.operandShape plan p.1 p.2) := fun p f hf => h₁.has_of_operandAs hf
  have hshape :
      Gives P ((ctx₁.canvasKindOf op).inferShape .unbounded (inputs.map ctx₁.fused.shapeOf))
      (ctx₁.tiledShape op.output) := by
    rw [map_shapeOf hinputs hhas]
    exact .of_ok (hfuses₁.inferShape_ok hs)
  have hne : inputs ≠ [] := by
    rw [← length_pos_iff, ← hinputs.length_eq, length_zipIdx, length_pos_iff]
    exact hs.wellFormed.inputs_ne_nil hfuses₁.known
  refine .bind (after_canvasKind hs ht ?_)
  refine .bind (.get ?_)
  refine .bind (after_emit h₁.limit h₁.runnable rfl hne (exists_has hinputs hhas) hshape
    fun y g hy => ?_)
  obtain ⟨o', hop'⟩ := hy.op
  obtain ⟨z, hz, -, hz'⟩ := hy.tensor
  have hlate := le_index_of_next hy.fresh
  obtain ⟨v, hv⟩ := h₁.outputFill_ok hfuses₁ hin₁
  have hfill : ctx₁.fills.get? op.output = none := by grind [Emitting.fills]
  -- Nothing is de-fused before it is there.
  have hundefused : ctx₁.defused.get? op.output = none := by
    by_contra hne
    obtain ⟨f, hf⟩ := ne_none_iff_exists'.1 hne
    obtain ⟨x, hx, -⟩ := (h₁.defused hf).2.blocks
    grind
  refine .bind (.ask_ok (ht.gappedShape_ok hs) ?_)
  refine .bind (after_checkShape hy.has ?_)
  refine .bind (.ask_ok hv ?_)
  refine .bind (.recordNew hfill ?_)
  refine .bind (.recordNew hnew₁ ?_)
  refine .bind ((ht.recorded hs).after_canvasProportion hs.sound.base.tiles_pos h₁.limit (by rfl)
    fun p => ?_)
  refine .bind (.recordNew (h₁.proportion_new hlate) ?_)
  refine .bind (.modify ?_)
  have hhas' : g.Has y (ctx₁.fusedShape op.output) := by
    rw [fusedShape, if_pos hfuses₁.canvas]
    exact hy.has
  have hrecorded : ∀ {u}, (ctx₁.fills.record op.output v).get? u ≠ none ↔ ctx₁.fills.get? u ≠ none ∨
      u = op.output ∧ ctx₁.isCanvas op.output = true := by
    intro u
    rw [get?_record_ne_none, and_iff_left hfuses₁.canvas]
  let ended : Context := { ctx₁ with
    fused := g, fusedOf := ctx₁.fusedOf.record op.output y, fills := ctx₁.fills.record op.output v
    proportions := ctx₁.proportions.record y p
    counters := { ctx₁.counters with fusedOps := ctx₁.counters.fusedOps + 1 } }
  have hgrown : Grown ctx₁ ended :=
    ⟨rfl, rfl, hy.grows, get?_record_of_new hnew₁, id, id, id, get?_record_of_new hfill⟩
  have hemits : Emits P op.output 1 0 ctx ended :=
    hadapted.emits (h₁.emits hnew₁ hy.grows hy.runnable
    (Nat.le_of_lt hy.size_lt) hlate hhas' (get?_record_of_new hfill)
    hrecorded (fun f hf => .inl (hy.continues.inputs ▸ hf)) rfl rfl rfl
    (.canvas (hfuses₁.congr hgrown.core) rfl hop' (hinputs.imp fun _ _ hb => hb.grow hgrown)
      (hgrown.outputFill hv) (get?_record_self ..)))
  have hops : ctx₁.Tallied → ended.fused.ops.size = ended.countedOps := fun hc => by
    rw [show ended.fused.ops = _ from hy.ops_eq, size_push, hc.ops, countedOps]
    show _ = ctx₁.counters.fusedOps + 1 + _ + _ + _ + (ctx₁.tiled.keys.map ctx₁.tilingOps).sum
    ring
  have hsupplies : Supplies _ [] ctx ended := hadapted.supplies.step hy.continues rfl rfl rfl
    fun hc => ⟨hc.tiled, hc.defused, hc.masked, hops hc⟩
  have hknown : ended.fused.tensors.get? y = some z := hz
  have hself : ended.fusedOf.get? op.output = some y := get?_record_self ..
  refine (after_outputForm hemits.emitting hfuses₁.canvas hself hundefused).mono ?_
  rintro _ ctx₂ ⟨outs, hadapted₂, houts⟩
  obtain ⟨z', hz₂, hspec, -⟩ := hadapted₂.supplies.continues.tensor hknown
  exact ⟨hemits.adapted hadapted₂, ⟨outs, hsupplies.trans hadapted₂.supplies, houts⟩, y, z',
    hadapted₂.grown.fusedOf hself, hz₂, hspec ▸ hz'⟩

/-- **An operation** is emitted by its plan, on the canvas or on batched data. -/
theorem after_emitOp : After (emitOp o) ctx (fun t ctx' => t = op.output ∧ Served P o op ctx ctx')
    (Outside P) := by
  have hs := h.settled
  have hwf := hs.wellFormed
  obtain ⟨z, hz⟩ := hwf.output_known hop
  have hspec : ctx.cloned.spec op.output = .ok z.spec := by
    rw [spec, get_eq_ok.2 hz]
    rfl
  have hout : z.spec.role = .output ↔ op.output ∈ ctx.cloned.outputs := by
    simp [hwf.mem_outputs, show ctx.cloned.tensors.get? op.output = some z from hz]
  have hrole : (if z.spec.role = .output then Role.output else .transient) =
      ctx.roleOf op.output := by
    simp only [roleOf, hout]
  have hw : (ctx.roleOf op.output).isWritable = true := by
    unfold roleOf
    split_ifs <;> rfl
  unfold emitOp
  refine .bind (.get ?_)
  refine .bind (.check_ok (lift_graph_eq_ok.2 (op_eq_ok.2 hop)) ?_)
  refine .bind (.check_fault hspec ?_)
  rw [hrole]
  rcases hs.plan_cases hop with ⟨hplan, hbatched⟩ | ⟨plan, hfuses⟩
  · have hplan' : ctx.plans.get? o = some .batched := hplan
    refine .bind (.check_ok (a := .batched) (entry_ok_iff.2 hplan') ?_)
    refine .then_ (after_emitBatched h hop hin hnew hw hbatched) fun _ ctx' hemits => ?_
    obtain ⟨hemits, outs, hsupplies, houts⟩ := hemits
    simp only [roleOf_eq_output] at houts
    refine .pure ⟨rfl, ⟨?_, ⟨outs, ?_, houts⟩, fun hcanvas => ?_⟩⟩
    · simpa [isFused, hplan'] using hemits
    · simpa [demand, hop, hplan'] using hsupplies
    · grind
  · have hplan' : ctx.plans.get? o = some (.fused plan) := hfuses.planned
    refine .bind (.check_ok (a := .fused plan) (entry_ok_iff.2 hplan') ?_)
    refine .then_ (after_emitFused h hin hnew hfuses) fun _ ctx' hemits => ?_
    obtain ⟨hemits, ⟨outs, hsupplies, houts⟩, htransient⟩ := hemits
    simp only [roleOf_eq_output] at houts
    refine .pure ⟨rfl, ⟨?_, ⟨outs, ?_, houts⟩, fun _ => htransient⟩⟩
    · simpa [isFused, hplan'] using hemits
    · simpa [demand, hop, hplan'] using hsupplies

end Operations

/-! ## Sources -/

/-- A tensor of the fused graph may get a name before something else happens. -/
theorem after_nameFused {β : Type} {name : Option String}
    (hf : ∃ x, ctx.fused.tensors.get? f = some x) {k : Unit → Pass β} {Q : β → Context → Prop}
    (hk : After (k ()) { ctx with fused := ctx.fused.named f name } Q E) :
    After (match name with
      | none => k ()
      | some name => onFused (setName f name) >>= k) ctx Q E := by
  cases name with
  | none => exact hk
  | some n =>
    refine .bind (.onFused (after_setName (E := fun _ _ => False) (Q := fun _ g =>
      g = ctx.fused.named f (some n)) rfl fun hnone => ?_) (fun _ g hg => hg ▸ hk)
      fun _ _ hfalse => hfalse.elim)
    grind

/-- A source with data is created as a constant. -/
theorem after_createSource {lim : Limit} {Q : TensorId → Graph → Prop}
    {E : GraphError → Graph → Prop}
    (hconstant : ∀ data, z.data = some data → After (createConstant lim z.spec data) g Q E)
    (htensor : z.data = none → After (createTensor z.spec) g Q E) :
    After (match z.data with
      | some data => createConstant lim z.spec data
      | none => createTensor z.spec) g Q E := by
  grind

/-- The fused tensor of an input or a constant has its data. -/
theorem Emitting.after_createSource (h : Emitting P ctx) (hz : ctx.cloned.tensors.get? t = some z)
    (hrole : z.spec.role.isWritable = false) :
    After (match z.data with
      | some data => createConstant ctx.limit z.spec data
      | none => createTensor z.spec) ctx.fused
      (fun y g => ctx.fused.Gains g z.spec z.data none y) fun _ _ => ¬ P := by
  refine Context.after_createSource (fun data hdata => ?_) fun hdata => ?_
  · have hconst := h.stocked.role_eq_constant hz hrole hdata
    obtain ⟨data', hdata', hsize⟩ := h.stocked.constant hz hconst
    cases hdata.symm.trans hdata'
    rw [hdata]
    exact after_createConstant_gains h.runnable hconst hsize h.limit
  · rw [hdata]
    refine after_createTensor_gains h.runnable ?_
    cases hr : z.spec.role with
    | input => rfl
    | constant => grind [Stocked.constant, stocked]
    | output | transient => rw [hr] at hrole; cases hrole

/-- A source of the working copy has been emitted: only the fused graph and what the pass says
about the source have changed. -/
structure Sourced (t : TensorId) (z : Tensor) (y : TensorId) (ctx ctx' : Context) : Prop where
  fusedOf : ctx'.fusedOf = ctx.fusedOf.record t y
  enters : Graph.Enters z.spec.role z.name y ctx.fused ctx'.fused
  ops_eq : ctx'.fused.ops = ctx.fused.ops
  frame : ctx' = { ctx with
    fused := ctx'.fused, fusedOf := ctx'.fusedOf, proportions := ctx'.proportions }

theorem after_emitSource (h : Emitting P ctx) (hz : ctx.cloned.tensors.get? t = some z)
    (hrole : z.spec.role.isWritable = false) (hnew : ctx.fusedOf.get? t = none) :
    After (emitSource t) ctx (fun _ ctx' => Emits P t 0 0 ctx ctx' ∧ ∃ y, ctx.Sourced t z y ctx')
      (Outside P) := by
  have hs := h.settled
  have hsource : t ∈ ctx.cloned.sources := hs.wellFormed.mem_sources.2 ⟨z, hz, hrole⟩
  have hbatched : ctx.isCanvas t = false := hs.source hsource
  unfold emitSource
  refine .bind (.get ?_)
  refine .bind (.check_fault (get_eq_ok.2 hz) ?_)
  refine .bind (.onFused (h.after_createSource hz hrole) (fun y g hy => ?_)
    fun e _ hp => ⟨isInternal_ofGraph e, hp⟩)
  extract_lets record
  refine after_nameFused hy.has.known ?_
  replace hy := hy.named z.name
  have hlate := le_index_of_next hy.fresh
  have hshape : (g.named y z.name).Has y (ctx.fusedShape t) := by
    rw [fusedShape, hbatched, if_neg Bool.false_ne_true, shapeOf_eq hz]
    exact hy.has
  refine .bind (.recordNew hnew (.recordNew (h.proportion_new hlate) ?_))
  refine ⟨h.emits hnew hy.grows hy.runnable (Nat.le_of_lt hy.size_lt) hlate hshape id
    (by simp [hbatched]) (fun f hf => ?_) rfl rfl rfl ?_, y, rfl, hy.enters, hy.ops_eq, rfl⟩
  · rw [hy.enters.inputs] at hf
    by_cases hinput : z.spec.role = .input
    · rw [if_pos hinput, mem_append, mem_singleton] at hf
      exact hf.imp id fun heq => ⟨heq, hs.wellFormed.mem_inputs.2 ⟨z, hz, hinput⟩⟩
    · grind
  · obtain ⟨y', hy', hspec, hdata⟩ := hy.tensor
    exact .source hz hrole hy' hspec hdata

/-! ## The walk -/

/-- Whether a tensor has been emitted. -/
def isEmitted (ctx : Context) (t : TensorId) : Bool := ctx.fusedOf.contains t

theorem isEmitted_iff : ctx.isEmitted t = true ↔ ctx.fusedOf.get? t ≠ none := by
  simp [isEmitted, Ledger.contains, isSome_iff_ne_none]

/-- What has been emitted stays so. -/
theorem Advances.emitted {r : Option TensorId} (h : g.Advances ctx.isEmitted ctx'.isEmitted r)
    (ht : ctx.fusedOf.get? t ≠ none) : ctx'.fusedOf.get? t ≠ none := by
  rw [← isEmitted_iff] at ht ⊢
  cases r with
  | none => exact (congrFun h t).trans ht
  | some u => rw [h.2.2 t, ht, Bool.true_or]

/-- What is true while operations are emitted. -/
structure Rewriting (P : Prop) (ctx₀ ctx : Context) : Prop where
  core : ctx.core = ctx₀.core
  limit : ctx.limit = ctx₀.limit
  emitting : Emitting P ctx
  visited_nodup : ctx.visited.Nodup
  visited : ∀ o ∈ ctx.visited, ∃ op, ctx₀.cloned.ops.get? o = some op ∧
    ctx.fusedOf.get? op.output ≠ none
  unvisited : ∀ {o op}, ctx₀.cloned.ops.get? o = some op → o ∉ ctx.visited →
    ctx.fusedOf.get? op.output = none
  counted : ctx.counters.fusedOps + ctx.counters.batchedOps = ctx.visited.length
  /-- An output on the canvas is de-fused at once. -/
  defused : ∀ {t z}, ctx₀.cloned.tensors.get? t = some z → z.spec.role = .output →
    ctx.isCanvas t = true → ctx.fusedOf.get? t ≠ none → ctx.defused.get? t ≠ none

theorem Rewriting.cloned (h : Rewriting P ctx₀ ctx) : ctx.cloned = ctx₀.cloned :=
  congr_core Context.cloned h.core fun _ => rfl

theorem Emitting.visit (h : Emitting P ctx) (visited : List OpId) :
    Emitting P { ctx with visited := visited } :=
  h.grow ⟨rfl, rfl, .refl _, id, id, id, id, id⟩ h.runnable .inl h.injective .inl .inl .inl h.fills
    h.proportions h.inputs h.masks

/-- What else is true while operations are emitted: each operation keeps it when it is emitted. `F`
says whether that may fail. -/
def KeptByOps (P F : Prop) (ctx₀ : Context) (K : Context → Prop) : Prop :=
  ∀ {o op ctx}, Rewriting P ctx₀ ctx → K ctx → ctx.cloned.ops.get? o = some op → o ∉ ctx.visited →
    (∀ x ∈ op.inputs, ctx.fusedOf.get? x ≠ none) →
    After (emitOp o) { ctx with visited := o :: ctx.visited }
      (fun _ ctx' => Served P o op { ctx with visited := o :: ctx.visited } ctx' → K ctx')
      fun _ _ => F

/-- An operation is ready if its inputs are there and it has not been taken before. -/
def Ready (ctx : Context) (o : OpId) (op : Operation) : Prop :=
  o ∉ ctx.visited ∧ ∀ x ∈ op.inputs, ctx.isEmitted x = true

/-- A step of the walk takes an operation that is ready, and leaves the state alone otherwise. -/
inductive TakesReady (o : OpId) (op : Operation) : Option TensorId → Context → Context → Prop where
  | taken {ctx ctx' : Context} (hready : ctx.Ready o op) (hvisited : ctx'.visited =
      o :: ctx.visited) :
      TakesReady o op (some op.output) ctx ctx'
  | left {ctx : Context} (hnot : ¬ ctx.Ready o op) : TakesReady o op none ctx ctx

/-- **A step of the walk** emits an operation once its inputs are there. -/
theorem after_emitReady {F : Prop} {K : Context → Prop} (hK : KeptByOps P F ctx₀ K)
    (h : Rewriting P ctx₀ ctx)
    (hk : K ctx) (hop : ctx₀.cloned.ops.get? o = some op) : After (emitReady o) ctx (fun r ctx' =>
      ((Rewriting P ctx₀ ctx' ∧ K ctx') ∧ ctx₀.cloned.Advances ctx.isEmitted ctx'.isEmitted r ∧
        (∀ o' ∈ ctx.visited, o' ∈ ctx'.visited) ∧
        ((∀ x ∈ op.inputs, ctx.isEmitted x = true) → o ∈ ctx'.visited)) ∧
      TakesReady o op r ctx ctx') (fun e ctx' => Outside P e ctx' ∧ F) := by
  have hop' : ctx.cloned.ops.get? o = some op := h.cloned ▸ hop
  have hwf := h.emitting.settled.wellFormed
  unfold emitReady
  refine .bind (.get ?_)
  refine .bind (.check_fault (get_eq_ok.2 hop') ?_)
  refine .ite (fun hwait => ?_) fun hready => ?_
  · have hnot : ¬ ∀ x ∈ op.inputs, ctx.isEmitted x = true := fun hin => by
      have hall : op.inputs.all ctx.fusedOf.contains = true := all_eq_true.2 hin
      grind
    exact .pure ⟨⟨⟨h, hk⟩, rfl, fun _ ho => ho, fun hin => absurd hin hnot⟩,
      .left fun hready => hnot hready.2⟩
  have hin : ∀ x ∈ op.inputs, ctx.fusedOf.get? x ≠ none := by
    have hall : op.inputs.all ctx.fusedOf.contains = true := by simpa using hready
    exact fun x hx => isEmitted_iff.1 (all_eq_true.1 hall x hx)
  refine .bind (.bind (.get (.ite (fun hseen => ?_) fun hseen => ?_)))
  · refine .pure (.ite (fun _ => .pure ?_) fun hfalse => absurd rfl hfalse)
    exact ⟨⟨⟨h, hk⟩, rfl, fun _ ho => ho, fun _ => hseen⟩, .left fun hready => hready.1 hseen⟩
  refine .bind (.set (.pure (.ite (fun hfalse => by cases hfalse) fun _ => ?_)))
  have hnew := h.unvisited hop hseen
  rw [map_eq_pure_bind]
  refine .then_ ((after_emitOp (h.emitting.visit (o :: ctx.visited)) hop' hin hnew).and
    (hK h hk hop' hseen hin)) fun t ctx' ht => .pure ?_
  obtain ⟨⟨rfl, hserved⟩, hkept⟩ := ht
  have hemits := hserved.toEmits
  have hvisited : ctx'.visited = o :: ctx.visited := hemits.visited
  have hcore : ctx'.core = ctx.core := hemits.grown.core
  have hfused : ∀ {u}, ctx'.fusedOf.get? u ≠ none ↔ ctx.fusedOf.get? u ≠ none ∨ u = op.output :=
    hemits.fusedOf
  have hcanvas : ctx'.isCanvas = ctx.isCanvas := hemits.grown.isCanvas
  have htakes : TakesReady o op (some op.output) ctx ctx' :=
    .taken ⟨hseen, fun x hx => isEmitted_iff.2 (hin x hx)⟩ hvisited
  refine ⟨⟨⟨⟨hcore.trans h.core, hemits.grown.limit.trans h.limit, hemits.emitting, ?_,
    fun o' ho' => ?_, fun {o' op'} hop₁ ho' => ?_, ?_, fun {t z} hz hrole ht hx => ?_⟩,
    hkept hserved⟩,
    ⟨?_, ?_, fun u => ?_⟩, fun o' ho' => ?_, fun _ => ?_⟩, htakes⟩
  · grind [Rewriting.visited_nodup]
  · grind [Rewriting.visited]
  · rw [hvisited, mem_cons, not_or] at ho'
    grind [Rewriting.unvisited, WellFormed.op_eq_of_output, Rewriting.cloned]
  · rw [hemits.fusedOps_eq, hemits.batchedOps_eq, hvisited, length_cons, ← h.counted]
    grind
  · rw [hcanvas] at ht
    rcases hfused.1 hx with hold | rfl
    · obtain ⟨f, hf⟩ := ne_none_iff_exists'.1 (h.defused hz hrole ht hold)
      rw [hemits.grown.defused hf]
      exact some_ne_none f
    · obtain ⟨outs, -, houts⟩ := hserved.supplies
      have hmem : op.output ∈ ctx.cloned.outputs := hwf.mem_outputs.2 ⟨z, h.cloned ▸ hz, hrole⟩
      rw [if_pos hmem] at houts
      obtain ⟨f, -, hf, -⟩ := forall₂_cons_left_iff.1 houts
      rw [BatchedAs, hcanvas, if_pos ht] at hf
      grind
  · obtain ⟨z, hz⟩ := hwf.output_known hop'
    exact lt_of_get? (h.cloned ▸ hz)
  · rw [← Bool.not_eq_true, isEmitted_iff]
    exact not_not.2 hnew
  · rw [Bool.eq_iff_iff, Bool.or_eq_true, isEmitted_iff, isEmitted_iff, decide_eq_true_iff]
    exact hfused
  · grind
  · grind

/-! ## All of it -/

/-- Nothing has been emitted so far. -/
structure Blank (ctx : Context) : Prop where
  fused : ctx.fused = .empty
  fusedOf : ctx.fusedOf = .empty
  tiled : ctx.tiled = .empty
  defused : ctx.defused = .empty
  masked : ctx.masked = .empty
  fills : ctx.fills = .empty
  proportions : ctx.proportions = .empty
  counters : ctx.counters.fusedOps = 0 ∧ ctx.counters.batchedOps = 0 ∧ ctx.counters.masks = 0
  adapters : ctx.counters.tileAdapters = 0 ∧ ctx.counters.defuseAdapters = 0

/-- How emission ends: with a fused tensor for every tensor of the working copy. -/
structure Emitted (P : Prop) (ctx₀ ctx : Context) : Prop extends Rewriting P ctx₀ ctx where
  complete : ∀ {t z}, ctx₀.cloned.tensors.get? t = some z → ctx.fusedOf.get? t ≠ none

/-- Every operation has been visited. -/
theorem Emitted.mem_visited (h : Emitted P ctx₀ ctx) (hop : ctx₀.cloned.ops.get? o = some op) :
    o ∈ ctx.visited := by
  by_contra ho
  obtain ⟨z, hz⟩ := h.emitting.settled.wellFormed.output_known (h.cloned ▸ hop)
  exact h.complete (h.cloned ▸ hz) (h.unvisited hop ho)

/-- **Every operation is emitted once.** -/
theorem Emitted.counted_eq (h : Emitted P ctx₀ ctx) :
    ctx.counters.fusedOps + ctx.counters.batchedOps = ctx₀.cloned.ops.size := by
  have hperm : ctx.visited.Perm ctx₀.cloned.ops.handles := by
    refine (perm_ext_iff_of_nodup h.visited_nodup (nodup_handles _)).2 fun o => ?_
    rw [mem_handles]
    constructor
    · intro ho
      obtain ⟨op, hop, -⟩ := h.visited o ho
      exact lt_of_get? hop
    · intro ho
      obtain ⟨op, hop⟩ := exists_get? ho
      exact h.mem_visited hop
  rw [h.counted, hperm.length_eq, length_handles]

/-- What else is true while sources are emitted, by the sources that are done. `F` says whether that
may fail. -/
def KeptBySources (P F : Prop) (ctx₀ : Context) (J : List TensorId → Context → Prop) : Prop :=
  ∀ {done t z ctx}, ctx.core = ctx₀.core → Emitting P ctx → J done ctx →
    ctx.cloned.tensors.get? t = some z → z.spec.role.isWritable = false →
    ctx.fusedOf.get? t = none →
    After (emitSource t) ctx (fun _ ctx' => (∃ y, ctx.Sourced t z y ctx') → J (done ++ [t]) ctx')
      fun _ _ => F

section Start

variable {F : Prop} (hsettled : ctx.core.Settled) (hstocked : ctx.cloned.Stocked)
  (hblank : ctx.Blank)
  (hsmooth : P → ctx.limit = .unbounded ∧ ∀ t, ∀ e ∈ ctx.cloned.shapeOf t, 0 < e)
  {J : List TensorId → Context → Prop}

include hsettled hstocked hblank hsmooth

theorem Blank.emitting (visited : List OpId) : Emitting P { ctx with visited := visited } where
  settled := hsettled
  stocked := hstocked
  smooth := hsmooth
  runnable := hblank.fused ▸ runnable_empty
  fusedOf hf := (not_get?_empty hblank.fusedOf hf).elim
  injective hf := (not_get?_empty hblank.fusedOf hf).elim
  tiled hf := (not_get?_empty hblank.tiled hf).elim
  defused hf := (not_get?_empty hblank.defused hf).elim
  masked hf := (not_get?_empty hblank.masked hf).elim
  fills := by
    intro t
    show ctx.fills.get? t ≠ none ↔ ctx.isCanvas t = true ∧ ctx.fusedOf.get? t ≠ none
    rw [hblank.fills, hblank.fusedOf]
    simp
  proportions hf := by
    have hf' : ctx.proportions.get? _ ≠ none := hf
    rw [hblank.proportions] at hf'
    exact absurd rfl hf'
  inputs f hf := by
    have hf' : f ∈ ctx.fused.inputs := hf
    rw [hblank.fused] at hf'
    cases hf'
  masks hpos := by grind [counters]

/-- Before operations are emitted, exactly the sources have fused tensors. -/
theorem after_emitSources (hJ : J [] { ctx with visited := [] })
    (hsources : KeptBySources P F ctx J) :
    After (ctx.cloned.sources.forM emitSource) { ctx with visited := [] } (fun _ ctx' =>
      Rewriting P ctx ctx' ∧ ctx'.visited = [] ∧
        (∀ t, ctx'.fusedOf.get? t ≠ none ↔ t ∈ ctx.cloned.sources) ∧ J ctx.cloned.sources ctx')
      (fun e ctx' => Outside P e ctx' ∧ F) := by
  have hwf : ctx.cloned.WellFormed := hsettled.wellFormed
  -- The tensors emitted so far are the sources that are done.
  let I : List TensorId → Context → Prop := fun done ctx' => ctx'.core = ctx.core ∧
    ctx'.limit = ctx.limit ∧ Emitting P ctx' ∧ ctx'.visited = [] ∧
    ctx'.counters.fusedOps + ctx'.counters.batchedOps = 0 ∧
    (∀ t, ctx'.fusedOf.get? t ≠ none ↔ t ∈ done) ∧ J done ctx'
  have hstart : I [] { ctx with visited := [] } := by
    refine ⟨rfl, rfl, hblank.emitting hsettled hstocked hsmooth [], rfl, ?_, fun t => ?_, hJ⟩
    · grind [Blank.counters]
    · show ctx.fusedOf.get? t ≠ none ↔ t ∈ []
      rw [hblank.fusedOf]
      simp
  refine (After.forM I hstart fun done t rest ctx₁ hts h₁ => ?_).mono fun _ ctx₁ h₁ => ?_
  · obtain ⟨hcore, hlimit, hemitting, hvisited, hcounted, hdone, hj⟩ := h₁
    have hcloned : ctx₁.cloned = ctx.cloned := congr_core Context.cloned hcore fun _ => rfl
    have ht : t ∈ ctx.cloned.sources := hts ▸ mem_append_right done mem_cons_self
    obtain ⟨z, hz, hrole⟩ := hwf.mem_sources.1 ht
    have hfresh : t ∉ done := fun hmem =>
      (nodup_append.1 (hts ▸ hwf.sources_nodup)).2.2 t hmem t mem_cons_self rfl
    have hnew : ctx₁.fusedOf.get? t = none := not_not.1 (mt (hdone t).1 hfresh)
    refine ((after_emitSource hemitting (hcloned ▸ hz) hrole hnew).and
      (hsources hcore hemitting hj (hcloned ▸ hz) hrole hnew)).mono ?_
    rintro _ ctx₂ ⟨⟨h₂, hsourced⟩, hj'⟩
    refine ⟨h₂.grown.core.trans hcore, h₂.grown.limit.trans hlimit, h₂.emitting,
      h₂.visited.trans hvisited, ?_, fun u => ?_, hj' hsourced⟩
    · rw [h₂.fusedOps_eq, h₂.batchedOps_eq]
      exact hcounted
    · rw [h₂.fusedOf, hdone u, mem_append, mem_singleton]
  · obtain ⟨hcore, hlimit, hemitting, hvisited, hcounted, hdone, hj⟩ := h₁
    refine ⟨⟨hcore, hlimit, hemitting, hvisited ▸ nodup_nil, fun o ho => ?_,
      fun {o op} hop _ => ?_, ?_, fun {t z} hz hrole _ ht => ?_⟩, hvisited, hdone, hj⟩
    · grind
    · grind [WellFormed.not_source_of_output]
    · grind
    · obtain ⟨z', hz', hrole'⟩ := hwf.mem_sources.1 ((hdone t).1 ht)
      cases hz.symm.trans hz'
      rw [hrole] at hrole'
      cases hrole'

/-- Emission gives every tensor of the working copy a fused tensor, and keeps what its steps
keep. -/
theorem after_emitAll_keeping {K : Context → Prop}
    (hJ : J [] { ctx with visited := [] }) (hsources : KeptBySources P F ctx J)
    (hstart : ∀ {ctx'}, ctx'.core = ctx.core → ctx'.visited = [] → Emitting P ctx' →
      J ctx.cloned.sources ctx' → K ctx') (hK : KeptByOps P F ctx K) :
    After emitAll ctx (fun _ ctx' => Emitted P ctx ctx' ∧ K ctx')
      (fun e ctx' => Outside P e ctx' ∧ F) := by
  have hwf : ctx.cloned.WellFormed := hsettled.wellFormed
  have hseq : ctx.cloned.Sequential := hsettled.sound.base.sequential
  unfold emitAll
  refine .bind (.modify ?_)
  refine .bind (.get ?_)
  refine .then_ (after_emitSources hsettled hstocked hblank hsmooth hJ hsources) fun _ ctx₁ h₁ => ?_
  obtain ⟨hrewriting, hvisited, hdone, hj⟩ := h₁
  have hemitted : ctx₁.isEmitted = fun t => decide (t ∈ ctx.cloned.sources) := by
    funext t
    rw [Bool.eq_iff_iff, isEmitted_iff, decide_eq_true_iff]
    exact hdone t
  have hwalk := After.walk hwf emitReady isEmitted
    (fun ctx' => (Rewriting P ctx ctx' ∧ K ctx') ∧ ∀ t ∈ ctx.cloned.sources,
      ctx'.fusedOf.get? t ≠ none)
    (fun e ctx' => Outside P e ctx' ∧ F) (fun o op ctx' hop h => ?_) ctx.cloned.readings
    (ctx.cloned.sources.flatMap ctx.cloned.consumers) ctx₁
    ⟨⟨hrewriting, hstart hrewriting.core hvisited hrewriting.emitting hj⟩,
      fun t ht => (hdone t).2 ht⟩
    (hwf.queued_sources (fun t ht => (hdone t).1 (isEmitted_iff.1 ht)) _) ?_
  · refine hwalk.mono ?_
    rintro _ ctx' ⟨⟨⟨hrewriting, hk⟩, hsources⟩, hqueued⟩
    refine ⟨⟨hrewriting, fun {t z} hz => ?_⟩, hk⟩
    -- The inputs of an operation come before its output.
    induction t using Handle.induction generalizing z with
    | _ t ih =>
      cases hw : z.spec.role.isWritable with
      | false => exact hsources t (hwf.mem_sources.2 ⟨z, hz, hw⟩)
      | true =>
        obtain ⟨o, ho⟩ := hseq.written hz hw
        obtain ⟨op, hop, rfl⟩ := (hwf.producer_iff hz).1 ho
        have hready : ∀ x ∈ op.inputs, ctx'.isEmitted x = true := by
          grind [isEmitted_iff, WellFormed.input_known, Sequential.input_lt]
        have ho := (hqueued.ready hop hready).resolve_right not_mem_nil
        grind [Rewriting.visited]
  · grind [after_emitReady, Advances.emitted, After.mono]
  · grind [unread_add_readers, lt_of_get?, WellFormed.sources_nodup, WellFormed.mem_sources]

/-- **Emission** gives every tensor of the working copy a fused tensor. It never finds its tables
out of step, and does not fail at all on tensors that are not empty. -/
theorem after_emitAll : After emitAll ctx (fun _ ctx' => Emitted P ctx ctx') (Outside P) :=
  (after_emitAll_keeping (F := True) (J := fun _ _ => True) (K := fun _ => True) hsettled hstocked
    hblank hsmooth trivial
    (fun _ _ _ _ _ _ => .of_forall (fun _ _ _ => trivial) fun _ _ =>
      trivial) (fun _ _ _ _ => trivial)
    fun _ _ _ _ _ => .of_forall (fun _ _ _ => trivial) fun _ _ => trivial).imp (fun _ _ h => h.1)
    fun _ _ h => h.1

end Start

end Context

end CanvasFusion
