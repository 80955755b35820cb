import CanvasFusion.Proofs.Fusion.Emission

/-!
# Runs of the pass

A run copies the source, settles the gaps, emits the fused graph and collects the result. `Run` says
what is true of the states between these phases, and `Collected` what the result is made of.
-/

namespace CanvasFusion

open List Option CanvasFusion.Graph Pass Context Ledger

/-! ## Ledgers made of a list -/

namespace Ledger

variable {κ ν : Type} [DecidableEq κ]

theorem lookup_append (k : κ) (es es' : List (κ × ν)) :
    lookup k (es ++ es') = (lookup k es).or (lookup k es') := by
  induction es with
  | nil => rfl
  | cons e es ih => grind [lookup]

theorem mem_of_lookup {k : κ} {v : ν} {es : List (κ × ν)} (h : lookup k es = some v) :
    (k, v) ∈ es := by
  induction es with
  | nil => cases h
  | cons e es ih => grind [lookup]

/-- The entries of some keys, as far as they have one. -/
theorem lookup_filterMap (f : κ → Option ν) (k : κ) (ks : List κ) :
    lookup k (ks.filterMap fun k' => (f k').map fun v => (k', v)) =
      if k ∈ ks then f k else none := by
  induction ks with
  | nil => rfl
  | cons k' ks ih =>
    cases hf : f k' with
    | none => grind
    | some v => grind [lookup]

end Ledger

/-! ## Relabelling -/

/-- The graphs differ in names only. -/
structure Graph.Relabels (g g' : Graph) : Prop where
  grows : g.Grows g'
  known : ∀ {t x'}, g'.tensors.get? t = some x' → ∃ x, g.tensors.get? t = some x
  runnable : g.Runnable → g'.Runnable
  ops_eq : g'.ops = g.ops
  inputs_eq : g'.inputs = g.inputs
  outputs_eq : g'.outputs = g.outputs

theorem Graph.Relabels.named {g g' : Graph} (h : g.Relabels g') (f : TensorId)
    (name : Option String) : g.Relabels (g'.named f name) where
  grows := h.grows.trans (g'.renames_named f name).grows
  known hx := by grind [named_get?, map_eq_some_iff, known]
  runnable hg := (h.runnable hg).renamed (g'.renames_named f name)
  ops_eq := (g'.renames_named f name).ops_eq.trans h.ops_eq
  inputs_eq := (g'.named_inputs f name).trans h.inputs_eq
  outputs_eq := (g'.named_outputs f name).trans h.outputs_eq

/-- The graph with the names of some tensors changed, one after the other. -/
def Graph.labelled (g : Graph) (labels : List (TensorId × Option String)) : Graph :=
  labels.foldl (fun g p => g.named p.1 p.2) g

theorem Graph.labelled_concat (g : Graph) (labels : List (TensorId × Option String)) (f : TensorId)
    (name : Option String) :
    g.labelled (labels ++ [(f, name)]) = (g.labelled labels).named f name := foldl_append ..

theorem Graph.relabels_labelled (g : Graph) (labels : List (TensorId × Option String)) :
    g.Relabels (g.labelled labels) := by
  suffices h : ∀ g', g.Relabels g' → g.Relabels (g'.labelled labels) from
    h g ⟨.refl g, fun hx => ⟨_, hx⟩, id, rfl, rfl, rfl⟩
  induction labels with
  | nil => exact fun _ h => h
  | cons p labels ih => exact fun g' h => ih _ (h.named p.1 p.2)

/-- The pass is its phases, one after the other. -/
theorem Pass.fuse_eq : fuse = (do
    cloneSource
    inferGaps
    emitAll
    collect) := by
  simp [fuse, Phase.all, Phase.run]

namespace Context

variable {lim : Limit} {source : Graph} {options : Options} {ctx₀ ctx₁ ctx₂ ctx₃ ctx : Context}
  {t c f : TensorId} {P : Prop} {r : Fused}

/-- Where the copy of a tensor went. -/
def fusionOf (ctx : Context) (c : TensorId) : TensorFusion :=
  ⟨if ctx.isCanvas c then .canvas else .batched, ctx.gapOf c, (ctx.canvasShapes.get? c).getD [],
    ctx.fusedOf.get? c, ctx.defused.get? c, (ctx.fusedOf.get? c).bind ctx.proportions.get?⟩

/-- The fused tensor of an input of the source. -/
def inputOf? (ctx : Context) (t : TensorId) : Option TensorId :=
  (ctx.cloneOf.get? t).bind ctx.fusedOf.get?

/-- The names that some outputs of the source have, for their batched forms. -/
def labels (ctx : Context) (ts : List TensorId) : List (TensorId × Option String) :=
  ts.filterMap fun t => (ctx.outputOf? t).map fun f => (f, ctx.source.nameOf t)

/-! ## Between the phases -/

/-- Copies of constants have data, and copies of inputs have none. -/
theorem Copying.stocked (h : Copying ctx₀ ctx) : ctx.cloned.Stocked where
  constant {c z} hz hrole := by
    obtain ⟨t, ht⟩ := h.covered hz
    cases h.copied ht with
    | input hx hrole' hy hspec hdata => grind
    | constant hx hrole' hy hspec hdata hsize =>
      cases hz.symm.trans hy
      exact ⟨_, hdata, hspec ▸ hsize⟩
    | written _ _ _ hop' hout' _ _ => exact absurd hout' (h.wellFormed.output_ne hop' hz hrole)
  input {c z} hz hrole := by
    obtain ⟨t, ht⟩ := h.covered hz
    cases h.copied ht with
    | input hx hrole' hy hspec hdata | constant hx hrole' hy hspec hdata hsize => grind
    | written _ _ _ hop' hout' _ _ => exact absurd hout' (h.wellFormed.output_ne hop' hz hrole)

/-- The states before, between and after cloning and gap inference. -/
structure Inferred (ctx₀ ctx₁ ctx₂ : Context) : Prop where
  clones : cloneSource.run ctx₀ = (.ok (), ctx₁)
  infers : inferGaps.run ctx₁ = (.ok (), ctx₂)
  cloned : Cloned ctx₀ ctx₁
  frame : Frame ctx₁ ctx₂
  settled : ctx₂.core.Settled

/-- The states between the phases of a run. -/
structure Run (P : Prop) (ctx₀ ctx₁ ctx₂ ctx₃ : Context) : Prop extends
    Inferred ctx₀ ctx₁ ctx₂ where
  emits : emitAll.run ctx₂ = (.ok (), ctx₃)
  emitted : Emitted P ctx₂ ctx₃

theorem Inferred.stocked (h : Inferred ctx₀ ctx₁ ctx₂) : ctx₂.cloned.Stocked :=
  h.frame.cloned ▸ h.cloned.copying.stocked

/-- Nothing is emitted before the gaps are settled. -/
theorem Inferred.blank (h : Inferred ctx₀ ctx₁ ctx₂) (h₀ : Starts lim source options ctx₀) :
    ctx₂.Blank := by
  obtain ⟨-, hfusedOf, -, -, hproportions, -, -, -, hfills, htiled, hdefused, hmasked⟩ := h₀.tables
  have hcount := fun field : Counters → Nat => congrArg field h₀.counters
  rw [h.frame.eq, h.cloned.copying.frame]
  exact ⟨h₀.fused, hfusedOf, htiled, hdefused, hmasked, hfills, hproportions,
    ⟨hcount (·.fusedOps), hcount (·.batchedOps), hcount (·.masks)⟩,
    hcount (·.tileAdapters), hcount (·.defuseAdapters)⟩

namespace Run

variable (h : Run P ctx₀ ctx₁ ctx₂ ctx₃)

include h

theorem cloned_eq : ctx₃.cloned = ctx₁.cloned := by
  rw [h.emitted.cloned, h.frame.cloned]

theorem cloneOf_eq : ctx₃.cloneOf = ctx₁.cloneOf :=
  (congr_core cloneOf h.emitted.core fun _ => rfl).trans (by rw [h.frame.eq])

theorem source_eq : ctx₃.source = ctx₀.source :=
  (congr_core source h.emitted.core fun _ => rfl).trans (by rw [h.frame.eq, h.cloned.copying.frame])

theorem grid_eq : ctx₃.grid = ctx₀.grid :=
  (congr_core grid h.emitted.core fun _ => rfl).trans (by rw [h.frame.eq, h.cloned.copying.frame])

theorem axes_eq : ctx₃.axes = ctx₀.axes :=
  (congr_core axes h.emitted.core fun _ => rfl).trans (by rw [h.frame.eq, h.cloned.copying.frame])

theorem limit_eq : ctx₃.limit = ctx₀.limit := by
  rw [h.emitted.limit, h.frame.limit, h.cloned.limit_eq]

/-- A copy is there. -/
theorem clone_known (ht : ctx₃.cloneOf.get? t = some c) :
    ∃ z, ctx₃.cloned.tensors.get? c = some z := by
  rw [h.cloneOf_eq] at ht
  rw [h.cloned_eq]
  exact (h.cloned.copying.copied ht).known h.cloned.copying.wellFormed

/-- What a copy is of is there. -/
theorem source_known (ht : ctx₃.cloneOf.get? t = some c) :
    ∃ x, ctx₃.source.tensors.get? t = some x := by
  rw [h.cloneOf_eq] at ht
  rw [h.source_eq, ← h.cloned.source_eq]
  cases h.cloned.copying.copied ht with
  | input hx | constant hx | written _ _ _ _ _ _ _ hx => exact ⟨_, hx⟩

/-- A copy has a fused tensor. -/
theorem fusedOf_clone (ht : ctx₃.cloneOf.get? t = some c) : ctx₃.fusedOf.get? c ≠ none := by
  obtain ⟨z, hz⟩ := h.clone_known ht
  exact h.emitted.complete (h.emitted.cloned ▸ hz)

/-- A tensor with a copy has been placed, and its gap and its shape are settled. -/
theorem tensorFusion?_eq :
    ctx₃.tensorFusion? t = .ok ((ctx₃.cloneOf.get? t).map ctx₃.fusionOf) := by
  have hs := h.emitted.emitting.settled
  cases ht : ctx₃.cloneOf.get? t with
  | none => simp only [tensorFusion?, ht, map_none]
  | some c =>
    obtain ⟨z, hz⟩ := h.clone_known ht
    have hgap : ctx₃.gaps.get? c = some (ctx₃.gapOf c) := hs.gap hz
    obtain ⟨s, hshape, -⟩ := hs.sound.gapped.shape hgap
    have hshape' : ctx₃.canvasShapes.get? c = some s := hshape
    have hplace : ctx₃.placements.get? c =
        some (if ctx₃.isCanvas c then .canvas else .batched) := by
      obtain ⟨p, hp⟩ := ne_none_iff_exists'.1 (hs.allPlaced c z hz)
      have hp' : ctx₃.placements.get? c = some p := hp
      rw [isCanvas, hp']
      cases p <;> rfl
    simp only [tensorFusion?, ht, hplace, hgap, gappedShape, hshape', fusionOf, map_some,
      getD_some]
    rfl

variable (hsource : ctx₀.source.WellFormed)

include hsource

/-- The copy of an output is an output. -/
theorem clone_output (hout : t ∈ ctx₀.source.outputs) (ht : ctx₃.cloneOf.get? t = some c) :
    ∃ z, ctx₃.cloned.tensors.get? c = some z ∧ z.spec.role = .output := by
  obtain ⟨x, hx, hrole⟩ := hsource.mem_outputs.1 hout
  rw [← h.cloned.source_eq] at hx
  rw [h.cloneOf_eq] at ht
  rw [h.cloned_eq]
  cases h.cloned.copying.copied ht with
  | input hx' hrole' | constant hx' hrole' | written _ _ _ _ _ _ _ hx' hy hcopy => grind

/-- The copy of an input is an input. -/
theorem clone_input (hin : t ∈ ctx₀.source.inputs) (ht : ctx₃.cloneOf.get? t = some c) :
    ∃ z, ctx₃.cloned.tensors.get? c = some z ∧ z.spec.role = .input := by
  obtain ⟨x, hx, hrole⟩ := hsource.mem_inputs.1 hin
  rw [← h.cloned.source_eq] at hx
  rw [h.cloneOf_eq] at ht
  rw [h.cloned_eq]
  cases h.cloned.copying.copied ht with
  | input hx' hrole' hy hspec _ => grind
  | constant hx' hrole' => grind
  | written hop hout =>
    rw [h.cloned.source_eq] at hop
    exact absurd (mem_append_left _ (hout ▸ hin)) (hsource.not_source_of_output hop)

/-- The batched form of an output is there, if the output has a copy. -/
theorem outputOf?_eq_some (hout : t ∈ ctx₀.source.outputs)
    (ht : ctx₃.cloneOf.get? t = some c) : ∃ f, ctx₃.outputOf? t = some f ∧ ctx₃.BatchedAs c f := by
  obtain ⟨z, hz, hrole⟩ := h.clone_output hsource hout ht
  obtain ⟨x, hx⟩ := ne_none_iff_exists'.1 (h.fusedOf_clone ht)
  cases hd : ctx₃.defused.get? c with
  | some f =>
    refine ⟨f, by simp [outputOf?, ht, hd], ?_⟩
    rw [BatchedAs, if_pos (h.emitted.emitting.defused hd).2.canvas]
    exact hd
  | none =>
    have hcanvas : ctx₃.isCanvas c = false := by
      by_contra hcanvas
      exact h.emitted.defused (h.emitted.cloned ▸ hz) hrole (Bool.of_not_eq_false hcanvas)
        (h.fusedOf_clone ht) hd
    grind [outputOf?, BatchedAs]

/-- An output without a copy has no batched form. -/
theorem outputOf?_eq_none_iff (hout : t ∈ ctx₀.source.outputs) :
    ctx₃.outputOf? t = none ↔ ctx₃.cloneOf.get? t = none := by
  cases ht : ctx₃.cloneOf.get? t with
  | none => simp [outputOf?, ht]
  | some c => grind [outputOf?_eq_some]

end Run

/-! ## The result -/

/-- What the result is made of. -/
structure Collected (ctx₃ ctx : Context) (r : Fused) : Prop where
  state : ctx = { ctx₃ with fused := ctx.fused }
  graph : r.graph = ctx.fused
  labelled : ctx.fused = ctx₃.fused.labelled (ctx₃.labels ctx₃.source.outputs)
  report : r.report = ctx₃.report
  input : ∀ {t}, t ∈ ctx₃.source.inputs → r.io.get? t = ctx₃.inputOf? t
  output : ∀ {t}, t ∈ ctx₃.source.outputs → r.io.get? t = ctx₃.outputOf? t
  inner : ∀ {t}, t ∉ ctx₃.source.inputs ++ ctx₃.source.outputs → r.io.get? t = none
  info : ∀ {t}, r.info.get? t = (ctx₃.cloneOf.get? t).map ctx₃.fusionOf
  missing : r.missing = ctx₃.source.outputs.filter fun t => (ctx₃.outputOf? t).isNone

/-- Only names are new in the graph. -/
theorem Collected.relabels (h : Collected ctx₃ ctx r) :
    ctx₃.fused.Relabels ctx.fused := h.labelled ▸ relabels_labelled ..

section Collecting

variable (h : Run P ctx₀ ctx₁ ctx₂ ctx₃) (hsource : ctx₀.source.WellFormed)
  {E : FusionError → Context → Prop}

include h

/-- An input has a copy, which has a fused tensor. -/
theorem Run.inputOf?_eq_some (ht : t ∈ ctx₀.source.inputs) :
    ∃ c f, ctx₃.cloneOf.get? t = some c ∧ ctx₃.fusedOf.get? c = some f ∧
      ctx₃.inputOf? t = some f := by
  obtain ⟨c, hc⟩ := ne_none_iff_exists'.1
    (h.cloned.sources t (mem_append_left _ ht))
  rw [← h.cloneOf_eq] at hc
  obtain ⟨f, hf⟩ := ne_none_iff_exists'.1 (h.fusedOf_clone hc)
  grind [inputOf?]

/-- The fused tensor of an input or output is the batched form of its copy. -/
theorem Run.io_batched {r : Fused} (hend : Collected ctx₃ ctx r) (hsource : ctx₀.source.WellFormed)
    (ht : t ∈ ctx₀.source.inputs ++ ctx₀.source.outputs) (hf : r.io.get? t = some f) :
    ∃ c, ctx₃.cloneOf.get? t = some c ∧ ctx₃.BatchedAs c f := by
  rcases mem_append.1 ht with ht | ht
  · obtain ⟨c, f', hc, hf', hin⟩ := h.inputOf?_eq_some ht
    rw [hend.input (h.source_eq ▸ ht), hin, some_inj] at hf
    subst hf
    obtain ⟨z, hz, hrole⟩ := h.clone_input hsource ht hc
    have hs := h.emitted.emitting.settled
    have hcanvas : ctx₃.isCanvas c = false :=
      hs.source (hs.wellFormed.source_of_role hz hrole)
    grind [BatchedAs]
  · cases hc : ctx₃.cloneOf.get? t with
    | none =>
      rw [hend.output (h.source_eq ▸ ht), (h.outputOf?_eq_none_iff hsource ht).2 hc] at hf
      cases hf
    | some c => grind [outputOf?_eq_some, Collected.output, source_eq]

theorem after_collectInputs : After (ctx₃.source.inputs.mapM collectInput) ctx₃
    (fun ys ctx => ctx = ctx₃ ∧ ys = ctx₃.source.inputs.filterMap fun t =>
      (ctx₃.inputOf? t).map fun f => (t, f)) E := by
  refine .mapM (fun done ys ctx => ctx = ctx₃ ∧ ys = done.filterMap fun t =>
    (ctx₃.inputOf? t).map fun f => (t, f)) ⟨rfl, rfl⟩ ?_
  rintro done t rest ys ctx hdone ⟨rfl, rfl⟩
  have ht : t ∈ ctx.source.inputs := hdone ▸ mem_append_right _ mem_cons_self
  obtain ⟨c, f, hc, hf, hin⟩ := h.inputOf?_eq_some (h.source_eq ▸ ht)
  refine .bind (.get ?_)
  refine .bind (.check_ok (a := c) (by rw [hc]; rfl) ?_)
  refine .bind (.check_ok (a := f) (by rw [fusedTensor, hf]; rfl) (.pure ⟨rfl, ?_⟩))
  grind

include hsource in
theorem after_collectOutputs : After (ctx₃.source.outputs.mapM collectOutput) ctx₃
    (fun ys (ctx : Context) => ctx = { ctx₃ with fused := ctx.fused } ∧
      ctx.fused = ctx₃.fused.labelled (ctx₃.labels ctx₃.source.outputs) ∧
      ys = ctx₃.source.outputs.map fun t => (t, ctx₃.outputOf? t)) E := by
  refine .mapM (fun done ys (ctx : Context) => ctx = { ctx₃ with fused := ctx.fused } ∧
    ctx.fused = ctx₃.fused.labelled (ctx₃.labels done) ∧
    ys = done.map fun t => (t, ctx₃.outputOf? t)) ⟨rfl, rfl, rfl⟩ ?_
  rintro done t rest ys ctx hdone ⟨hctx, hlabels, rfl⟩
  have ht : t ∈ ctx₀.source.outputs := by
    rw [← h.source_eq, hdone]
    exact mem_append_right _ mem_cons_self
  obtain ⟨x, hx, -⟩ := hsource.mem_outputs.1 ht
  have hx' : ctx.source.tensors.get? t = some x := by rw [hctx, ← hx, ← h.source_eq]
  have hout : ctx.outputOf? t = ctx₃.outputOf? t := by
    rw [hctx]
    rfl
  have hnext : ctx₃.labels (done ++ [t]) = ctx₃.labels done ++
      ((ctx.outputOf? t).map fun f => (f, x.name)).toList := by
    grind [labels, nameOf]
  unfold collectOutput
  refine .bind (.get ?_)
  cases hf : ctx.outputOf? t with
  | none =>
    refine .pure ⟨hctx, ?_, ?_⟩
    · grind
    · rw [map_append, map_singleton, ← hout, hf]
  | some f =>
    have hhas : ∃ s, ctx₃.fused.Has f s := by
      cases hc : ctx₃.cloneOf.get? t with
      | none => grind [Run.outputOf?_eq_none_iff]
      | some c =>
        obtain ⟨f', hf', hbatched⟩ := h.outputOf?_eq_some hsource ht hc
        rw [hout, hf', some_inj] at hf
        exact ⟨_, hf ▸ h.emitted.emitting.has_of_batchedAs hbatched⟩
    obtain ⟨s, hhas⟩ := hhas
    have hlabelled := hhas.grow (ctx₃.fused.relabels_labelled (ctx₃.labels done)).grows
    rw [← hlabels] at hlabelled
    refine .bind (.check_fault (Table.get_eq_ok.2 hx') ?_)
    extract_lets k
    refine after_nameFused (k := k) hlabelled.known (.pure ⟨?_, ?_, ?_⟩)
    · rw [hctx]
    · rw [hnext, hf, hlabels]
      exact (labelled_concat ..).symm
    · rw [map_append, map_singleton, ← hout, hf]

theorem after_collectTensors (hctx : ctx = { ctx₃ with fused := ctx.fused }) :
    After (ctx₃.source.tensors.handles.mapM collectTensor) ctx
      (fun ys ctx' => ctx' = ctx ∧ ys = ctx₃.source.tensors.handles.map fun t =>
        (ctx₃.cloneOf.get? t).map fun c => (t, ctx₃.fusionOf c)) E := by
  refine .mapM (fun done ys ctx' => ctx' = ctx ∧ ys = done.map fun t =>
    (ctx₃.cloneOf.get? t).map fun c => (t, ctx₃.fusionOf c)) ⟨rfl, rfl⟩ ?_
  rintro done t rest ys _ - ⟨rfl, rfl⟩
  have hinfo := h.tensorFusion?_eq (t := t)
  refine .bind (.ask_ok (a := (ctx₃.cloneOf.get? t).map ctx₃.fusionOf) ?_
    (.pure ⟨rfl, ?_⟩))
  · rw [hctx]
    exact hinfo
  · rw [map_append, map_singleton, Option.map_map]
    rfl

include hsource in
/-- **Collecting** the result always succeeds. -/
theorem after_collect : After collect ctx₃ (fun r ctx => Collected ctx₃ ctx r) E := by
  have hsource' : ctx₃.source.WellFormed := h.source_eq ▸ hsource
  unfold collect
  refine .bind (.get ?_)
  refine .then_ (after_collectInputs h) ?_
  rintro _ ctx ⟨rfl, rfl⟩
  refine .then_ (after_collectOutputs h hsource) ?_
  rintro _ ctx' ⟨hctx, hlabels, rfl⟩
  refine .then_ (after_collectTensors h hctx) ?_
  rintro _ _ ⟨rfl, rfl⟩
  refine .bind (.get (.pure ?_))
  have hio : ∀ t, Ledger.lookup t (ctx.source.inputs.filterMap (fun t =>
        (ctx.inputOf? t).map fun f => (t, f)) ++
      (ctx.source.outputs.map fun t => (t, ctx.outputOf? t)).filterMap fun p =>
        p.2.map fun fused => (p.1, fused)) =
      (if t ∈ ctx.source.inputs then ctx.inputOf? t else none).or
        (if t ∈ ctx.source.outputs then ctx.outputOf? t else none) := fun t => by
    rw [Ledger.lookup_append, lookup_filterMap, filterMap_map,
      ← lookup_filterMap ctx.outputOf?]
    rfl
  refine ⟨hctx, rfl, hlabels, ?_, fun {t} ht => ?_, fun {t} ht => ?_, fun {t} ht => ?_,
    fun {t} => ?_, ?_⟩
  · rw [hctx]
    rfl
  · refine (hio t).trans ?_
    have hout : t ∉ ctx.source.outputs := fun hout => by
      grind [WellFormed.mem_inputs, WellFormed.mem_outputs]
    rw [if_pos ht, if_neg hout, or_none]
  · refine (hio t).trans ?_
    have hin : t ∉ ctx.source.inputs := fun hin => by
      grind [WellFormed.mem_inputs, WellFormed.mem_outputs]
    rw [if_neg hin, if_pos ht, none_or]
  · rw [mem_append, not_or] at ht
    refine (hio t).trans ?_
    rw [if_neg ht.1, if_neg ht.2, none_or]
  · have hlookup := lookup_filterMap (fun t => (ctx.cloneOf.get? t).map ctx.fusionOf) t
      ctx.source.tensors.handles
    simp only [Option.map_map] at hlookup
    refine (congrArg (Ledger.lookup t) (filterMap_map ..)).trans (hlookup.trans ?_)
    split_ifs with hmem
    · rfl
    · cases hc : ctx.cloneOf.get? t with
      | none => rfl
      | some c => grind [Table.mem_handles, Table.lt_of_get?, Run.source_known]
  · refine (filterMap_map ..).trans ?_
    rw [← filterMap_eq_filter]
    grind [filterMap_congr]

end Collecting

/-! ## A whole run -/

theorem Cloned.backwardPasses (h : Cloned ctx₀ ctx₁) (h₀ : Starts lim source options ctx₀) :
    ctx₁.counters.backwardPasses = 0 := by
  rw [h.copying.frame]
  exact congrArg Counters.backwardPasses h₀.counters

section Runs

variable (h₀ : Starts lim source options ctx₀) (hsource : source.WellFormed)
  (hsmooth : P → ctx₀.Smooth) (hpos : P → ∀ t, ∀ e ∈ source.shapeOf t, 0 < e)

include h₀ hsource hsmooth hpos

/-- The tensors of the working copy are not empty either. -/
theorem Cloned.smooth (h : Cloned ctx₀ ctx₁) (hp : P) :
    ctx₁.limit = .unbounded ∧ ∀ c, ∀ e ∈ ctx₁.cloned.shapeOf c, 0 < e := by
  refine ⟨h.limit_eq.trans (hsmooth hp).limit, fun c e he => ?_⟩
  cases hz : ctx₁.cloned.tensors.get? c with
  | none => simp [shapeOf, hz] at he
  | some z =>
    obtain ⟨t, ht⟩ := h.copying.covered hz
    rw [h.copying.shape_eq (hsmooth hp).batch h₀.axes (h₀.source_eq ▸ hsource) ht,
      h₀.source_eq] at he
    exact hpos hp t e he

/-- What emission starts from is not empty either. -/
theorem Inferred.smooth (h : Inferred ctx₀ ctx₁ ctx₂) (hp : P) :
    ctx₂.limit = .unbounded ∧ ∀ c, ∀ e ∈ ctx₂.cloned.shapeOf c, 0 < e := by
  have hcloned := h.cloned.smooth h₀ hsource hsmooth hpos hp
  rw [h.frame.eq]
  exact hcloned

/-- A run comes to a result, or it fails as one of its phases does. -/
theorem after_fuse_of {E : FusionError → Prop}
    (hclone : After cloneSource ctx₀ (fun _ _ => True) fun e _ => E e)
    (hinfer : ∀ {ctx₁}, Cloned ctx₀ ctx₁ → After inferGaps ctx₁ (fun _ _ => True) fun e _ => E e)
    (hemit : ∀ {ctx₁ ctx₂}, Inferred ctx₀ ctx₁ ctx₂ →
      After Pass.emitAll ctx₂ (fun _ _ => True) fun e _ => E e) : After Pass.fuse ctx₀
    (fun r ctx => ∃ ctx₁ ctx₂ ctx₃, Run P ctx₀ ctx₁ ctx₂ ctx₃ ∧ Collected ctx₃ ctx r)
    (fun e _ => E e) := by
  have hsource' : ctx₀.source.WellFormed := h₀.source_eq ▸ hsource
  rw [fuse_eq]
  refine .then_ (((after_cloneSource (P := False) h₀ hsource' False.elim).and
    (hclone.and (After.runs _ _))).imp (fun _ _ h => h) fun _ _ he => he.2.1)
    fun _ ctx₁ ⟨hcloned, _, hclones⟩ => ?_
  refine .then_ (((after_inferGaps_at (hcloned.fresh h₀) (hcloned.backwardPasses h₀)).and
    ((hinfer hcloned).and (After.runs _ _))).imp (fun _ _ h => h)
    fun _ _ he => he.2.1) fun _ ctx₂ ⟨⟨hsettled, hframe⟩, _, hinfers⟩ => ?_
  have h₂ : Inferred ctx₀ ctx₁ ctx₂ := ⟨hclones, hinfers, hcloned, hframe, hsettled⟩
  refine .then_ (((after_emitAll hsettled h₂.stocked (h₂.blank h₀)
    (h₂.smooth h₀ hsource hsmooth hpos)).and ((hemit h₂).and (After.runs _ _))).imp
    (fun _ _ h => h) fun _ _ he => he.2.1) fun _ ctx₃ ⟨hemitted, _, hemits⟩ => ?_
  have hrun : Run P ctx₀ ctx₁ ctx₂ ctx₃ := ⟨h₂, hemits, hemitted⟩
  exact (after_collect hrun hsource').mono fun r ctx h => ⟨ctx₁, ctx₂, ctx₃, hrun, h⟩

/-- **A run of the pass** comes to a result. Otherwise gap inference diverges or something outside
of the tables of the pass fails; on tensors that are not empty, with constants that have their data
and a batch that stays as it is, it can only diverge. -/
theorem after_fuse : After Pass.fuse ctx₀
    (fun r ctx => ∃ ctx₁ ctx₂ ctx₃, Run P ctx₀ ctx₁ ctx₂ ctx₃ ∧ Collected ctx₃ ctx r)
    (fun e _ => e.isInternal = false ∧ (P → e = .diverged ctx₀.maxBackwardPasses)) := by
  have hsource' : ctx₀.source.WellFormed := h₀.source_eq ▸ hsource
  refine after_fuse_of h₀ hsource hsmooth hpos ?_ (fun {ctx₁} hcloned => ?_) fun h₂ => ?_
  · exact (after_cloneSource h₀ hsource' fun hp => (hsmooth hp).copyable hsource' h₀.axes).imp
      (fun _ _ _ => trivial) fun e _ he => ⟨he.1, fun hp => absurd hp he.2⟩
  · have hmax : ctx₁.maxBackwardPasses = ctx₀.maxBackwardPasses := by rw [hcloned.copying.frame]
    refine (after_inferGaps_at (hcloned.fresh h₀) (hcloned.backwardPasses h₀)).imp
      (fun _ _ _ => trivial) fun e _ he => ?_
    rcases he with rfl | ⟨rfl, hlim⟩
    · exact ⟨rfl, fun _ => by rw [hmax]⟩
    · exact ⟨rfl, fun hp => absurd (hcloned.limit_eq.trans (hsmooth hp).limit) hlim⟩
  · exact (after_emitAll h₂.settled h₂.stocked (h₂.blank h₀)
      (h₂.smooth h₀ hsource hsmooth hpos)).imp (fun _ _ _ => trivial)
      fun e _ he => ⟨he.1, fun hp => absurd hp he.2⟩

end Runs

/-- The run behind a result. -/
theorem exists_run (hsource : source.WellFormed) (h : fuse lim options source = .ok r) :
    ∃ ctx₀ ctx₁ ctx₂ ctx₃ ctx, initial lim source options = .ok ctx₀ ∧
      Pass.fuse.run ctx₀ = (.ok r, ctx) ∧ Starts lim source options ctx₀ ∧
      Run False ctx₀ ctx₁ ctx₂ ctx₃ ∧ Collected ctx₃ ctx r := by
  unfold fuse at h
  rw [bind_eq_ok] at h
  obtain ⟨ctx₀, hinit, h⟩ := h
  have h₀ := starts_of_initial hinit
  rcases hrun : Pass.fuse.run ctx₀ with ⟨result, ctx⟩
  rw [hrun] at h
  cases h
  obtain ⟨ctx₁, ctx₂, ctx₃, hphases, hend⟩ :=
    (after_fuse h₀ hsource False.elim False.elim).of_run hrun
  exact ⟨ctx₀, ctx₁, ctx₂, ctx₃, ctx, hinit, hrun, h₀, hphases, hend⟩

end Context

/-- The result and the state at the end of a run. -/
def ran? (lim : Limit) (source : Graph) (options : Options) : Option (Fused × Context) :=
  match Context.initial lim source options with
  | .error _ => none
  | .ok ctx₀ =>
    match Pass.fuse.run ctx₀ with
    | (.ok r, ctx) => some (r, ctx)
    | (.error _, _) => none

theorem exists_ran (lim : Limit) (source : Graph) (options : Options)
    (h : (ran? lim source options).isSome = true) : ∃ ctx₀ r ctx,
      Context.initial lim source options = .ok ctx₀ ∧ Pass.fuse.run ctx₀ = (.ok r, ctx) ∧
        ran? lim source options = some (r, ctx) := by
  grind [ran?]

theorem exists_fused (lim : Limit) (options : Options) (source : Graph)
    (h : (fuse lim options source).toBool = true) : ∃ r, fuse lim options source = .ok r := by
  cases hr : fuse lim options source with
  | error e => simp [hr, Except.toBool] at h
  | ok r => exact ⟨r, rfl⟩

end CanvasFusion
