import CanvasFusion.Proofs.Fusion.Failures
import CanvasFusion.Proofs.Fusion.Simulation

/-!
# The pass preserves values

An input of the source has a fused tensor of its own (`Run.io_inj`), so what is fed to the source
can be fed to the fused graph (`Fused.feeds`). If the batch of the source is kept, the values of the
source are values for the working copy, which the fused graph simulates (`Run.preserves`).
-/

namespace CanvasFusion

open Value List Option AxisMap

variable {α : Type}

theorem Value.eq_of_data {v w : Value α} (hshape : v.shape = w.shape) (hdata : v.data = w.data) :
    v = w := by
  obtain ⟨s, a⟩ := v
  obtain ⟨s', a'⟩ := w
  cases hshape
  cases hdata
  rfl

/-! ## Feeding the fused graph -/

/-- What is fed to the source, for the fused graph. -/
def Fused.feeds (r : Fused) (feeds : List (TensorId × Array α)) : List (TensorId × Array α) :=
  feeds.filterMap fun p => (r.io.get? p.1).map fun f => (f, p.2)

theorem Fused.fedData_feeds {r : Fused} {t f : TensorId} (hf : r.io.get? t = some f)
    (hinj : ∀ u, r.io.get? u = some f → u = t) (feeds : List (TensorId × Array α)) :
    fedData (r.feeds feeds) f = fedData feeds t := by
  induction feeds using List.reverseRecOn with
  | nil => rfl
  | append_singleton feeds p ih =>
    obtain ⟨u, data⟩ := p
    rw [fedData_append, Fused.feeds, filterMap_append, ← Fused.feeds]
    cases hu : r.io.get? u with
    | none => grind
    | some g =>
      have heq : g = f ↔ u = t := by grind
      rw [filterMap_cons_some (by rw [hu]; rfl), filterMap_nil, fedData_append, ih]
      simp only [heq]

/-- The cell of a canvas for an element of a sample whose tile begins at `origin`. Samples are told
apart by their tiles, so the batch of a canvas has one entry only. -/
def AxisMap.onTile (map : AxisMap) (origin : Pair Nat) (index : Index) : Index :=
  map.arrange 0 (Shape.extent index map.channel)
    (.ofFn fun d => origin.get d + Shape.extent index (map.fuse.get d))

namespace Context

variable [Scalar α] {ctx₀ ctx₁ ctx₂ ctx₃ ctx : Context} {r : Fused} {t u c f : TensorId} {P : Prop}
  {V : TensorId → Value α}

/-- An input of the working copy is emitted as an input. -/
theorem Emitting.mem_inputs (h : Emitting P ctx) (hc : c ∈ ctx.cloned.inputs)
    (hf : ctx.fusedOf.get? c = some f) : f ∈ ctx.fused.inputs := by
  have hs := h.settled
  obtain ⟨z, hz, hrole⟩ := hs.wellFormed.mem_inputs.1 hc
  have hsrc := hs.wellFormed.source_of_role hz hrole
  cases (h.fusedOf hf).2 with
  | source hx _ hy hspec _ =>
    grind [Graph.WellFormed.mem_inputs, Graph.Runnable.wellFormed, runnable]
  | batched hop hout _ _ _ => exact absurd (hout ▸ hsrc) (hs.wellFormed.not_source_of_output hop)
  | canvas hfuses hout _ _ _ _ =>
    exact absurd (hout ▸ hsrc) (hs.wellFormed.not_source_of_output hfuses.known)

section Runs

variable (h : Run P ctx₀ ctx₁ ctx₂ ctx₃) (hend : Collected ctx₃ ctx r)
  (hsource : ctx₀.source.WellFormed)

include h hend hsource

/-- The fused tensor of an input is that of no other tensor. -/
theorem Run.io_inj (ht : t ∈ ctx₀.source.inputs) (hf : r.io.get? t = some f)
    (hu : r.io.get? u = some f) : u = t := by
  have hemitting := h.emitted.emitting
  have hs := hemitting.settled
  obtain ⟨c, f', hc, hf', hin⟩ := h.inputOf?_eq_some ht
  obtain rfl : f' = f := by grind [Collected.input, source_eq]
  have hmem : u ∈ ctx₀.source.inputs ++ ctx₀.source.outputs := by grind [Collected.inner, source_eq]
  obtain ⟨c', hc', hbatched⟩ := h.io_batched hend hsource hmem hu
  have heq : c' = c := by
    unfold BatchedAs at hbatched
    split_ifs at hbatched
    · -- A de-fused tensor is the output of an operation.
      obtain ⟨z, hz, hrole⟩ := h.clone_input hsource ht hc
      have hmem := hemitting.mem_inputs (hs.wellFormed.mem_inputs.2 ⟨z, hz, hrole⟩) hf'
      obtain ⟨-, -, x, -, parts, o, hop, -⟩ := hemitting.defused hbatched
      exact absurd (mem_append_left _ hmem)
        (hemitting.runnable.wellFormed.not_source_of_output hop)
    · exact hemitting.injective hbatched hf'
  rw [h.cloneOf_eq] at hc hc'
  exact h.cloned.copying.injective (heq ▸ hc') hc

omit hend in
/-- The inputs of the working copy are copies of inputs. -/
theorem Run.exists_input (hc : c ∈ ctx₃.cloned.inputs) :
    ∃ t ∈ ctx₀.source.inputs, ctx₃.cloneOf.get? t = some c := by
  have hs := h.emitted.emitting.settled
  obtain ⟨z, hz, hrole⟩ := hs.wellFormed.mem_inputs.1 hc
  have hz' := hz
  rw [h.cloned_eq] at hz'
  obtain ⟨t, ht⟩ := h.cloned.copying.covered hz'
  refine ⟨t, ?_, h.cloneOf_eq ▸ ht⟩
  cases h.cloned.copying.copied ht with
  | input hx hrole' _ _ _ => exact hsource.mem_inputs.2 ⟨_, h.cloned.source_eq ▸ hx, hrole'⟩
  | constant hx hrole' hy hspec _ _ => grind
  | written _ _ _ hop' hout' _ _ =>
    have hsrc := hs.wellFormed.source_of_role hz hrole
    rw [h.cloned_eq] at hsrc
    exact absurd (hout' ▸ hsrc) (h.cloned.copying.wellFormed.not_source_of_output hop')

/-- **The fused graph evaluates**, and simulates the working copy. -/
theorem Run.evaluates (hV : ctx₃.cloned.Models V)
    (hsealed : ∀ W : TensorId → Value α, ctx₃.fused.Models W → ctx₃.Sealed W)
    {feeds : List (TensorId × Array α)}
    (hfits : ∀ p ∈ feeds, ∀ c, ctx₃.cloneOf.get? p.1 = some c →
      p.2.size = (ctx₃.cloned.shapeOf c).prod)
    (hfed : ∀ t ∈ ctx₀.source.inputs, ∀ c, ctx₃.cloneOf.get? t = some c →
      fedData feeds t = some (V c).data) :
    ∃ (values : Values α) (W : TensorId → Value α),
      evaluate .unbounded r.graph (r.feeds feeds) = .ok values ∧ ctx₃.fused.Models W ∧
      (∀ {f s}, ctx₃.fused.Has f s → values.get? f = some (W f)) ∧
      ∀ {t f}, ctx₃.fusedOf.get? t = some f → ctx₃.Simulates V W t f := by
  have hemitting := h.emitted.emitting
  have hs := hemitting.settled
  have hrelabels : ctx₃.fused.Relabels r.graph := hend.graph ▸ hend.relabels
  -- What the inputs of the fused graph are fed.
  have hinput : ∀ {c f}, c ∈ ctx₃.cloned.inputs → ctx₃.fusedOf.get? c = some f →
      fedData (r.feeds feeds) f = some (V c).data := by
    intro c f hc hf
    obtain ⟨t, ht, hct⟩ := h.exists_input hsource hc
    have hio : r.io.get? t = some f := by
      rw [hend.input (h.source_eq ▸ ht), inputOf?, hct]
      exact hf
    grind [Fused.fedData_feeds, io_inj]
  have hfeeds : r.graph.FedBy (r.feeds feeds) := by
    refine ⟨fun p hp => ?_, fun f hf => ?_⟩
    · obtain ⟨⟨u, data⟩, hq, hp⟩ := mem_filterMap.1 hp
      obtain ⟨g, hg, rfl⟩ := map_eq_some_iff.1 hp
      have hmem : u ∈ ctx₀.source.inputs ++ ctx₀.source.outputs := by
        grind [Collected.inner, source_eq]
      obtain ⟨c, hc, hbatched⟩ := h.io_batched hend hsource hmem hg
      obtain ⟨y, hy, hshape⟩ := hemitting.has_of_batchedAs hbatched
      obtain ⟨y', hy', hspec, -⟩ := hrelabels.grows.tensor hy
      refine ⟨y', hy', ?_⟩
      rw [hspec, hshape]
      exact hfits _ hq c hc
    · rw [hrelabels.inputs_eq] at hf
      obtain ⟨c, hc, hcf⟩ := hemitting.inputs f hf
      rw [hinput hc hcf]
      exact some_ne_none _
  obtain ⟨values, W, heval, hmodels, hvalues, hfedW⟩ :=
    (hrelabels.runnable hemitting.runnable).evaluates hfeeds
  have hW := hrelabels.grows.models hemitting.runnable.wellFormed hmodels
  refine ⟨values, W, heval, hW, fun {f s} hf => ?_, fun hf =>
    hemitting.simulates hW hV (hsealed W hW) (fun {c f} hc hf => ?_) hf⟩
  · obtain ⟨y, hy⟩ := hf.known
    obtain ⟨y', hy', -⟩ := hrelabels.grows.tensor hy
    exact hvalues f y' hy'
  · have hin : f ∈ r.graph.inputs := hrelabels.inputs_eq ▸ hemitting.mem_inputs hc hf
    have hdata := (hfedW f hin).symm.trans (hinput hc hf)
    obtain ⟨z, hz, hrole⟩ := hs.wellFormed.mem_inputs.1 hc
    have hhas := (hemitting.fusedOf hf).1
    have hbatched := hs.source (hs.wellFormed.source_of_role hz hrole)
    rw [fusedShape, if_neg (by rw [hbatched]; exact Bool.false_ne_true)] at hhas
    exact eq_of_data ((hW.of_has hhas).2.trans (hV.shape hz).symm) (Option.some.inj hdata)

end Runs

/-! ## What the fused graph holds -/

/-- The value `w` carries the value `v` of a tensor of the source. A batched tensor has the same
value. On a canvas, each element of a sample is where the tile of the sample begins, plus its
index. -/
def Carries (ctx : Context) (t : TensorId) (v w : Value α) : Placement → Prop
  | .batched => w = v
  | .canvas => ∃ c, ctx.cloneOf.get? t = some c ∧ ∀ n < ctx.grid.count,
      ∃ map origin extent, ctx.TileAt c n map origin extent ∧
        v.shape.extent map.batch = ctx.grid.count ∧
        ∀ index, v.shape.Within index → Shape.extent index map.batch = n →
          w.element? (map.onTile origin index) = v.element? index

theorem onTile_arrange {K : Canvas} {m : AxisMap} (hm : m.Valid) {n n' c : Nat} {y : Pair Nat} :
    m.onTile (K.place (K.spot n) (.both 0)) (m.arrange n' c y) =
      m.arrange 0 c (K.place (K.spot n) y) := by
  rw [onTile, arrange_channel hm]
  refine congrArg (m.arrange 0 c) (Pair.ext_get fun d => ?_)
  rw [Pair.ofFn_get, arrange_fuse hm, Canvas.place_get, Canvas.place_get, Pair.both_get,
    Nat.add_zero]

/-- A canvas carries the samples that are its tiles. -/
theorem carries_of_onCanvas (hs : ctx.core.Settled) (hc : ctx.cloneOf.get? t = some c)
    (hcanvas : ctx.isCanvas c = true) {v w : Value α}
    (h : OnCanvas (ctx.canvasOf c) (ctx.mapOf c) (ctx.channelsOf c) v w) :
    ctx.Carries t v w .canvas := by
  have hsamples := hs.hasSamples hcanvas
  have hm := hsamples.valid hs
  refine ⟨c, hc, fun n hn => ⟨_, _, _, hsamples.tileAt hs n, ?_, fun index hin hbatch => ?_⟩⟩
  · rw [h.shape, arrange_batch hm]
    exact hs.count_eq c
  · have hin' := hin
    rw [h.shape] at hin'
    obtain ⟨n', c', y, rfl, hn', hc', hy⟩ := exists_arrange hm hin'
    obtain rfl : n' = n := by rwa [arrange_batch hm] at hbatch
    rw [onTile_arrange hm, h.full.element?_eq hin,
      h.canvas_full.element?_eq (h.within (hs.canvas_valid c).toTiled hm hn' hc' hy),
      h.tile hn' hc' hy]

section Runs

variable (h : Run P ctx₀ ctx₁ ctx₂ ctx₃) (hend : Collected ctx₃ ctx r)
  (hsource : ctx₀.source.WellFormed)

include h hend hsource

/-- **A run preserves values**, if the batch of the source is kept and nothing of what is in gaps
comes into tiles. -/
theorem Run.preserves (haxes : ctx₀.axes.Valid) (hb : ctx₀.KeepsBatch)
    (hsealed : ∀ W : TensorId → Value α, ctx₃.fused.Models W → ctx₃.Sealed W)
    {feeds : List (TensorId × Array α)} {values : Values α}
    (heval : evaluate .unbounded ctx₀.source feeds = .ok values) :
    ∃ values', evaluate .unbounded r.graph (r.feeds feeds) = .ok values' ∧
      (∀ t c, ctx₃.cloneOf.get? t = some c → ∃ f v w, ctx₃.fusedOf.get? c = some f ∧
        values.get? t = some v ∧ values'.get? f = some w ∧
        ctx.Carries t v w (ctx₃.fusionOf c).placement) ∧
      ∀ t ∈ ctx₀.source.outputs, ∀ f, r.io.get? t = some f →
        ∃ v, values.get? t = some v ∧ values'.get? f = some v := by
  have hcopying := h.cloned.copying
  obtain ⟨V, hV, hvalues, hfed⟩ := exists_models hsource hcopying haxes hb heval
  rw [← h.cloned_eq] at hV
  rw [← h.cloneOf_eq] at hvalues hfed
  obtain ⟨hfits, -⟩ := evaluate_sound hsource heval
  have hemitting := h.emitted.emitting
  have hsizes : ∀ p ∈ feeds, ∀ c, ctx₃.cloneOf.get? p.1 = some c →
      p.2.size = (ctx₃.cloned.shapeOf c).prod := by
    intro p hp c hc
    obtain ⟨x, hx, hsize⟩ := hfits p hp
    rw [h.cloneOf_eq] at hc
    rw [hsize, h.cloned_eq, hcopying.shape_eq hb haxes hsource hc, Graph.shapeOf_eq hx]
  obtain ⟨values', W, heval', hW, hheld, hsim⟩ := h.evaluates hend hsource hV hsealed hsizes
    fun t ht c hc => hfed t c ht hc
  refine ⟨values', heval', fun t c hc => ?_, fun t ht f hf => ?_⟩
  · obtain ⟨f, hf⟩ := ne_none_iff_exists'.1 (h.fusedOf_clone hc)
    refine ⟨f, V c, W f, hf, hvalues t c hc, hheld (hemitting.fusedOf hf).1, ?_⟩
    have hsim := hsim hf
    obtain ⟨g, rfl⟩ : ∃ g, ctx = { ctx₃ with fused := g } := ⟨_, hend.state⟩
    unfold Simulates at hsim
    unfold fusionOf
    split_ifs at hsim ⊢ with hcanvas
    · have hcarries : ctx₃.Carries t (V c) (W f) .canvas :=
        carries_of_onCanvas hemitting.settled hc hcanvas hsim
      exact hcarries
    · exact hsim
  · obtain ⟨c, hc, hbatched⟩ := h.io_batched hend hsource (mem_append_right _ ht) hf
    refine ⟨V c, hvalues t c hc, ?_⟩
    rw [hheld (hemitting.has_of_batchedAs hbatched), hbatched.value_eq hemitting hW hsim]

end Runs

end Context

open Context

/-! ## Main results -/

/-- **The pass preserves values.** Take a source that can be built, whose inputs of rank 4 share a
batch of `N > 0` samples, and any exact scalars. If the pass succeeds and the source evaluates, then
the fused graph evaluates on the same data. It carries every tensor of the source that was copied,
batched or on its canvas, and has the value of each output. -/
theorem fuse_preserves_values {lim lim' : Limit} {calls : List Graph.Call} {options : Options}
    {N : Nat} {r : Fused} {T : Transcendental} {feeds : List (TensorId × Array (Exact T))}
    {values : Values (Exact T)} (hbatch : HasBatch (Graph.build lim' calls) options N)
    (hpos : ∀ t ∈ (Graph.build lim' calls).inputs,
      ((Graph.build lim' calls).shapeOf t).length = 4 → 0 < N)
    (hfuse : fuse lim options (Graph.build lim' calls) = .ok r)
    (heval : evaluate .unbounded (Graph.build lim' calls) feeds = .ok values) :
    ∃ ctx₀ ctx values', Context.initial lim (Graph.build lim' calls) options = .ok ctx₀ ∧
      Pass.fuse.run ctx₀ = (.ok r, ctx) ∧
      evaluate .unbounded r.graph (r.feeds feeds) = .ok values' ∧
      (∀ t info, r.info.get? t = some info → ∃ f v w, info.fused = some f ∧
        values.get? t = some v ∧ values'.get? f = some w ∧ ctx.Carries t v w info.placement) ∧
      ∀ t ∈ (Graph.build lim' calls).outputs, ∀ f, r.io.get? t = some f →
        ∃ v, values.get? t = some v ∧ values'.get? f = some v := by
  have hsource := Graph.wellFormed_build lim' calls
  obtain ⟨ctx₀, ctx₁, ctx₂, ctx₃, ctx, hinit, hrun, h₀, hphases, hend⟩ := exists_run hsource hfuse
  have hb := h₀.keepsBatch hsource hbatch hpos
  rw [← h₀.source_eq] at hsource heval ⊢
  obtain ⟨values', heval', hinfo, hout⟩ := hphases.preserves hend hsource h₀.axes hb
    (fun W hW => hphases.emitted.emitting.sealed_of_lawful hW) heval
  refine ⟨ctx₀, ctx, values', h₀.source_eq ▸ hinit, hrun, heval', fun t info ht => ?_, hout⟩
  rw [hend.info] at ht
  obtain ⟨c, hc, rfl⟩ := Option.map_eq_some_iff.1 ht
  exact hinfo t c hc

/-- Two samples on a canvas, with a mask between the pooling and the padding. -/
theorem fuse_preserves_values_padPools : ∃ r values values' f info v,
    HasBatch (Graph.build .word64 padPools) .standard 2 ∧
    fuse .word64 .standard (Graph.build .word64 padPools) = .ok r ∧
    evaluate .unbounded (Graph.build .word64 padPools) twoSamples = .ok values ∧
    evaluate .unbounded r.graph (r.feeds twoSamples) = .ok values' ∧
    r.info.get? ⟨2⟩ = some info ∧ info.placement = .canvas ∧ r.io.get? ⟨3⟩ = some f ∧
    values.get? ⟨3⟩ = some v ∧ values'.get? f = some v := by
  have hbatch : HasBatch (Graph.build .word64 padPools) .standard 2 := ⟨.inl rfl, by decide +kernel⟩
  obtain ⟨r, hr⟩ :=
    exists_fused .word64 .standard (Graph.build .word64 padPools) (by decide +kernel)
  obtain ⟨values, hvalues⟩ := exists_evaluated (Graph.build .word64 padPools) twoSamples
    (by decide +kernel)
  have hio : ((fuse .word64 .standard (Graph.build .word64 padPools)).toOption.bind
      fun r => r.io.get? ⟨3⟩) = some ⟨13⟩ := by decide +kernel
  have hinfo : ((fuse .word64 .standard (Graph.build .word64 padPools)).toOption.bind
      fun r => (r.info.get? ⟨2⟩).map (·.placement)) = some .canvas := by decide +kernel
  rw [hr] at hio hinfo
  obtain ⟨info, hinfo, hcanvas⟩ := Option.map_eq_some_iff.1 hinfo
  obtain ⟨-, -, values', -, -, hvalues', -, hout⟩ :=
    fuse_preserves_values hbatch (fun _ _ _ => by decide) hr hvalues
  obtain ⟨v, hv, hv'⟩ := hout ⟨3⟩ (by decide +kernel) ⟨13⟩ hio
  exact ⟨r, values, values', ⟨13⟩, info, v, hbatch, hr, hvalues, hvalues', hinfo, hcanvas,
    hio, hv, hv'⟩

/-- **Without operations that read gaps, values are preserved bit by bit.** The scalars are
arbitrary here: not one law of arithmetic holds for them, so each element of an output comes about
by the same operations in the same order. Nothing is masked, and every output has exactly the value
that it has in the source. -/
theorem fuse_exact_without_gap_reads {α : Type} [Scalar α] {lim lim' : Limit}
    {calls : List Graph.Call}
    {options : Options} {ctx₀ ctx : Context} {r : Fused} {feeds : List (TensorId × Array α)}
    {values : Values α} (hinit : Context.initial lim (Graph.build lim' calls) options = .ok ctx₀)
    (hrun : Pass.fuse.run ctx₀ = (.ok r, ctx))
    (hbatch : ∀ t ∈ (Graph.build lim' calls).inputs, ((Graph.build lim' calls).shapeOf t).length =
      4 → ((Graph.build lim' calls).shapeOf t).extent options.axes.batch = r.report.tileCount)
    (hreads : ¬ ctx.ReadsGaps)
    (heval : evaluate .unbounded (Graph.build lim' calls) feeds = .ok values) :
    r.report.counters.masks = 0 ∧ (∀ t, ctx.masked.get? t = none) ∧
      ∃ values', evaluate .unbounded r.graph (r.feeds feeds) = .ok values' ∧
        ∀ t ∈ (Graph.build lim' calls).outputs, ∀ f, r.io.get? t = some f →
          ∃ v, values.get? t = some v ∧ values'.get? f = some v := by
  have hsource := Graph.wellFormed_build lim' calls
  have h₀ := starts_of_initial hinit
  obtain ⟨ctx₁, ctx₂, ctx₃, hphases, hend⟩ :=
    (after_fuse (P := False) h₀ hsource False.elim False.elim).of_run hrun
  obtain ⟨g, rfl⟩ : ∃ g, ctx = { ctx₃ with fused := g } := ⟨_, hend.state⟩
  have hemitting := hphases.emitted.emitting
  have hreads₃ : ¬ ctx₃.ReadsGaps := hreads
  refine ⟨?_, fun t => ?_, ?_⟩
  · rw [hend.report]
    exact Nat.eq_zero_of_not_pos fun hpos => hreads₃ (hemitting.masks hpos)
  · cases ht : ctx₃.masked.get? t with
    | none => rfl
    | some f => exact absurd (hemitting.masked ht).2.reads hreads₃
  · rw [hend.report] at hbatch
    have hb : ctx₀.KeepsBatch := by
      intro t ht hrank
      rw [h₀.source_eq] at ht hrank ⊢
      rw [h₀.axes_eq, hbatch t ht hrank]
      exact congrArg Grid.count hphases.grid_eq
    rw [← h₀.source_eq] at hsource heval ⊢
    obtain ⟨values', heval', -, hout⟩ := hphases.preserves hend hsource h₀.axes hb
      (fun W _ => hemitting.sealed_of_not_readsGaps hreads₃) heval
    exact ⟨values', heval', hout⟩

/-- The data of two samples of five elements. -/
def twoRows : List (TensorId × Array (Exact default)) :=
  [(⟨0⟩, #[⟨1⟩, ⟨2⟩, ⟨3⟩, ⟨4⟩, ⟨5⟩, ⟨6⟩, ⟨7⟩, ⟨8⟩, ⟨9⟩, ⟨10⟩])]

/-- A check that no plan has a rule that reads gaps. -/
def Context.avoidsGaps (ctx : Context) : Bool :=
  ctx.plans.entries.all fun e => match e.2 with
    | .batched => true
    | .fused plan => Dim.all.all fun d => (plan.rules.get d).readsGap .unbounded ≠ .ok true

theorem Context.not_readsGaps_of_avoidsGaps {ctx : Context} (h : ctx.avoidsGaps = true) :
    ¬ ctx.ReadsGaps := by
  rintro ⟨o, plan, d, hplan, -, hread⟩
  have hall := all_eq_true.1 h _ (Ledger.mem_of_lookup hplan)
  have hd := all_eq_true.1 hall d (by cases d <;> simp [Dim.all])
  exact of_decide_eq_true hd hread

/-- Two poolings side by side reach into no gap. -/
theorem fuse_exact_without_gap_reads_pools : ∃ ctx₀ r ctx values values' f v,
    Context.initial .word64 (Graph.build .word64 (unevenPools 5 ⟨2, 2⟩)) .standard = .ok ctx₀ ∧
    Pass.fuse.run ctx₀ = (.ok r, ctx) ∧ ¬ ctx.ReadsGaps ∧ ctx.isCanvas ⟨3⟩ = true ∧
    evaluate .unbounded (Graph.build .word64 (unevenPools 5 ⟨2, 2⟩)) twoRows = .ok values ∧
    evaluate .unbounded r.graph (r.feeds twoRows) = .ok values' ∧
    r.report.counters.masks = 0 ∧ r.io.get? ⟨3⟩ = some f ∧ values.get? ⟨3⟩ = some v ∧
    values'.get? f = some v := by
  obtain ⟨ctx₀, r, ctx, hinit, hrun, hran⟩ := exists_ran .word64
    (Graph.build .word64 (unevenPools 5 ⟨2, 2⟩)) .standard (by decide +kernel)
  obtain ⟨values, hvalues⟩ := exists_evaluated (Graph.build .word64 (unevenPools 5 ⟨2, 2⟩)) twoRows
    (by decide +kernel)
  have hfacts : (ran? .word64 (Graph.build .word64 (unevenPools 5 ⟨2, 2⟩)) .standard).map
      (fun p => (p.2.avoidsGaps, p.2.isCanvas ⟨3⟩, p.1.io.get? ⟨3⟩, p.1.report.tileCount)) =
      some (true, true, some ⟨11⟩, 2) := by decide +kernel
  rw [hran] at hfacts
  simp only [Option.map_some, Option.some.injEq, Prod.mk.injEq] at hfacts
  obtain ⟨havoids, hcanvas, hio, hcount⟩ := hfacts
  have hreads : ¬ ctx.ReadsGaps := not_readsGaps_of_avoidsGaps havoids
  have hbatch : ∀ t ∈ (Graph.build .word64 (unevenPools 5 ⟨2, 2⟩)).inputs,
      ((Graph.build .word64 (unevenPools 5 ⟨2, 2⟩)).shapeOf t).length = 4 →
      ((Graph.build .word64 (unevenPools 5 ⟨2, 2⟩)).shapeOf t).extent Options.standard.axes.batch =
        r.report.tileCount := by
    rw [hcount]
    decide +kernel
  obtain ⟨hmasks, -, values', hvalues', hout⟩ :=
    fuse_exact_without_gap_reads hinit hrun hbatch hreads hvalues
  obtain ⟨v, hv, hv'⟩ := hout ⟨3⟩ (by decide +kernel) ⟨11⟩ hio
  exact ⟨ctx₀, r, ctx, values, values', ⟨11⟩, v, hinit, hrun, hreads, hcanvas, hvalues,
    hvalues', hmasks, hio, hv, hv'⟩

end CanvasFusion
