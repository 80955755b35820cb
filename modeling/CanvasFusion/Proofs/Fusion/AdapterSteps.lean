import CanvasFusion.Proofs.Fusion.Settled
import CanvasFusion.Proofs.Graph.Appending
import CanvasFusion.Proofs.Tiling.AdapterShapes

/-!
# What adapters emit

An adapter reads what is on record about a tensor (`Recorded`), appends operations to the fused
graph and makes one entry. Tiling appends the chain `Canvas.tiling` (`after_buildTiled`), de-fusing
a slice for each tile and their concatenation (`after_buildDefused`), and masking a constant and a
product (`after_buildMasked`). Each theorem gives the operations and the state that are left behind.
Only a size beyond the limit or a slice of nothing can make an adapter fail.
-/

namespace CanvasFusion

open AxisMap Operator Canvas List CanvasFusion.Graph Pass Shape Grid

/-! ## Checks -/

section Checks

variable {α : Type} {P : Prop} {ctx : Context} {Q : α → Context → Prop} {a : α}

theorem After.gives {x : Except FusionError α} (hx : Gives P x a)
    (hinternal : ∀ e, x = .error e → e.isInternal = false) (hQ : Q a ctx) :
    After (Pass.check x) ctx Q (Outside P) := by
  refine .check (fun b hb => hx.eq hb ▸ hQ) fun e he => ⟨hinternal e he, fun hp => ?_⟩
  rw [hx.ok hp] at he
  cases he

theorem After.gives_fault {x : Except Fault α} (hx : Gives P x a) (hQ : Q a ctx) :
    After (Pass.check (liftM x)) ctx Q (Outside P) := by
  refine After.gives ⟨fun hb => hx.eq (lift_fault_eq_ok.1 hb), fun hp => ?_⟩
    (fun e he => isInternal_of_lift_fault he) hQ
  exact lift_fault_eq_ok.2 (hx.ok hp)

end Checks

/-! ## Chains -/

/-- The second graph continues the first by a chain of operators from `x` to `y`. -/
structure Graph.Leads (g₀ g : Graph) (x : TensorId) (kinds : List Operator) (y : TensorId)
    (s : Shape) : Prop extends g₀.Emits g (chained x g₀.tensors.size kinds) [] where
  last : y = link x g₀.tensors.size kinds.length
  has : g.Has y s

/-- Nothing has been added so far. -/
theorem Graph.Leads.start {g : Graph} {x : TensorId} {s : Shape} (hg : g.Runnable)
    (hx : g.Has x s) : g.Leads g x [] x s := ⟨.refl hg, rfl, hx⟩

theorem Graph.Leads.new {g₀ g : Graph} {x y : TensorId} {kinds : List Operator} {s : Shape}
    (h : g₀.Leads g x kinds y s) (hne : kinds ≠ []) : g₀.tensors.size ≤ y.index := by
  obtain ⟨k, hk⟩ := Nat.exists_eq_succ_of_ne_zero (Nat.ne_of_gt (length_pos_iff.2 hne))
  rw [h.last, hk]
  exact Nat.le_add_right _ _

namespace Context

variable {ctx : Context} {t x y f : TensorId} {P : Prop} {g₀ g : Graph} {kind : Operator}
  {kinds : List Operator} {s s' : Shape}

section Steps

variable (hlim : P → ctx.limit = .unbounded) {Q : TensorId → Context → Prop}

include hlim

theorem after_emit {inputs : List TensorId} {role : Role} (hg : g.Runnable)
    (hw : role.isWritable = true) (hne : inputs ≠ []) (hin : ∀ x ∈ inputs, ∃ s, g.Has x s)
    (hs : Gives P (kind.inferShape .unbounded (inputs.map g.shapeOf)) s)
    (hQ : ∀ y g', g.Adds g' role kind inputs y s → Q y { ctx with fused := g' }) :
    After (onFused (emit ctx.limit kind inputs role)) { ctx with fused := g } Q
      (Outside P) := by
  refine .onFused (after_emit_adds hg hw hne (fun x hx => ?_) hs hlim) hQ
    fun e _ hp => ⟨isInternal_ofGraph e, hp⟩
  obtain ⟨s, hs⟩ := hin x hx
  exact hs.known

theorem after_emitUnary (hg : g.Runnable) (hy : g.Has y s)
    (hs : Gives P (kind.inferShape .unbounded [s]) s')
    (hQ : ∀ z g', g.Adds g' .transient kind [y] z s' → Q z { ctx with fused := g' }) :
    After (emitUnary kind y) { ctx with fused := g } Q (Outside P) := by
  have hs' : Gives P (kind.inferShape .unbounded ([y].map g.shapeOf)) s' := by
    rw [map_singleton, hy.shapeOf_eq]
    exact hs
  refine .bind (.get ?_)
  refine after_emit hlim hg rfl (cons_ne_nil _ _) (fun z hz => ?_) hs' hQ
  rw [mem_singleton.1 hz]
  exact ⟨s, hy⟩

/-- A chain becomes longer by one operator. -/
theorem after_emitNext (h : g₀.Leads g x kinds y s)
    (hs : Gives P (kind.inferShape .unbounded [s]) s')
    (hQ : ∀ z g', g₀.Leads g' x (kinds ++ [kind]) z s' → Q z { ctx with fused := g' }) :
    After (emitUnary kind y) { ctx with fused := g } Q (Outside P) := by
  refine after_emitUnary hlim h.runnable h.has hs fun z g' hadds => hQ z g' ?_
  have hz : z = link x g₀.tensors.size (kinds.length + 1) := by
    rw [h.fresh_eq hadds, length_chained]
    rfl
  refine ⟨?_, by rw [length_append, length_singleton, hz], hadds.has⟩
  rw [chained_snoc, ← h.last, ← hz]
  exact h.snoc hadds

theorem after_emitTranspose {perm : List Nat} (h : g₀.Leads g x kinds y s)
    (hs : inferShape .unbounded (.transpose perm) [s] = .ok s')
    (hQ : ∀ z g', g₀.Leads g' x (kinds ++ transposing perm) z s' → Q z { ctx with fused := g' }) :
    After (emitTranspose perm y) { ctx with fused := g } Q (Outside P) := by
  unfold emitTranspose
  unfold transposing at hQ
  by_cases hid : isIdentity perm = true
  · rw [if_pos hid, append_nil] at hQ
    rw [if_pos hid]
    have hs' : inferTranspose perm s = .ok s' := hs
    obtain ⟨hperm, rfl⟩ := inferTranspose_eq_ok hs'
    have hlen := (isPermutation_iff.1 hperm).1
    have hsame : perm.map s.extent = s := by
      have hrange : perm = range perm.length := by simpa [isIdentity] using hid
      rw [hrange, hlen]
      refine ext_extent (by simp) fun i hi => ?_
      rw [length_map, length_range] at hi
      refine extent_eq ?_
      rw [getElem?_map, getElem?_range hi]
      rfl
    exact .pure (hQ y g (hsame.symm ▸ h))
  · rw [if_neg hid] at hQ ⊢
    exact after_emitNext hlim h (.of_ok hs) hQ

end Steps

theorem after_checkShape (h : ctx.fused.Has f s) {E : FusionError → Context → Prop}
    {Q : Unit → Context → Prop} (hQ : Q () ctx) : After (checkShape t f s) ctx Q E := by
  refine .bind (.ask_fault h.shape_ok ?_)
  exact .ite (fun hne => absurd rfl hne) fun _ => .pure hQ

end Context

/-! ## What is on record -/

/-- The canvas has the tiles of the grid, one for each sample. -/
structure Grid.Lays (g : Grid) (K : Canvas) : Prop extends K.Tiled where
  tiles : K.tiles = g.tiles
  count : K.count = g.count

section Sizes

variable {g : Grid} {K : Canvas} {lim : Limit} {P : Prop} (hK : g.Lays K)
  (hlim : P → lim = .unbounded)

include hlim

theorem Canvas.gives_pitches :
    Gives P (Pair.ofFnM fun d => lim.add (K.extent.get d) (K.gap.get d)) K.pitches := by
  refine .ofFnM (fun d => hasPeak_add _ _) (fun d => ?_) hlim
  rw [Limit.add_unbounded, pitches, Pair.ofFn_get]
  rfl

include hK

theorem Grid.Lays.gives_full :
    Gives P (Pair.ofFnM fun d => lim.mul (g.tiles.get d) (K.pitches.get d))
    ⟨K.tiles.first * K.pitch .first, K.tiles.second * K.pitch .second⟩ := by
  refine .ofFnM (fun d => hasPeak_mul _ _) (fun d => ?_) hlim
  rw [← hK.tiles]
  cases d <;> rfl

theorem Grid.Lays.gives_size :
    Gives P (Pair.ofFnM fun d => g.canvasExtent lim d (K.extent.get d) (K.gap.get d)) K.size := by
  refine .ofFnM (fun d => hasPeak_canvasExtent _ _ _ _) (fun d => ?_) hlim
  rw [canvasExtent_unbounded (hK.tiles ▸ hK.tiles_pos d), size_get, ← hK.tiles]
  rfl

end Sizes

namespace Context

variable {ctx ctx' : Context} {t x f : TensorId} {P : Prop} {m : AxisMap} {C : Nat}
  {extent gap : Pair Nat} {K : Canvas}

/-- What is on record about a tensor of the working copy that holds all samples: its roles and its
gaps. Its shape gives the channels and the extents of a sample. -/
structure Recorded (ctx : Context) (t : TensorId) (m : AxisMap) (C : Nat) (extent gap : Pair Nat) :
    Prop where
  valid : m.Valid
  axisMap : ctx.axisMap t = .ok m
  gap_ok : ctx.gap t = .ok gap
  shape : ctx.cloned.shape t = .ok (m.arrange ctx.grid.count C extent)

/-- The tensor `t` is the tensor `x` of the fused graph, which can take more operations. -/
structure Adapts (ctx : Context) (t x : TensorId) (m : AxisMap) (C : Nat) (extent gap : Pair Nat) :
    Prop extends ctx.Recorded t m C extent gap where
  fusedTensor : ctx.fusedTensor t = .ok x
  runnable : ctx.fused.Runnable
  proportions : ∀ {f}, ctx.proportions.get? f ≠ none → f.index < ctx.fused.tensors.size

/-- Sizes have no limit, and no sample is empty. -/
structure Roomy (ctx : Context) (C : Nat) (extent : Pair Nat) : Prop where
  limit : ctx.limit = .unbounded
  channels_pos : 0 < C
  extent_pos : ∀ d, 0 < extent.get d

namespace Recorded

variable (h : ctx.Recorded t m C extent gap)

include h

theorem channels_ok : Size.entry (m.arrange ctx.grid.count C extent) m.channel = .ok C := by
  rw [entry_ok (by rw [length_arrange]; exact h.valid.channel_lt),
    arrange_channel h.valid]

theorem extent_ok : m.sampleExtent (m.arrange ctx.grid.count C extent) = .ok extent :=
  sampleExtent_ok h.valid

/-- The share of a canvas can be computed, whatever it is. -/
theorem after_canvasProportion (hpos : ∀ d, 0 < ctx.grid.tiles.get d)
    (hlim : P → ctx.limit = .unbounded)
    (hsame : ctx'.canvasProportion t = ctx.canvasProportion t) {Q : Float → Context → Prop}
    (hQ : ∀ p, Q p ctx') : After (ask (·.canvasProportion t)) ctx' Q (Outside P) := by
  have hread : ctx.canvasProportion t = liftM (ctx.grid.proportion ctx.limit extent gap) := by
    rw [canvasProportion, h.gap_ok, bind_ok, h.axisMap, bind_ok, h.shape, lift_fault_ok, bind_ok,
      h.extent_ok, lift_fault_ok, bind_ok]
  refine .ask (fun p _ => hQ p) fun e he => ?_
  rw [hsame, hread] at he
  refine ⟨isInternal_of_lift_fault he, fun hp => ?_⟩
  have hcoverage : ∀ d e g, ∃ c, ctx.grid.coverage .unbounded d e g = .ok c := by
    intro d e g
    rw [coverage, canvasExtent_unbounded (hpos d), bind_ok]
    split_ifs
    · exact ⟨_, rfl⟩
    · exact ⟨_, rfl⟩
  obtain ⟨a, ha⟩ := hcoverage .first extent.first gap.first
  obtain ⟨b, hb⟩ := hcoverage .second extent.second gap.second
  rw [hlim hp, proportion, ha, bind_ok, hb] at he
  cases he

end Recorded

theorem Adapts.proportion_new (h : ctx.Adapts t x m C extent gap)
    (hf : ctx.fused.tensors.size ≤ f.index) : ctx.proportions.get? f = none := by
  by_contra hne
  exact absurd (h.proportions hne) (Nat.not_lt.2 hf)

/-! ## Tiling -/

/-- The state after the canvas form of a tensor has been entered. -/
def withTiled (ctx : Context) (g : Graph) (t f : TensorId) (p : Float) : Context :=
  { ctx with
    fused := g
    proportions := ctx.proportions.record f p
    tiled := ctx.tiled.record t f
    counters := { ctx.counters with tileAdapters := ctx.counters.tileAdapters + 1 } }

/-- **Tiling** appends its chain to the fused graph. -/
theorem after_buildTiled (h : ctx.Adapts t x m C K.extent K.gap) (hK : ctx.grid.Lays K)
    (hP : P → ctx.Roomy C K.extent) (hx : ctx.fused.Has x (m.arrange K.count C K.extent))
    (hcanvas : ctx.gappedShape t = .ok (m.arrange 1 C K.size)) (hnew : ctx.tiled.get? t = none)
    {Q : TensorId → Context → Prop} (hQ : ∀ f g p, ctx.fused.Leads g x (K.tiling m C) f
      (m.arrange 1 C K.size) → Q f (ctx.withTiled g t f p)) :
    After (buildTiled t) ctx Q (Outside P) := by
  have hm := h.valid
  have hlim : P → ctx.limit = .unbounded := fun hp => (hP hp).limit
  have hstart := Leads.start h.runnable hx
  unfold buildTiled
  refine .bind (.get ?_)
  refine .bind (.check_ok h.axisMap ?_)
  refine .bind (.check_ok h.gap_ok ?_)
  refine .bind (.check_fault h.shape ?_)
  refine .bind (.check_fault h.channels_ok ?_)
  refine .bind (.check_fault h.extent_ok ?_)
  refine .bind (.gives_fault (gives_pitches hlim) ?_)
  refine .bind (.check_ok h.fusedTensor ?_)
  extract_lets tiles gapless finish middle
  -- The axes are brought back, and the canvas is entered.
  have hfinish : ∀ {g z kinds},
      ctx.fused.Leads g x kinds z (nchw.arrange 1 C K.size) →
      kinds ++ transposing m.restoring = K.tiling m C →
      After (finish z) { ctx with fused := g } Q (Outside P) := by
    intro g z kinds hleads hkinds
    refine .bind (.check_fault (fromCanonicalPerm_ok hm) ?_)
    refine .bind (after_emitTranspose hlim hleads (inferShape_restoring hm _)
      fun f g' hleads' => ?_)
    rw [hkinds] at hleads'
    refine .bind (.check_ok hcanvas ?_)
    refine .bind (after_checkShape hleads'.has ?_)
    refine .bind (h.after_canvasProportion (hK.tiles ▸ hK.tiles_pos) hlim (by rfl) fun p => ?_)
    have hlate : ctx.fused.tensors.size ≤ f.index := hleads'.new (by simp [tiling])
    refine .bind (.recordNew (h.proportion_new hlate) ?_)
    refine .bind (.recordNew hnew ?_)
    exact .bind (.modify (.pure (hQ f g' p hleads')))
  have hmiddle : ∀ {g z kinds},
      ctx.fused.Leads g x kinds z (m.arrange K.count C K.pitches) →
      kinds = (if K.gap = .both 0 then [] else [.pad (K.gapPad m)]) →
      After (middle z) { ctx with fused := g } Q (Outside P) := by
    intro g z kinds hleads hkinds
    have hgrid : [tiles.second, tiles.first, C, K.pitches.first, K.pitches.second] =
        K.gridShape C := by
      rw [show tiles = K.tiles from hK.tiles.symm]
      rfl
    refine .bind (after_emitTranspose hlim hleads (inferShape_canonicalPerm hm _)
      fun z₁ g₁ h₁ => ?_)
    rw [hgrid]
    refine .bind (after_emitNext hlim h₁ (.of_ok inferShape_grid) fun z₂ g₂ h₂ => ?_)
    refine .bind (after_emitNext hlim h₂ (.of_ok inferShape_woven) fun z₃ g₃ h₃ => ?_)
    refine .bind (.gives_fault (hK.gives_full hlim) ?_)
    refine .bind (after_emitNext hlim h₃ (.of_ok inferShape_full) fun z₄ g₄ (h₄ :
      Leads _ _ _ (_ ++ [.reshape (K.fullShape C)]) _ _) => ?_)
    refine .ite (fun hgap => ?_) fun hgap => ?_
    · grind [fullShape_of_gapless, tiling]
    · have hgap : K.gap ≠ .both 0 := hgap
      have hslice : Gives P (inferShape .unbounded
          (.slice [0, 0, 0, 0] (nchw.arrange 1 C K.size)) [K.fullShape C])
          (nchw.arrange 1 C K.size) :=
        gives_slice fun hp => hK.trimShape (hP hp).channels_pos (hP hp).extent_pos
      refine .bind (.gives_fault (hK.gives_size hlim) ?_)
      grind [after_emitNext, tiling, arrange_nchw, After.bind]
  refine .ite (fun hgap => ?_) fun hgap => ?_
  · have hgap : K.gap = .both 0 := hgap
    rw [← pitches_of_gapless hgap] at hstart
    exact .bind (.pure (hmiddle hstart (if_pos hgap).symm))
  · have hgap : K.gap ≠ .both 0 := hgap
    have hback := foldlM_replace hm (n := 0) (c := 0) (y := .both 0) K.gap.get
    rw [arrange_const] at hback
    refine .bind (.check_fault hback ?_)
    exact .bind (after_emitNext hlim hstart (.of_ok (inferShape_gapPad hm))
      fun z g hz => hmiddle hz (if_neg hgap).symm)

/-! ## De-fusing -/

end Context

/-- The slices that cut the tiles out of the canvas `x`, and their concatenation. -/
def Canvas.defusing (K : Canvas) (m : AxisMap) (C : Nat) (x : TensorId) (next : Nat) :
    List Operation :=
  (List.range K.count).map (fun n => ⟨.slice (K.origin m n) (K.block m C), [x], ⟨next + n⟩⟩) ++
    [⟨.concat m.batch, (List.range K.count).map fun n => ⟨next + n⟩, ⟨next + K.count⟩⟩]

theorem Canvas.length_defusing (K : Canvas) (m : AxisMap) (C : Nat) (x : TensorId) (next : Nat) :
    (K.defusing m C x next).length = K.count + 1 := by
  simp [defusing]

/-- The mask of a canvas as a tensor of an element type. -/
def Canvas.maskSpec (K : Canvas) (m : AxisMap) (element : ElementType) : TensorSpec where
  element := element
  shape := m.arrange 1 1 K.size
  role := .constant
  quant := match element with
    | .u8 | .i8 => some Quantization.identity
    | _ => none

namespace Context

variable {ctx ctx' : Context} {t x f : TensorId} {P : Prop} {m : AxisMap} {C : Nat} {K : Canvas}

/-- The state after the batched form of a tensor has been entered. -/
def withDefused (ctx : Context) (g : Graph) (t f : TensorId) : Context :=
  { ctx with
    fused := g
    proportions := ctx.proportions.record f 1
    defused := ctx.defused.record t f
    counters := { ctx.counters with defuseAdapters := ctx.counters.defuseAdapters + 1 } }

/-- The tiles of the samples in `done` have been cut out of the canvas `x`. -/
structure CutOut (ctx : Context) (K : Canvas) (m : AxisMap) (C : Nat) (x : TensorId)
    (done : List Nat) (parts : List TensorId) (g : Graph) : Prop where
  emits : ctx.fused.Emits g (done.map fun n =>
    ⟨.slice (K.origin m n) (K.block m C), [x], ⟨ctx.fused.tensors.size + n⟩⟩) []
  parts_eq : parts = done.map fun n => ⟨ctx.fused.tensors.size + n⟩
  has : ∀ part ∈ parts, g.Has part (K.block m C)

section Defusing

variable (h : ctx.Adapts t x m C K.extent K.gap) (hK : ctx.grid.Lays K)
  (hP : P → ctx.Roomy C K.extent) (hx : ctx.fused.Has x (m.arrange 1 C K.size))

include h hK hP hx

/-- The samples are taken in order, so the next tile has the next number. -/
theorem CutOut.next {done rest : List Nat} {n : Nat} {parts : List TensorId} {g : Graph}
    (hcut : ctx.CutOut K m C x done parts g) (hn : List.range K.count = done ++ n :: rest) :
    After (do
      let origin ← check (liftM (ctx.grid.tileOrigin ctx.limit n K.extent K.gap))
      let start ← check (liftM (Dim.all.foldlM (fun start d =>
        Size.replace start (m.fuse.get d) (origin.get d)) [0, 0, 0, 0]))
      emitUnary (.slice start (K.block m C)) x) { ctx with fused := g }
      (fun part ctx' => ∃ g', ctx' = { ctx with fused := g' } ∧
        ctx.CutOut K m C x (done ++ [n]) (parts ++ [part]) g') (Outside P) := by
  have hlim : P → ctx.limit = .unbounded := fun hp => (hP hp).limit
  have hlen : done.length = n := by
    have hget : (range K.count)[done.length]? = some n := by simp [hn]
    grind
  have hn' : n < K.count := by
    rw [← mem_range, hn]
    exact mem_append_right done mem_cons_self
  have hstart := foldlM_replace h.valid (n := 0) (c := 0) (y := .both 0)
    (K.place (K.spot n) (.both 0)).get
  rw [arrange_const] at hstart
  have hslice : Gives P (inferShape .unbounded (.slice (K.origin m n) (K.block m C))
      [m.arrange 1 C K.size]) (K.block m C) :=
    gives_slice fun hp => hK.blockShape h.valid hn' (hP hp).channels_pos (hP hp).extent_pos
  refine .bind (.gives_fault (gives_tileOrigin hK.toTiled hK.tiles n hlim) ?_)
  refine .bind (.check_fault hstart ?_)
  refine after_emitUnary hlim hcut.emits.runnable (hx.grow hcut.emits.grows)
    hslice fun z g' hz => ?_
  have hfresh : z = ⟨ctx.fused.tensors.size + n⟩ := by
    rw [hcut.emits.fresh_eq hz, length_map, hlen]
  subst hfresh
  refine ⟨g', rfl, ?_, ?_, fun part hpart => ?_⟩
  · rw [map_append]
    exact hcut.emits.snoc hz
  · rw [map_append, hcut.parts_eq]
    rfl
  · rcases mem_append.1 hpart with hpart | hpart
    · exact (hcut.has part hpart).grow hz.grows
    · rw [mem_singleton.1 hpart]
      exact hz.has

/-- **De-fusing** appends its slices and their concatenation to the fused graph. -/
theorem after_buildDefused {role : Role} (hw : role.isWritable = true)
    (hnew : ctx.defused.get? t = none) {Q : TensorId → Context → Prop}
    (hQ : ∀ f g, ctx.fused.Emits g (K.defusing m C x ctx.fused.tensors.size)
        (if role = .output then [f] else []) → f = ⟨ctx.fused.tensors.size + K.count⟩ →
      g.Has f (m.arrange K.count C K.extent) → Q f (ctx.withDefused g t f)) :
    After (buildDefused t role) ctx Q (Outside P) := by
  have hm := h.valid
  have hlim : P → ctx.limit = .unbounded := fun hp => (hP hp).limit
  have hblock : withDim (m.arrange ctx.grid.count C K.extent) m.batch 1 =
      .ok (K.block m C) := replace_batch hm 1
  unfold buildDefused
  refine .bind (.get ?_)
  refine .bind (.check_ok h.axisMap ?_)
  refine .bind (.check_ok h.gap_ok ?_)
  refine .bind (.check_ok h.fusedTensor ?_)
  refine .bind (.check_fault h.shape ?_)
  refine .bind (.check_fault h.extent_ok ?_)
  refine .bind (.check_fault hblock ?_)
  rw [← hK.count, rank, length_arrange]
  have hstart : ctx.CutOut K m C x [] [] ctx.fused :=
    ⟨.refl h.runnable, rfl, fun part hpart => by cases hpart⟩
  refine .then_ (.mapM (fun done parts ctx' => ∃ g, ctx' = { ctx with fused := g } ∧
    ctx.CutOut K m C x done parts g) ⟨_, rfl, hstart⟩ ?_) ?_
  · grind [CutOut.next]
  · rintro parts _ ⟨g, rfl, hemits, hparts, hhas⟩
    have hshapes : parts.map g.shapeOf = replicate K.count (K.block m C) := by
      refine eq_replicate_iff.2 ⟨by simp [hparts], fun s hs => ?_⟩
      grind [Has.shapeOf_eq]
    have hconcat : Gives P (inferShape .unbounded (.concat m.batch) (parts.map g.shapeOf))
        (m.arrange K.count C K.extent) := by
      rw [hshapes]
      exact .of_ok (inferShape_blocks hm hK.count_pos)
    have hne : parts ≠ [] := by
      rw [hparts]
      simpa using Nat.ne_of_gt hK.count_pos
    refine .bind (after_emit hlim hemits.runnable hw hne (fun part hpart => ⟨_, hhas part hpart⟩)
      hconcat fun f g' hf => ?_)
    have hfresh : f = ⟨ctx.fused.tensors.size + K.count⟩ := by
      rw [hemits.fresh_eq hf, length_map, length_range]
    refine .bind (after_checkShape hf.has ?_)
    have hlate : ctx.fused.tensors.size ≤ f.index := by
      rw [hfresh]
      exact Nat.le_add_right _ _
    refine .bind (.recordNew (h.proportion_new hlate) ?_)
    refine .bind (.recordNew hnew ?_)
    refine .bind (.modify (.pure (hQ f g' ?_ hfresh hf.has)))
    subst hfresh hparts
    exact hemits.snoc hf

end Defusing

/-! ## Masking -/

/-- The state after the cleared form of a tensor has been entered. -/
def withMasked (ctx : Context) (g : Graph) (t f : TensorId) (p : Float) : Context :=
  { ctx with
    fused := g
    proportions := ctx.proportions.record f p
    masked := ctx.masked.record t f
    counters := { ctx.counters with masks := ctx.counters.masks + 1 } }

/-- **Masking** appends the mask and a product to the fused graph. -/
theorem after_buildMasked (h : ctx.Adapts t x m C K.extent K.gap) (hK : ctx.grid.Lays K)
    (hlim : P → ctx.limit = .unbounded) (hx : ctx.fused.Has x (m.arrange 1 C K.size))
    (hnew : ctx.masked.get? t = none) {Q : TensorId → Context → Prop}
    (hQ : ∀ f element g g' c p,
      ctx.fused.Gains g (K.maskSpec m element) (some (element.encode (K.mask m))) none c →
      g.Adds g' .transient (.binary .mul) [x, c] f (m.arrange 1 C K.size) →
      Q f (ctx.withMasked g' t f p)) : After (buildMasked t) ctx Q (Outside P) := by
  have hm := h.valid
  obtain ⟨z, hz, hshape⟩ := id hx
  have hspec : ctx.fused.spec x = .ok z.spec := by
    rw [spec, Table.get_eq_ok.2 hz]
    rfl
  unfold buildMasked
  refine .bind (.get ?_)
  refine .bind (.check_ok h.axisMap ?_)
  refine .bind (.check_ok h.gap_ok ?_)
  refine .bind (.check_ok h.fusedTensor ?_)
  refine .bind (.check_fault hspec ?_)
  refine .bind (.check_fault h.shape ?_)
  refine .bind (.check_fault h.extent_ok ?_)
  rw [hshape]
  refine .bind (.gives_fault (gives_tileMask hK.toTiled hm hlim) ?_)
  refine .bind (.check_fault (foldlM_withDim hm) ?_)
  refine .bind (.onFused (after_createConstant_gains h.runnable rfl
    (byteSize_mask hm _ _ _) hlim) (fun c g hc => ?_) fun e _ hp => ⟨isInternal_ofGraph e, hp⟩)
  have hx₁ : g.Has x (m.arrange 1 C K.size) := hx.grow hc.grows
  have hc₁ : g.Has c (m.arrange 1 1 K.size) := hc.has
  have hproduct : Gives P (inferShape .unbounded (.binary .mul) ([x, c].map g.shapeOf))
      (m.arrange 1 C K.size) := by
    grind [inferShape_masked, Has.shapeOf_eq, Gives.of_ok]
  refine .bind (after_emit hlim hc.runnable rfl (cons_ne_nil _ _) (fun y hy => ?_) hproduct
    fun f g' hf => ?_)
  · grind
  refine .bind (h.after_canvasProportion (hK.tiles ▸ hK.tiles_pos) hlim (by rfl) fun p => ?_)
  have hlate : ctx.fused.tensors.size ≤ f.index := by
    rw [hf.fresh]
    exact Nat.le_of_lt hc.size_lt
  refine .bind (.recordNew (h.proportion_new hlate) ?_)
  refine .bind (.recordNew hnew ?_)
  exact .bind (.modify (.pure (hQ f z.spec.element g g' c p hc hf)))

end Context

end CanvasFusion
