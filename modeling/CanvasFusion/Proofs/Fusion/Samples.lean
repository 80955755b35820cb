import CanvasFusion.Proofs.Eval.Sample
import CanvasFusion.Proofs.Fusion.Preservation
import CanvasFusion.Proofs.Fusion.Rebatching
import CanvasFusion.Proofs.Operator.BatchAxis

/-!
# Graphs for one sample, run on many

A graph whose inputs have room for one sample can be fused for any number of samples. If its
operations treat samples one by one (`PerSample`), cloning succeeds and gives every tensor that
depends on an input the new batch. An operation takes the sample of its operands to the sample of
its output (`ActsPerSample.yields`), so by induction along the working copy each sample of a copy is
the value that the graph computes from that sample alone.
-/

namespace CanvasFusion

open Operator List Option CanvasFusion.Graph Shape Limit

open Value

/-! ## Operations on single samples -/

namespace Graph

/-- What is computed from an input. -/
inductive Dependent (g : Graph) : TensorId → Prop where
  | input {t : TensorId} (ht : t ∈ g.inputs) : Dependent g t
  | written {o : OpId} {op : Operation} {x : TensorId} (hop : g.ops.get? o = some op)
      (hx : x ∈ op.inputs) (h : Dependent g x) : Dependent g op.output

/-- A constant that spreads over the samples of rank-4 tensors with batch `b`. -/
structure SpreadsOver (g : Graph) (b : Nat) (t : TensorId) : Prop where
  constant : t ∈ g.constants
  rank_le : (g.shapeOf t).length ≤ 4
  one : extent (aligned 4 (g.shapeOf t)) b = 1

/-- The operators that treat the samples of batch `b` one by one, on operands for which they do. -/
inductive ActsPerSample (g : Graph) (b : Nat) : Operator → List TensorId → Prop where
  | conv2d {p : Conv2d} {x : TensorId} {params : List TensorId} (hbatch : p.layout.batch = b)
      (hx : g.Dependent x) (hparams : ∀ w ∈ params, w ∈ g.constants) :
      ActsPerSample g b (.conv2d p) (x :: params)
  | pool2d {p : Pool2d} {x : TensorId} (hbatch : p.layout.batch = b) (hx : g.Dependent x) :
      ActsPerSample g b (.pool2d p) [x]
  | pad {p : ConstantPad} {x : TensorId} (hfront : p.front[b]? = some 0)
      (hback : p.back[b]? = some 0)
      (hx : g.Dependent x) : ActsPerSample g b (.pad p) [x]
  | activation {f : Activation} {x : TensorId} (hx : g.Dependent x) :
      ActsPerSample g b (.activation f) [x]
  | binary {kind : BinaryKind} {x y : TensorId} (hsome : g.Dependent x ∨ g.Dependent y)
      (hx : ¬ g.Dependent x → g.SpreadsOver b x) (hy : ¬ g.Dependent y → g.SpreadsOver b y) :
      ActsPerSample g b (.binary kind) [x, y]
  | concat {axis : Nat} {xs : List TensorId} (haxis : axis ≠ b) (hxs : ∀ x ∈ xs, g.Dependent x) :
      ActsPerSample g b (.concat axis) xs

/-- A graph for a single sample: the batch of its inputs has one entry, and its operations treat
samples one by one. -/
structure PerSample (g : Graph) (b : Nat) : Prop where
  inputs : ∀ t ∈ g.inputs, (g.shapeOf t).length = 4 ∧ (g.shapeOf t).extent b = 1
  ops : ∀ {o op}, g.ops.get? o = some op → g.ActsPerSample b op.kind op.inputs
  data : ∀ {t x}, g.tensors.get? t = some x → x.spec.role = .constant → x.data ≠ none

variable {g : Graph} {b M : Nat} {kind : Operator} {xs : List TensorId} {t : TensorId}

theorem Dependent.not_constant (h : g.Dependent t) (hg : g.WellFormed) : t ∉ g.constants := by
  intro ht
  obtain ⟨x, hx, hrole⟩ := mem_constants.1 ht
  cases h with
  | input ht => grind [WellFormed.mem_inputs]
  | written hop _ _ => exact hg.not_source_of_output hop (mem_append_right _ ht)

open Classical in
/-- The shape of a tensor for a batch of `M` samples. -/
noncomputable def shapeFor (g : Graph) (b M : Nat) (t : TensorId) : Shape :=
  if g.Dependent t then (g.shapeOf t).set b M else g.shapeOf t

theorem shapeFor_of_dependent (h : g.Dependent t) : g.shapeFor b M t = (g.shapeOf t).set b M :=
  if_pos h

theorem shapeFor_of_not_dependent (h : ¬ g.Dependent t) : g.shapeFor b M t = g.shapeOf t := if_neg h

theorem shapeFor_of_constant (hg : g.WellFormed) (h : t ∈ g.constants) :
    g.shapeFor b M t = g.shapeOf t := if_neg fun hd => hd.not_constant hg h

namespace ActsPerSample

variable (h : g.ActsPerSample b kind xs)

include h

/-- Something depends on an input. -/
theorem exists_dependent (hne : xs ≠ []) : ∃ x ∈ xs, g.Dependent x := by
  cases h with
  | conv2d _ hx | pool2d _ hx | pad _ _ hx | activation hx => exact ⟨_, mem_cons_self, hx⟩
  | binary hsome => grind
  | concat _ hxs =>
    obtain ⟨x, hx⟩ := exists_mem_of_ne_nil _ hne
    exact ⟨x, hx, hxs x hx⟩

theorem isSupported : kind.isSupported = true := by
  cases h <;> rfl

/-- The copy of an operation has its operator. -/
theorem copiedKind_eq {ctx : Context} {kind' : Operator}
    (hkind : ctx.CopiedKind kind kind') : kind' = kind := by
  rcases hkind with ⟨-, heq⟩ | ⟨target, _, rfl, -, -⟩
  · exact heq
  · cases h

/-- **The shape of the output for any number of samples.** -/
theorem inferShape {lim : Limit} {s : Shape} (hg : g.WellFormed)
    (hM : lim.Holds M) (hrank : ∀ x ∈ xs, g.Dependent x → (g.shapeOf x).length = 4)
    (hs : kind.inferShape lim (xs.map g.shapeOf) = .ok s) :
    s.length = 4 ∧ kind.inferShape lim (xs.map (g.shapeFor b M)) = .ok (s.set b M) := by
  have hs' := inferShape_unbounded hs
  cases h with
  | @conv2d p x params hbatch hx hparams =>
    have hparams' : params.map (g.shapeFor b M) = params.map g.shapeOf :=
      map_congr_left fun w hw => shapeFor_of_constant hg (hparams w hw)
    obtain ⟨_, w, rest, hshapes, -, hconv⟩ := inferShape_conv hs'
    rw [map_cons, hparams', shapeFor_of_dependent hx]
    exact ⟨by rw [hconv.slid.rank_eq, length_set, hconv.rank],
      inferShape_conv_set hbatch hs⟩
  | pool2d hbatch hx =>
    have hpool := inferPool_eq_ok hs'
    rw [map_singleton, shapeFor_of_dependent hx]
    exact ⟨by rw [hpool.slid.rank_eq, hpool.rank], inferPool_set hbatch hs⟩
  | pad hfront hback hx =>
    have hpad := inferPad_eq_ok hs'
    rw [map_singleton, shapeFor_of_dependent hx]
    exact ⟨by rw [hpad.rank_eq, hrank _ mem_cons_self hx],
      inferPad_set hfront hback hM hs⟩
  | activation hx =>
    rw [map_singleton, shapeFor_of_dependent hx]
    cases hs
    exact ⟨hrank _ mem_cons_self hx, rfl⟩
  | @binary kind x y hsome hx hy =>
    have hs : broadcast (g.shapeOf x) (g.shapeOf y) = .ok s := hs
    have hlen := (broadcast_eq_ok_iff.1 hs).1
    suffices hset : s.length = 4 ∧ broadcast (g.shapeFor b M x) (g.shapeFor b M y) =
        .ok (s.set b M) from hset
    by_cases hdx : g.Dependent x
    · have hx4 := hrank x mem_cons_self hdx
      rw [shapeFor_of_dependent hdx]
      by_cases hdy : g.Dependent y
      · grind [shapeFor_of_dependent, broadcast_set]
      grind [shapeFor_of_not_dependent, broadcast_set_left, SpreadsOver.rank_le, SpreadsOver.one]
    grind [shapeFor_of_dependent, shapeFor_of_not_dependent, broadcast_set_right,
      SpreadsOver.rank_le, SpreadsOver.one]
  | @concat axis xs haxis hxs =>
    have hmap : xs.map (g.shapeFor b M) = (xs.map g.shapeOf).map fun s => s.set b M := by
      rw [List.map_map]
      exact map_congr_left fun x hx => shapeFor_of_dependent (hxs x hx)
    rw [hmap]
    cases xs with
    | nil => cases hs
    | cons x rest =>
      have hconcat : ConcatShape axis (g.shapeOf x) ((x :: rest).map g.shapeOf) s :=
        inferConcat_eq_ok hs'
      refine ⟨?_, inferConcat_set haxis.symm hs⟩
      rw [hconcat.shape_eq, length_set, hrank x mem_cons_self (hxs x mem_cons_self)]

end ActsPerSample

theorem PerSample.dependent_output (h : g.PerSample b) (hg : g.WellFormed) {o : OpId}
    {op : Operation} (hop : g.ops.get? o = some op) : g.Dependent op.output := by
  obtain ⟨x, hx, hdep⟩ := (h.ops hop).exists_dependent (hg.inputs_ne_nil hop)
  exact .written hop hx hdep

/-- With one sample, a shape is as it was. -/
theorem shapeFor_one (h : g.Dependent t → (g.shapeOf t).extent b = 1) :
    g.shapeFor b 1 t = g.shapeOf t := by
  grind [shapeFor_of_dependent, set_of_extent_eq, shapeFor_of_not_dependent]

end Graph

/-! ## Cloning for any number of samples -/

theorem Grid.holds_count {lim : Limit} {n : Nat} {grid : Grid} (h : Grid.ofCount lim n = .ok grid) :
    lim.Holds grid.count := by
  unfold Grid.ofCount closestFactors at h
  simp only [bind_eq_ok] at h
  obtain ⟨tiles, ⟨square, hsquare, htiles⟩, h⟩ := h
  cases htiles
  cases h
  have hle : max n 1 ≤ ((max n 1).sqrt + 1) * ((max n 1).sqrt + 1) := (Nat.lt_succ_sqrt _).le
  unfold mul check at hsquare
  split_ifs at hsquare with hholds
  exact Holds.of_le hholds hle

namespace Context

variable {source : Graph} {ctx₀ ctx : Context} {t c : TensorId}

/-- How a tensor of a graph for a single sample is copied. -/
structure ResizedAs (ctx₀ ctx : Context) (t c : TensorId) : Prop where
  origin : ctx₀.source.Dependent t ∨ t ∈ ctx₀.source.constants
  shape : ctx.cloned.shapeOf c = ctx₀.source.shapeFor ctx₀.axes.batch ctx₀.grid.count t
  single : ctx₀.source.Dependent t →
    (ctx₀.source.shapeOf t).length = 4 ∧ (ctx₀.source.shapeOf t).extent ctx₀.axes.batch = 1

section Resizing

variable (hsource : ctx₀.source.WellFormed) (hsingle : ctx₀.source.PerSample ctx₀.axes.batch)
  (h : Copying ctx₀ ctx)

include hsource hsingle h

/-- **The copy of a tensor that depends on an input has the new batch.** -/
theorem Copying.resizedAs (haxes : ctx₀.axes.Valid) (ht : ctx.cloneOf.get? t = some c) :
    ResizedAs ctx₀ ctx t c := by
  have hsrc : ctx.source = ctx₀.source := by rw [h.frame]
  induction c using Handle.induction generalizing t with
  | _ c ih =>
    cases h.copied ht with
    | @input x y hx hrole hy hspec hdata =>
      rw [hsrc] at hx
      have hmem := hsource.mem_inputs.2 ⟨x, hx, hrole⟩
      have hin := hsingle.inputs t hmem
      refine ⟨.inl (.input hmem), ?_, fun _ => hin⟩
      rw [h.input_shape hsource hmem ht, inputShape, if_pos hin.1,
        shapeFor_of_dependent (.input hmem)]
    | @constant x y hx hrole hy hspec hdata _ =>
      rw [hsrc] at hx
      have hmem := mem_constants.2 ⟨x, hx, hrole⟩
      refine ⟨.inr hmem, ?_, fun hdep => absurd hmem (hdep.not_constant hsource)⟩
      rw [shapeFor_of_constant hsource hmem, shapeOf_eq hy, hspec, shapeOf_eq hx]
    | @written o o' op op' hop hout _ hop' hout' hkind hinputs _ _ _ _ _ =>
      rw [hsrc] at hop
      subst hout hout'
      have hacts := hsingle.ops hop
      have hdep := hsingle.dependent_output hsource hop
      have hin : ∀ x ∈ op.inputs, ∃ y, ResizedAs ctx₀ ctx x y := by
        intro x hx
        obtain ⟨y, hy, hxy⟩ := forall₂_left_mem hinputs hx
        exact ⟨y, ih _ (h.sequential.input_lt hop' hy) hxy⟩
      have hrank : ∀ x ∈ op.inputs, ctx₀.source.Dependent x → (ctx₀.source.shapeOf x).length = 4 :=
        fun x hx hdx => ((hin x hx).choose_spec.single hdx).1
      have hshapes : op.inputs.map (ctx₀.source.shapeFor ctx₀.axes.batch ctx₀.grid.count) =
          op'.inputs.map ctx.cloned.shapeOf :=
        map_eq_map_of_forall₂ hinputs fun x y _ hy hxy =>
          (ih _ (h.sequential.input_lt hop' hy) hxy).shape.symm
      have hs := hsource.op_shape hop
      obtain ⟨hlen, hresized⟩ := hacts.inferShape (M := ctx₀.grid.count) hsource
        (holds_unbounded _) hrank hs
      refine ⟨.inl hdep, ?_, fun _ => ⟨hlen, ?_⟩⟩
      · have hs' := h.wellFormed.op_shape hop'
        rw [hacts.copiedKind_eq hkind, ← hshapes, hresized] at hs'
        rw [shapeFor_of_dependent hdep]
        exact (Except.ok.inj hs').symm
      · -- One sample is no new batch, so the output keeps its shape.
        obtain ⟨-, hone⟩ := hacts.inferShape (M := 1) hsource (holds_unbounded _) hrank hs
        rw [map_congr_left fun x hx =>
          shapeFor_one fun hdx => ((hin x hx).choose_spec.single hdx).2, hs] at hone
        rw [Except.ok.inj hone, extent_set_self (hlen ▸ haxes.batch_lt)]

omit h in
/-- **Everything can be copied**, for any number of samples within the limit. -/
theorem copyable_of_perSample (haxes : ctx₀.axes.Valid) (hchecked : ctx₀.source.Checked ctx₀.limit)
    (hcount : ctx₀.limit.Holds ctx₀.grid.count) : ctx₀.Copyable where
  data {t x} hx hrole := by
    obtain ⟨bytes, hbytes⟩ := ne_none_iff_exists'.1 (hsingle.data hx hrole)
    exact ⟨bytes, hbytes, hchecked.data hx hbytes⟩
  infers {ctx o op kind inputs} h hop hkind hinputs := by
    have hacts := hsingle.ops hop
    have hresized : ∀ {x y}, ctx.cloneOf.get? x = some y → ResizedAs ctx₀ ctx x y := fun hxy =>
      h.resizedAs hsource hsingle haxes hxy
    have hshapes : op.inputs.map (ctx₀.source.shapeFor ctx₀.axes.batch ctx₀.grid.count) =
        inputs.map ctx.cloned.shapeOf :=
      map_eq_map_of_forall₂ hinputs fun x y _ _ hxy => (hresized hxy).shape.symm
    rw [hacts.copiedKind_eq hkind, ← hshapes]
    refine ⟨_, (hacts.inferShape hsource hcount (fun x hx hdx => ?_) (hchecked.op hop)).2⟩
    obtain ⟨y, -, hxy⟩ := forall₂_left_mem hinputs hx
    exact ((hresized hxy).single hdx).1

end Resizing

end Context

/-! ## Values for single samples -/

namespace Graph

variable {α : Type} [Scalar α] {g : Graph} {b n N : Nat} {kind : Operator} {xs : List TensorId}
  {t : TensorId} {v y : Value α}

open Classical in
/-- What is left of the value of a tensor for a single sample. -/
noncomputable def sampled (g : Graph) (b n : Nat) (t : TensorId) (v : Value α) : Value α :=
  if g.Dependent t then v.sample b n else v

theorem sampled_of_dependent (h : g.Dependent t) : g.sampled b n t v = v.sample b n := if_pos h

theorem sampled_of_not_dependent (h : ¬ g.Dependent t) : g.sampled b n t v = v := if_neg h

theorem full_sampled (hv : v.Full) : (g.sampled b n t v).Full := by
  by_cases h : g.Dependent t
  · rw [sampled_of_dependent h]
    exact full_sample
  · rwa [sampled_of_not_dependent h]

theorem shape_sampled (hshape : v.shape = g.shapeFor b N t)
    (hone : g.Dependent t → (g.shapeOf t).extent b = 1) :
    (g.sampled b n t v).shape = g.shapeOf t := by
  by_cases h : g.Dependent t
  · grind [shapeFor_of_dependent, sampled_of_dependent, sample, ofFn_shape, set_set,
      set_of_extent_eq]
  · rw [sampled_of_not_dependent h, hshape, shapeFor_of_not_dependent h]

/-- **An operation takes samples of its operands to the sample of its output.** -/
theorem ActsPerSample.yields {U : TensorId → Value α} {s : Shape} (h : g.ActsPerSample b kind xs)
    (hg : g.WellFormed) (hb : b < 4) (hn : n < N) (hfull : ∀ x ∈ xs, (U x).Full)
    (hshape : ∀ x ∈ xs, (U x).shape = g.shapeFor b N x)
    (hsingle : ∀ x ∈ xs, g.Dependent x → (g.shapeOf x).length = 4 ∧ (g.shapeOf x).extent b = 1)
    (hs : kind.inferShape .unbounded (xs.map g.shapeOf) = .ok s)
    (hout : s.length = 4 ∧ s.extent b = 1) (hy : kind.Yields (xs.map U) y)
    (hys : y.shape = s.set b N) :
    kind.Yields (xs.map fun x => g.sampled b n x (U x)) (y.sample b n) := by
  have hrank : ∀ x ∈ xs, g.Dependent x → (U x).shape.length = 4 := fun x hx hdx => by
    rw [hshape x hx, shapeFor_of_dependent hdx, length_set, (hsingle x hx hdx).1]
  have hextent : ∀ x ∈ xs, g.Dependent x → n < (U x).shape.extent b := fun x hx hdx => by
    rw [hshape x hx, shapeFor_of_dependent hdx,
      extent_set_self ((hsingle x hx hdx).1.symm ▸ hb)]
    exact hn
  have hny : n < y.shape.extent b := by
    rw [hys, extent_set_self (hout.1.symm ▸ hb)]
    exact hn
  have hfull' : ∀ v ∈ xs.map U, v.Full := by grind
  have hsampled : ∀ v ∈ xs.map fun x => g.sampled b n x (U x), v.Full := by
    grind [full_sampled]
  have hshapes : (xs.map fun x => g.sampled b n x (U x)).map (·.shape) = xs.map g.shapeOf := by
    rw [List.map_map]
    exact map_congr_left fun x hx =>
      shape_sampled (hshape x hx) fun hdx => (hsingle x hx hdx).2
  obtain ⟨y', hy', hys', -⟩ := exists_yields hsampled (hshapes.symm ▸ hs)
  have hresized : y'.shape = y.shape.set b 1 := by rw [hys', hys, set_set, set_of_extent_eq hout.2]
  suffices heq : y' = y.sample b n from heq ▸ hy'
  cases h with
  | @conv2d p x params hbatch hx hparams =>
    have hparams' : (params.map fun w => g.sampled b n w (U w)) = params.map U :=
      map_congr_left fun w hw =>
        sampled_of_not_dependent fun hdw => hdw.not_constant hg (hparams w hw)
    rw [map_cons, hparams', sampled_of_dependent hx] at hy'
    obtain ⟨_, _, _, hshapes', -, -⟩ := inferShape_conv hs
    obtain ⟨w, rest, rfl, -, -⟩ := map_eq_cons_iff.1 (cons.inj hshapes').2
    exact sample_conv hbatch hny hfull' hy hy' hresized
  | @pool2d p x hbatch hx => grind [sampled_of_dependent, sample_pool]
  | @pad p x hfront hback hx =>
    grind [sampled_of_dependent, sample_pad]
  | @activation f x hx =>
    grind [sampled_of_dependent, sample_activation]
  | @binary kind x z hsome hx hz =>
    have hoperand : ∀ u ∈ [x, z], (¬ g.Dependent u → g.SpreadsOver b u) →
        OperandSample b n y.shape.length (U u) (g.sampled b n u (U u)) := by
      intro u hu hspread
      rw [hys, length_set, hout.1]
      by_cases hdu : g.Dependent u
      · rw [sampled_of_dependent hdu]
        exact .sample (hrank u hu hdu) (hextent u hu hdu)
      · rw [sampled_of_not_dependent hdu]
        have hsu := hshape u hu
        rw [shapeFor_of_not_dependent hdu] at hsu
        exact .fixed (hsu ▸ (hspread hdu).rank_le) (hsu ▸ (hspread hdu).one)
    grind [sample_binary]
  | @concat axis xs haxis hxs =>
    have hmap : (xs.map fun x => g.sampled b n x (U x)) = (xs.map U).map (sample b n) := by
      rw [List.map_map]
      exact map_congr_left fun x hx => sampled_of_dependent (hxs x hx)
    grind [sample_concat]

end Graph

namespace Context

variable {α : Type} [Scalar α] {ctx₀ ctx : Context} {t c : TensorId} {n : Nat}
  {V : TensorId → Value α}

/-- **A sample of a copy is what the source computes from that sample.** -/
theorem Copying.denotes_sampled (h : Copying ctx₀ ctx) (hsource : ctx₀.source.WellFormed)
    (hsingle : ctx₀.source.PerSample ctx₀.axes.batch) (haxes : ctx₀.axes.Valid)
    (hV : ctx.cloned.Models V) (hn : n < ctx₀.grid.count) {fed : TensorId → Option (Array α)}
    (hfed : ∀ t ∈ ctx₀.source.inputs, ∀ c, ctx.cloneOf.get? t = some c →
      fed t = some ((V c).sample ctx₀.axes.batch n).data)
    (ht : ctx.cloneOf.get? t = some c) :
    ctx₀.source.Denotes fed t (ctx₀.source.sampled ctx₀.axes.batch n t (V c)) := by
  have hsrc : ctx.source = ctx₀.source := by rw [h.frame]
  have hresized : ∀ {t c}, ctx.cloneOf.get? t = some c → ResizedAs ctx₀ ctx t c := fun ht =>
    h.resizedAs hsource hsingle haxes ht
  have hvalue : ∀ {t c}, ctx.cloneOf.get? t = some c →
      (V c).Full ∧ (V c).shape = ctx₀.source.shapeFor ctx₀.axes.batch ctx₀.grid.count t := by
    intro t c ht
    obtain ⟨y, hy⟩ := (h.copied ht).known h.wellFormed
    exact ⟨hV.full hy, (hV.shape hy).trans (hresized ht).shape⟩
  induction c using Handle.induction generalizing t with
  | _ c ih =>
    have hshape := shape_sampled (n := n) (hvalue ht).2 fun hdep => ((hresized ht).single hdep).2
    cases h.copied ht with
    | @input x y hx hrole hy hspec hdata =>
      rw [hsrc] at hx
      have hmem := hsource.mem_inputs.2 ⟨x, hx, hrole⟩
      rw [shapeOf_eq hx, sampled_of_dependent (.input hmem)] at hshape
      rw [sampled_of_dependent (.input hmem)]
      have hsize : ((V c).sample ctx₀.axes.batch n).data.size = x.spec.shape.prod :=
        full_sample.trans (congrArg prod hshape)
      have heq : Value.mk x.spec.shape ((V c).sample ctx₀.axes.batch n).data =
          (V c).sample ctx₀.axes.batch n := eq_of_data hshape.symm rfl
      exact heq ▸ .input hx hrole (hfed t hmem c ht) hsize
    | @constant x y hx hrole hy hspec hdata _ =>
      rw [hsrc] at hx
      have hmem := mem_constants.2 ⟨x, hx, hrole⟩
      rw [sampled_of_not_dependent fun hdep => hdep.not_constant hsource hmem]
      obtain ⟨bytes, hbytes⟩ := ne_none_iff_exists'.1 (hsingle.data hx hrole)
      obtain ⟨bytes', zs, hbytes', hzs, hlen, heq⟩ := hV.constant hy (by rw [hspec, hrole])
      rw [hdata, hbytes, getD_some, some_inj] at hbytes'
      subst hbytes'
      exact .constant hx hrole ⟨bytes, zs, hbytes, hspec ▸ hzs, hspec ▸ hlen, hspec ▸ heq⟩
    | @written o o' op op' hop hout _ hop' hout' hkind hinputs _ _ _ _ _ =>
      rw [hsrc] at hop
      subst hout hout'
      have hacts := hsingle.ops hop
      have hdep := hsingle.dependent_output hsource hop
      -- The values of the copies, as values of what they are copies of.
      let U : TensorId → Value α := fun x => V ((ctx.cloneOf.get? x).getD op'.output)
      have hU : ∀ {x y}, ctx.cloneOf.get? x = some y → U x = V y := fun hxy => by
        simp only [U, hxy, getD_some]
      have hcopies : ∀ x ∈ op.inputs, ∃ y ∈ op'.inputs, ctx.cloneOf.get? x = some y := fun x hx =>
        forall₂_left_mem hinputs hx
      have hyields := hV.yields h.wellFormed hop'
      rw [hacts.copiedKind_eq hkind, ← map_eq_map_of_forall₂ (f := U) hinputs
        fun x y _ _ hxy => hU hxy] at hyields
      have hin : ∀ x ∈ op.inputs, ResizedAs ctx₀ ctx x ((ctx.cloneOf.get? x).getD op'.output) ∧
          (U x).Full ∧ (U x).shape =
            ctx₀.source.shapeFor ctx₀.axes.batch ctx₀.grid.count x := fun x hx => by
        grind
      have hsampled := hacts.yields hsource haxes.batch_lt hn (fun x hx => (hin x hx).2.1)
        (fun x hx => (hin x hx).2.2) (fun x hx => (hin x hx).1.single) (hsource.op_shape hop)
        ((hresized ht).single hdep) hyields
        ((hvalue ht).2.trans (shapeFor_of_dependent hdep))
      rw [sampled_of_dependent hdep] at hshape ⊢
      have hdata := hsampled.data
      rw [hshape] at hdata
      have heq : Value.mk (ctx₀.source.shapeOf op.output)
          ((V op'.output).sample ctx₀.axes.batch n).data =
          (V op'.output).sample ctx₀.axes.batch n :=
        eq_of_data hshape.symm rfl
      refine heq ▸ .computed hop (fun x hx => ?_) hdata
        (full_sample.trans (congrArg prod hshape))
      obtain ⟨y, hy, hxy⟩ := hcopies x hx
      rw [hU hxy]
      exact ih _ (h.sequential.input_lt hop' hy) hxy

end Context

/-! ## Feeding samples -/

/-- Data of `N` samples for each input. -/
structure Graph.FedSamples {α : Type} (g : Graph) (b N : Nat) (feeds : List (TensorId × Array α)) :
    Prop where
  fits : ∀ p ∈ feeds, p.1 ∈ g.inputs ∧ p.2.size = List.prod ((g.shapeOf p.1).set b N)
  inputs : ∀ t ∈ g.inputs, fedData feeds t ≠ none

/-- The data of one sample out of `N`. -/
def Graph.sampleFeeds {α : Type} [Scalar α] (g : Graph) (b N n : Nat)
    (feeds : List (TensorId × Array α)) : List (TensorId × Array α) :=
  feeds.map fun p => (p.1, (sample b n ⟨(g.shapeOf p.1).set b N, p.2⟩).data)

theorem fedData_map {α β : Type} (f : TensorId → Array α → Array β)
    (feeds : List (TensorId × Array α)) (t : TensorId) :
    fedData (feeds.map fun p => (p.1, f p.1 p.2)) t = (fedData feeds t).map (f t) := by
  induction feeds using reverseRecOn with
  | nil => rfl
  | append_singleton feeds p ih => grind [fedData_append]

/-- The value `w` has as its sample `n` what the graph has for the tensor `t` on that sample
alone. -/
structure Graph.HoldsSample {α : Type} [Scalar α] (g : Graph) (b N n : Nat)
    (feeds : List (TensorId × Array α)) (t : TensorId) (w : Value α) : Prop where
  shape : w.shape = (g.shapeOf t).set b N
  denotes : g.Denotes (fedData (g.sampleFeeds b N n feeds)) t (w.sample b n)
  evaluated : ∀ values, evaluate .unbounded g (g.sampleFeeds b N n feeds) = .ok values →
    values.get? t = some (w.sample b n)

section Feeding

variable {α : Type} [Scalar α] {g : Graph} {b N n : Nat} {feeds : List (TensorId × Array α)}

/-- The data of one sample fit a graph for a single sample. -/
theorem Graph.FedSamples.fits_sample (h : g.FedSamples b N feeds) (hg : g.WellFormed)
    (hsingle : g.PerSample b) : ∀ p ∈ g.sampleFeeds b N n feeds, Fits g p := by
  intro p hp
  obtain ⟨q, hq, rfl⟩ := mem_map.1 hp
  obtain ⟨hin, -⟩ := h.fits q hq
  obtain ⟨x, hx, -⟩ := hg.mem_inputs.1 hin
  refine ⟨x, hx, full_sample.trans ?_⟩
  rw [sample, ofFn_shape, set_set, set_of_extent_eq (hsingle.inputs _ hin).2,
    shapeOf_eq hx]

end Feeding

namespace Context

variable {α : Type} [Scalar α] {ctx₀ ctx ctx₁ ctx₂ ctx₃ : Context} {r : Fused} {P : Prop}

variable (h : Run P ctx₀ ctx₁ ctx₂ ctx₃) (hend : Collected ctx₃ ctx r)
  (hsource : ctx₀.source.WellFormed)

include h hend hsource

/-- An output that can be computed has a fused tensor. -/
theorem Run.exists_output {t : TensorId} (ht : t ∈ ctx₀.source.outputs)
    (hcomp : ctx₀.source.Computable t) : ∃ f, r.io.get? t = some f := by
  obtain ⟨c, hc⟩ := ne_none_iff_exists'.1 (h.cloned.computable_iff.2 hcomp)
  grind [outputOf?_eq_some, cloneOf_eq, Collected.output, source_eq]

variable [LawfulScalar α] (hsingle : ctx₀.source.PerSample ctx₀.axes.batch)
  (haxes : ctx₀.axes.Valid) {feeds : List (TensorId × Array α)}
  (hfeeds : ctx₀.source.FedSamples ctx₀.axes.batch ctx₀.grid.count feeds)

include hsingle haxes hfeeds

/-- The working copy has values for all samples at once, which the fused graph has as well. -/
theorem Run.evaluates_samples :
    ∃ (values : Values α) (V : TensorId → Value α),
      evaluate .unbounded r.graph (r.feeds feeds) = .ok values ∧ ctx₁.cloned.Models V ∧
      (∀ t ∈ ctx₀.source.inputs, ∀ c, ctx₁.cloneOf.get? t = some c →
        fedData feeds t = some (V c).data) ∧
      ∀ t ∈ ctx₀.source.outputs, ∀ f, r.io.get? t = some f →
        ∃ c, ctx₁.cloneOf.get? t = some c ∧ values.get? f = some (V c) := by
  have hcopying := h.cloned.copying
  have hsize : ∀ t ∈ ctx₀.source.inputs, ∀ c, ctx₁.cloneOf.get? t = some c →
      ctx₁.cloned.shapeOf c = (ctx₀.source.shapeOf t).set ctx₀.axes.batch ctx₀.grid.count := by
    intro t ht c hc
    rw [(hcopying.resizedAs hsource hsingle haxes hc).shape, shapeFor_of_dependent (.input ht)]
  -- What is fed for a tensor is fed for its copy.
  have hexists : ∀ c, ∃ data, ∀ t, ctx₁.cloneOf.get? t = some c → data = fedData feeds t := by
    intro c
    by_cases hc : ∃ t, ctx₁.cloneOf.get? t = some c
    · obtain ⟨t, ht⟩ := hc
      exact ⟨fedData feeds t, fun t' ht' => by rw [hcopying.injective ht ht']⟩
    · exact ⟨none, fun t ht => absurd ⟨t, ht⟩ hc⟩
  choose fed hfed using hexists
  have hrunnable : ctx₁.cloned.Runnable :=
    ⟨hcopying.wellFormed, hcopying.sequential, hcopying.stocked⟩
  have hinputs : ∀ c ∈ ctx₁.cloned.inputs,
      ∃ t ∈ ctx₀.source.inputs, ctx₁.cloneOf.get? t = some c := by
    intro c hc
    obtain ⟨t, ht, hct⟩ := h.exists_input hsource (h.cloned_eq ▸ hc)
    exact ⟨t, ht, h.cloneOf_eq ▸ hct⟩
  have hdata : ∀ c ∈ ctx₁.cloned.inputs, ∃ data, fed c = some data ∧
      data.size = (ctx₁.cloned.shapeOf c).prod := by
    intro c hc
    obtain ⟨t, ht, hct⟩ := hinputs c hc
    obtain ⟨data, hdata⟩ := ne_none_iff_exists'.1 (hfeeds.inputs t ht)
    refine ⟨data, (hfed c t hct).trans hdata, ?_⟩
    rw [hsize t ht c hct]
    exact (hfeeds.fits _ (mem_of_fedData hdata)).2
  obtain ⟨V, hV, -, hfedV⟩ := hrunnable.exists_models hdata
  have hfed' : ∀ t ∈ ctx₀.source.inputs, ∀ c, ctx₁.cloneOf.get? t = some c →
      fedData feeds t = some (V c).data := by
    intro t ht c hc
    obtain ⟨z, hz, hrole⟩ := h.clone_input hsource ht (h.cloneOf_eq.symm ▸ hc)
    rw [h.cloned_eq] at hz
    rw [← hfed c t hc]
    exact hfedV c (hcopying.wellFormed.mem_inputs.2 ⟨z, hz, hrole⟩)
  have hemitting := h.emitted.emitting
  have hfits : ∀ p ∈ feeds, ∀ c, ctx₃.cloneOf.get? p.1 = some c →
      p.2.size = (ctx₃.cloned.shapeOf c).prod := by
    intro p hp c hc
    grind [FedSamples.fits, cloned_eq, cloneOf_eq]
  obtain ⟨values, W, heval, hW, hheld, hsim⟩ := h.evaluates hend hsource (h.cloned_eq.symm ▸ hV)
    (fun W hW => hemitting.sealed_of_lawful hW) hfits
    fun t ht c hc => hfed' t ht c (h.cloneOf_eq ▸ hc)
  refine ⟨values, V, heval, hV, hfed', fun t ht f hf => ?_⟩
  obtain ⟨c, hc, hbatched⟩ := h.io_batched hend hsource (mem_append_right _ ht) hf
  refine ⟨c, h.cloneOf_eq ▸ hc, ?_⟩
  rw [hheld (hemitting.has_of_batchedAs hbatched), hbatched.value_eq hemitting hW hsim]

/-- **A run on many samples** does to each of them what the source does. -/
theorem Run.outputs_sampled :
    ∃ values, evaluate .unbounded r.graph (r.feeds feeds) = .ok values ∧ ∀ n < ctx₀.grid.count,
      (∀ t ∈ ctx₀.source.outputs, ctx₀.source.Computable t → ∃ f w, r.io.get? t = some f ∧
        values.get? f = some w ∧
        ctx₀.source.HoldsSample ctx₀.axes.batch ctx₀.grid.count n feeds t w) ∧
      ((∀ o op, ctx₀.source.ops.get? o = some op → ∀ x ∈ op.inputs, ctx₀.source.Computable x) →
        ∃ values₁, evaluate .unbounded ctx₀.source
          (ctx₀.source.sampleFeeds ctx₀.axes.batch ctx₀.grid.count n feeds) = .ok values₁) := by
  have hcopying := h.cloned.copying
  obtain ⟨values, V, heval, hV, hfed, hout⟩ :=
    h.evaluates_samples hend hsource hsingle haxes hfeeds
  refine ⟨values, heval, fun n hn => ?_⟩
  have hshape : ∀ {t c}, ctx₁.cloneOf.get? t = some c →
      (V c).shape = ctx₀.source.shapeFor ctx₀.axes.batch ctx₀.grid.count t := by
    intro t c hc
    obtain ⟨y, hy⟩ := (hcopying.copied hc).known hcopying.wellFormed
    exact (hV.shape hy).trans (hcopying.resizedAs hsource hsingle haxes hc).shape
  have hden : ∀ {t c}, ctx₁.cloneOf.get? t = some c → ctx₀.source.Denotes
      (fedData (ctx₀.source.sampleFeeds ctx₀.axes.batch ctx₀.grid.count n feeds)) t
      (ctx₀.source.sampled ctx₀.axes.batch n t (V c)) := by
    refine fun hc => hcopying.denotes_sampled hsource hsingle haxes hV hn (fun t ht c hc => ?_) hc
    rw [sampleFeeds, fedData_map fun t data =>
      (sample ctx₀.axes.batch n ⟨(ctx₀.source.shapeOf t).set ctx₀.axes.batch ctx₀.grid.count,
        data⟩).data, hfed t ht c hc]
    have hshape := hshape hc
    rw [shapeFor_of_dependent (.input ht)] at hshape
    exact congrArg some (congrArg (fun v => (sample ctx₀.axes.batch n v).data)
      (eq_of_data hshape.symm rfl))
  refine ⟨fun t ht hcomp => ?_, fun hready => ?_⟩
  · obtain ⟨f, hf⟩ := h.exists_output hend hsource ht hcomp
    obtain ⟨c, hc, hw⟩ := hout t ht f hf
    have hdep : ctx₀.source.Dependent t := by
      refine (hcopying.resizedAs hsource hsingle haxes hc).origin.resolve_right fun hconst => ?_
      grind [mem_constants, WellFormed.mem_outputs]
    have hshape := hshape hc
    have hden := hden hc
    rw [shapeFor_of_dependent hdep] at hshape
    rw [sampled_of_dependent hdep] at hden
    exact ⟨f, V c, hf, hw, hshape, hden, fun values₁ heval₁ => hden.held hsource heval₁⟩
  · have hall : ∀ t, ctx₀.source.Computable t → ∃ v : Value α, ctx₀.source.Denotes
        (fedData (ctx₀.source.sampleFeeds ctx₀.axes.batch ctx₀.grid.count n feeds)) t v := by
      intro t ht
      obtain ⟨c, hc⟩ := ne_none_iff_exists'.1 (h.cloned.computable_iff.2 ht)
      exact ⟨_, hden hc⟩
    obtain ⟨values₁, heval₁, -⟩ := evaluate_complete hsource (hfeeds.fits_sample hsource hsingle)
      (fun _ _ _ hdata => hdata) (fun t ht => hall t (.source ht)) fun o op hop =>
        hall _ (.of_supported hop (hsingle.ops hop).isSupported (hready o op hop))
    exact ⟨values₁, heval₁⟩

end Context

open Context

/-! ## Main result -/

/-- **Re-batching is equivariant.** Take a source for a single sample whose operations treat samples
one by one, and ask for `N` samples. Cloning succeeds: it copies every tensor that can be computed,
and the copy of one that depends on an input has its shape with `N` samples. (What an operation on a
cycle writes can never be computed and has no copy.) If the pass succeeds then, with exact scalars
and on data of `N` samples, the fused graph evaluates, and each sample of an output is the value
that the source has for it on this sample alone. The source evaluates on a single sample if what its
operations read can be computed. -/
theorem fuse_rebatching_equivariant {lim : Limit} {calls : List Graph.Call}
    {options : Options} {N : Nat} (hN : 1 ≤ N) (htiles : options.tileCount = some N)
    (hsingle : (Graph.build lim calls).PerSample options.axes.batch) :
    let source := Graph.build lim calls
    let b := options.axes.batch
    (∀ ctx₀, Context.initial lim source options = .ok ctx₀ →
      ∃ ctx, Pass.cloneSource.run ctx₀ = (.ok (), ctx) ∧
        (∀ t, source.Computable t → ctx.cloneOf.get? t ≠ none) ∧
        ∀ t c, source.Dependent t → ctx.cloneOf.get? t = some c →
          ctx.cloned.shapeOf c = (source.shapeOf t).set b N) ∧
    ∀ r, fuse lim options source = .ok r → ∀ (T : Transcendental)
      (feeds : List (TensorId × Array (Exact T))), source.FedSamples b N feeds →
      ∃ values, evaluate .unbounded r.graph (r.feeds feeds) = .ok values ∧ ∀ n < N,
        (∀ t ∈ source.outputs, source.Computable t → ∃ f w, r.io.get? t = some f ∧
          values.get? f = some w ∧ source.HoldsSample b N n feeds t w) ∧
        ((∀ o op, source.ops.get? o = some op → ∀ x ∈ op.inputs, source.Computable x) →
          ∃ values₁, evaluate .unbounded source (source.sampleFeeds b N n feeds) =
          .ok values₁) := by
  intro source b
  have hsource : source.WellFormed := Graph.wellFormed_build lim calls
  have hchecked : source.Checked lim := Graph.checked_build lim calls
  have hcount : ∀ {ctx₀}, Starts lim source options ctx₀ →
      ctx₀.grid.count = N ∧ lim.Holds ctx₀.grid.count := by
    intro ctx₀ h₀
    obtain ⟨m, hm, hgrid⟩ := h₀.count
    rw [sampleCount, htiles] at hm
    cases hm
    exact ⟨by rw [(Grid.ofCount_spec hgrid).1]; omega, Grid.holds_count hgrid⟩
  have hsingle₀ : ∀ {ctx₀}, Starts lim source options ctx₀ →
      ctx₀.source.PerSample ctx₀.axes.batch := fun h₀ => by
    rw [h₀.source_eq, h₀.axes_eq]
    exact hsingle
  refine ⟨fun ctx₀ hinit => ?_, fun r hr T feeds hfeeds => ?_⟩
  · have h₀ := starts_of_initial hinit
    obtain ⟨hN₀, hholds⟩ := hcount h₀
    have hsource₀ : ctx₀.source.WellFormed := h₀.source_eq ▸ hsource
    have hcopyable : ctx₀.Copyable := copyable_of_perSample hsource₀ (hsingle₀ h₀) h₀.axes
      (by rw [h₀.source_eq, h₀.limit]; exact hchecked) (by rw [h₀.limit]; exact hholds)
    rcases (after_cloneSource (P := True) h₀ hsource₀ fun _ => hcopyable).run_cases with
      ⟨_, ctx, hrun, hcloned⟩ | ⟨e, ctx, -, hfail⟩
    · refine ⟨ctx, hrun, fun t ht => ?_, fun t c hdep hc => ?_⟩
      · rw [← h₀.source_eq] at ht
        exact hcloned.computable_iff.2 ht
      · have hresized := hcloned.copying.resizedAs hsource₀ (hsingle₀ h₀) h₀.axes hc
        rw [hresized.shape, h₀.source_eq, Graph.shapeFor_of_dependent hdep, h₀.axes_eq, hN₀]
    · exact absurd trivial hfail.2
  · obtain ⟨ctx₀, ctx₁, ctx₂, ctx₃, ctx, -, -, h₀, hphases, hend⟩ := exists_run hsource hr
    have hfeeds₀ : ctx₀.source.FedSamples ctx₀.axes.batch ctx₀.grid.count feeds := by
      rw [h₀.source_eq, h₀.axes_eq, (hcount h₀).1]
      exact hfeeds
    have houtputs :=
      hphases.outputs_sampled hend (h₀.source_eq ▸ hsource) (hsingle₀ h₀) h₀.axes hfeeds₀
    rw [h₀.source_eq, h₀.axes_eq, (hcount h₀).1] at houtputs
    exact houtputs

/-- A pooling of pairs of neighbours. -/
def pairs : Operator := .pool2d ⟨.max, ⟨1, 2⟩, ⟨1, 1⟩, .both ⟨0, 0⟩, .nchw⟩

/-- A single sample, pooled and then shifted by a constant. -/
def shiftedPool : List Graph.Call :=
  [.createTensor ⟨.f32, [1, 1, 1, 3], .input, none⟩,
    .createConstant ⟨.f32, [1], .constant, none⟩ [0, 0, 128, 63],
    .emit pairs [⟨0⟩] .transient, .emit (.binary .add) [⟨2⟩, ⟨1⟩] .output]

theorem shiftedPool_ops {o : OpId} {op : Operation} :
    (build .word64 shiftedPool).ops.get? o = some op ↔
      o = ⟨0⟩ ∧ op = ⟨pairs, [⟨0⟩], ⟨2⟩⟩ ∨ o = ⟨1⟩ ∧ op = ⟨.binary .add, [⟨2⟩, ⟨1⟩], ⟨3⟩⟩ := by
  have hops : (build .word64 shiftedPool).ops.entries =
      [(⟨0⟩, ⟨pairs, [⟨0⟩], ⟨2⟩⟩), (⟨1⟩, ⟨.binary .add, [⟨2⟩, ⟨1⟩], ⟨3⟩⟩)] := by decide +kernel
  rw [← Table.mem_entries, hops]
  simp

theorem dependent_shiftedPool : (build .word64 shiftedPool).Dependent ⟨0⟩ ∧
    (build .word64 shiftedPool).Dependent ⟨2⟩ ∧
    (build .word64 shiftedPool).Dependent ⟨3⟩ := by
  have hinput : (build .word64 shiftedPool).Dependent ⟨0⟩ := .input (by decide +kernel)
  have hpooled := hinput.written (shiftedPool_ops.2 (.inl ⟨rfl, rfl⟩)) mem_cons_self
  exact ⟨hinput, hpooled, hpooled.written (shiftedPool_ops.2 (.inr ⟨rfl, rfl⟩)) mem_cons_self⟩

theorem perSample_shiftedPool : (build .word64 shiftedPool).PerSample 0 where
  inputs := by decide +kernel
  ops := fun {o op} hop => by
    obtain ⟨hinput, hpooled, -⟩ := dependent_shiftedPool
    rcases shiftedPool_ops.1 hop with ⟨-, rfl⟩ | ⟨-, rfl⟩
    · exact .pool2d rfl hinput
    · exact .binary (.inl hpooled) (absurd hpooled)
        fun _ => ⟨by decide +kernel, by decide +kernel, by decide +kernel⟩
  data := fun {t x} hx => by
    have hsolid : (build .word64 shiftedPool).Solid := by decide +kernel
    exact (hsolid t x hx).2

theorem computable_shiftedPool {o : OpId} {op : Operation}
    (hop : (build .word64 shiftedPool).ops.get? o = some op) :
    ∀ x ∈ op.inputs, (build .word64 shiftedPool).Computable x := by
  have hsource : ∀ t ∈ (build .word64 shiftedPool).sources,
      (build .word64 shiftedPool).Computable t := fun _ => .source
  have hinput := hsource ⟨0⟩ (by decide +kernel)
  have hpooled : (build .word64 shiftedPool).Computable ⟨2⟩ :=
    .of_supported (shiftedPool_ops.2 (.inl ⟨rfl, rfl⟩)) rfl (forall_mem_singleton.2 hinput)
  rcases shiftedPool_ops.1 hop with ⟨-, rfl⟩ | ⟨-, rfl⟩
  · exact forall_mem_singleton.2 hinput
  · exact forall_mem_cons.2 ⟨hpooled, forall_mem_singleton.2 (hsource ⟨1⟩ (by decide +kernel))⟩

/-- Two samples, each of which is pooled and shifted as it would be alone. -/
theorem fuse_rebatching_equivariant_shiftedPool : ∃ ctx₀ ctx c r values values₁ f w,
    Context.initial .word64 (Graph.build .word64 shiftedPool) ⟨.nchw, some 2, 64⟩ = .ok ctx₀ ∧
    Pass.cloneSource.run ctx₀ = (.ok (), ctx) ∧ ctx.cloneOf.get? ⟨3⟩ = some c ∧
    ctx.cloned.shapeOf c = [2, 1, 1, 2] ∧
    fuse .word64 ⟨.nchw, some 2, 64⟩ (Graph.build .word64 shiftedPool) = .ok r ∧
    evaluate .unbounded r.graph (r.feeds twoSamples) = .ok values ∧
    evaluate .unbounded (Graph.build .word64 shiftedPool)
      ((Graph.build .word64 shiftedPool).sampleFeeds 0 2 1 twoSamples) = .ok values₁ ∧
    r.io.get? ⟨3⟩ = some f ∧ values.get? f = some w ∧ values₁.get? ⟨3⟩ = some (w.sample 0 1) := by
  have hop := shiftedPool_ops.2 (.inr ⟨rfl, rfl⟩)
  have hout : (Graph.build .word64 shiftedPool).Computable ⟨3⟩ :=
    .of_supported hop rfl (computable_shiftedPool hop)
  have hfeeds : (Graph.build .word64 shiftedPool).FedSamples 0 2 twoSamples :=
    ⟨by decide +kernel, by decide +kernel⟩
  obtain ⟨ctx₀, -, -, hinit, -⟩ := exists_ran .word64 (Graph.build .word64 shiftedPool)
    ⟨.nchw, some 2, 64⟩ (by decide +kernel)
  obtain ⟨r, hr⟩ := exists_fused .word64 ⟨.nchw, some 2, 64⟩ (Graph.build .word64 shiftedPool)
    (by decide +kernel)
  obtain ⟨hclone, hfuse⟩ := @fuse_rebatching_equivariant .word64 shiftedPool ⟨.nchw, some 2, 64⟩ 2
    (by decide) rfl perSample_shiftedPool
  obtain ⟨ctx, hrun, hclones, hshapes⟩ := hclone ctx₀ hinit
  obtain ⟨c, hc⟩ := Option.ne_none_iff_exists'.1 (hclones ⟨3⟩ hout)
  obtain ⟨values, hvalues, hsamples⟩ := hfuse r hr default twoSamples hfeeds
  obtain ⟨houtputs, heval⟩ := hsamples 1 (by decide)
  obtain ⟨values₁, hvalues₁⟩ := heval fun _ _ => computable_shiftedPool
  obtain ⟨f, w, hf, hw, hsample⟩ := houtputs ⟨3⟩ (by decide +kernel) hout
  have hshape := hshapes ⟨3⟩ c dependent_shiftedPool.2.2 hc
  have hset : ((Graph.build .word64 shiftedPool).shapeOf ⟨3⟩).set 0 2 = [2, 1, 1, 2] := by
    decide +kernel
  exact ⟨ctx₀, ctx, c, r, values, values₁, f, w, hinit, hrun, hc, hshape.trans hset, hr, hvalues,
    hvalues₁, hf, hw, hsample.evaluated values₁ hvalues₁⟩

end CanvasFusion
