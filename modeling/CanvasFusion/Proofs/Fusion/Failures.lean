import CanvasFusion.Proofs.Fusion.Run

/-!
# How a run can fail

A run keeps a dozen tables, most of them written once, and checks every shape on the canvas against
the one that gap inference settled. None of these checks can fail, at any limit of sizes
(`fuse_error_cases`).

What is left are errors of the options, divergence of gap inference, and edits of a graph that is
built from the source: a re-batched graph need not fit together, and a size can overflow. In plain
arithmetic, on tensors that are not empty, with the data of every constant and the samples that the
inputs have, only the first two are left.
-/

namespace CanvasFusion

open Grid

/-- The run is about the `n` samples of the inputs of rank four. -/
structure HasBatch (source : Graph) (options : Options) (n : Nat) : Prop where
  tileCount : options.tileCount = none ∨ options.tileCount = some n
  inputs : ∀ t ∈ source.inputs, (source.shapeOf t).length = 4 →
    (source.shapeOf t).extent options.axes.batch = n

theorem Graph.forall_tensors_iff {g : Graph} {p : Tensor → Prop} :
    (∀ x ∈ g.tensors.toList, p x) ↔ ∀ t x, g.tensors.get? t = some x → p x := by
  constructor
  · intro h t x hx
    exact h x (List.mem_of_getElem? (Array.getElem?_toList.trans hx))
  · intro h x hx
    obtain ⟨i, hi⟩ := List.mem_iff_getElem?.1 hx
    exact h ⟨i⟩ x (Array.getElem?_toList.symm.trans hi)

/-- Every tensor has room, and the constants have data. -/
def Graph.Solid (g : Graph) : Prop :=
  ∀ t x, g.tensors.get? t = some x →
    (∀ n ∈ x.spec.shape, 0 < n) ∧ (x.spec.role = .constant → x.data ≠ none)

instance (g : Graph) : Decidable g.Solid := decidable_of_iff _ Graph.forall_tensors_iff

theorem Graph.Solid.shapeOf_pos {g : Graph} (h : g.Solid) (t : TensorId) :
    ∀ n ∈ g.shapeOf t, 0 < n := by
  intro n hn
  cases hx : g.tensors.get? t with
  | none => simp [Graph.shapeOf, hx] at hn
  | some x =>
    rw [Graph.shapeOf_eq hx] at hn
    exact (h t x hx).1 n hn

theorem Grid.exists_ofCount (n : Nat) : ∃ grid, ofCount .unbounded n = .ok grid := ⟨_, rfl⟩

/-- Options that are not in order. -/
theorem Options.isInternal_of_validate {options : Options} {e : FusionError}
    (h : options.validate = .error e) : e.isInternal = false := by
  have haxes : ∀ seen as, AxisMap.checkDistinct seen as = .error e → e.isInternal = false := by
    intro seen as
    induction as generalizing seen with
    | nil => intro h; cases h
    | cons a rest ih =>
      intro h
      unfold AxisMap.checkDistinct at h
      split_ifs at h
      · cases h
        rfl
      · cases h
        rfl
      · exact ih _ h
  unfold Options.validate at h
  rcases bind_eq_error.1 h with h | ⟨_, -, h⟩
  · exact haxes _ _ h
  · split_ifs at h
    · cases h
      rfl
    · cases h

namespace Context

variable {lim lim' : Limit} {source : Graph} {options : Options} {ctx₀ : Context} {n : Nat}

/-- The inputs keep their samples. -/
theorem Starts.keepsBatch (h₀ : Starts lim source options ctx₀) (hsource : source.WellFormed)
    (hbatch : HasBatch source options n)
    (hn : ∀ t ∈ source.inputs, (source.shapeOf t).length = 4 → 0 < n) : ctx₀.KeepsBatch := by
  intro t ht hrank
  rw [h₀.source_eq] at ht hrank ⊢
  have hpos := hn t ht hrank
  obtain ⟨m, hcount, hgrid⟩ := h₀.count
  have hm : m = n := by
    unfold sampleCount at hcount
    rcases hbatch.tileCount with hnone | hsome
    · rw [hnone] at hcount
      have haxes : options.axes.Valid := h₀.axes_eq ▸ h₀.axes
      rcases sourceBatch?_cases hsource haxes with ⟨-, hno⟩ | ⟨u, hu, hrank', hsome⟩
      · exact absurd hrank (hno t ht)
      · rw [hsome, hbatch.inputs u hu hrank'] at hcount
        cases hcount
        rfl
    · grind
  rw [(ofCount_spec hgrid).1, h₀.axes_eq, hbatch.inputs t ht hrank, hm]
  omega

/-- **A run starts** with options that are in order and a grid that fits. -/
theorem initial_cases (hsource : source.WellFormed) :
    (∃ e, options.validate = .error e ∧ initial lim source options = .error e) ∨
      (∃ ctx₀, initial lim source options = .ok ctx₀) ∨
      ∃ n f, sampleCount source options = .ok n ∧ ofCount lim n = .error f ∧
        initial lim source options = .error (.fault f) := by
  unfold initial sampleCount
  cases hvalid : options.validate with
  | error e => exact .inl ⟨e, rfl, rfl⟩
  | ok u =>
    have haxes : options.axes.Valid := by
      grind [Options.validate, bind_eq_ok, AxisMap.valid_of_validate]
    have hbatch : ∃ b, sourceBatch? source options.axes = .ok b := by
      rcases sourceBatch?_cases hsource haxes with ⟨hnone, -⟩ | ⟨t, -, -, hsome⟩
      · exact ⟨_, hnone⟩
      · exact ⟨_, hsome⟩
    obtain ⟨b, hb⟩ := hbatch
    refine .inr ?_
    cases options.tileCount with
    | some n =>
      simp only [bind_ok, pure_bind]
      cases hgrid : ofCount lim n with
      | ok grid => exact .inl ⟨_, rfl⟩
      | error f => exact .inr ⟨n, f, rfl, hgrid, rfl⟩
    | none =>
      simp only [hb, lift_fault_ok, bind_ok, pure_bind]
      cases hgrid : ofCount lim (b.getD 1) with
      | ok grid => exact .inl ⟨_, rfl⟩
      | error f => exact .inr ⟨_, f, rfl, hgrid, rfl⟩

/-- Cloning changes no shape, where the inputs keep their samples. -/
theorem Starts.smooth (h₀ : Starts .unbounded source options ctx₀) (hsource : source.WellFormed)
    (hchecked : source.Checked lim') (hsolid : source.Solid)
    (hbatch : HasBatch source options n) : ctx₀.Smooth where
  limit := h₀.limit
  batch := by
    refine h₀.keepsBatch hsource hbatch fun t ht hrank => ?_
    have haxes : options.axes.Valid := h₀.axes_eq ▸ h₀.axes
    rw [← hbatch.inputs t ht hrank]
    exact hsolid.shapeOf_pos t _
      (List.mem_of_getElem? (Shape.getElem?_extent (hrank ▸ haxes.batch_lt)))
  data {t x} hx hrole := by
    rw [h₀.source_eq] at hx
    obtain ⟨data, hdata⟩ := Option.ne_none_iff_exists'.1 ((hsolid t x hx).2 hrole)
    exact ⟨data, hdata, (hasPeak_byteSize x.spec).ok_unbounded (hchecked.data hx hdata)⟩

/-- How a run over a graph with data in order fails. -/
theorem isInternal_of_fuse (hsource : source.WellFormed) (hchecked : source.Checked lim')
    {e : FusionError} (h : fuse lim options source = .error e) : e.isInternal = false ∧
      (lim = .unbounded → source.Solid → (∃ n, HasBatch source options n) →
        options.validate = .error e ∨ e = .diverged options.maxBackwardPasses) := by
  unfold fuse at h
  rcases @initial_cases lim source options hsource with
    ⟨e', hvalid, hinit⟩ | ⟨ctx₀, hinit⟩ | ⟨n, f, -, hgrid, hinit⟩
  · rw [hinit] at h
    cases h
    exact ⟨Options.isInternal_of_validate hvalid, fun _ _ _ => .inl hvalid⟩
  · have h₀ := starts_of_initial hinit
    rw [hinit, bind_ok] at h
    rcases hrun : Pass.fuse.run ctx₀ with ⟨result, ctx⟩
    rw [hrun] at h
    cases h
    have hfail :=
      (after_fuse (P := lim = .unbounded ∧ source.Solid ∧ ∃ n, HasBatch source options n)
      h₀ hsource ?_ ?_).of_run_error hrun
    · grind [Starts.maxBackwardPasses]
    · grind [Starts.smooth]
    · rintro ⟨-, hsolid, -⟩ t
      exact hsolid.shapeOf_pos t
  · rw [hinit] at h
    cases h
    refine ⟨rfl, fun hlim _ _ => ?_⟩
    obtain ⟨grid, hok⟩ := exists_ofCount n
    grind

end Context

open Context

/-- **Internal errors are unreachable**, whatever the limit of sizes. In plain arithmetic, a run
over tensors that are not empty, with the data of all constants and the samples that its inputs
have, can fail for two reasons only: its options are not in order, or gap inference diverges. -/
theorem fuse_error_cases {lim lim' : Limit} {calls : List Graph.Call} {options : Options}
    {e : FusionError} (h : fuse lim options (Graph.build lim' calls) = .error e) :
    (∀ table key, e ≠ .missingEntry table key) ∧ (∀ table key, e ≠ .duplicateEntry table key) ∧
      (∀ t expected found, e ≠ .canvasMismatch t expected found) ∧ e ≠ .outOfSteps ∧
      (lim = .unbounded → (Graph.build lim' calls).Solid →
        (∃ n, HasBatch (Graph.build lim' calls) options n) →
        options.validate = .error e ∨ e = .diverged options.maxBackwardPasses) := by
  obtain ⟨hinternal, hsolid⟩ :=
    isInternal_of_fuse (Graph.wellFormed_build lim' calls) (Graph.checked_build lim' calls) h
  refine ⟨?_, ?_, ?_, ?_, hsolid⟩
  · rintro table key rfl
    cases hinternal
  · rintro table key rfl
    cases hinternal
  · rintro t expected found rfl
    cases hinternal
  · rintro rfl
    cases hinternal

/-- Two poolings with different strides: the tensors have room and the inputs have two samples each,
so the one thing that can go wrong is divergence. -/
theorem fuse_error_cases_pools : ∃ e,
    fuse .unbounded ⟨.nchw, none, 2⟩ (Graph.build .word64 (unevenPools 4 ⟨2, 1⟩)) = .error e ∧
      (Graph.build .word64 (unevenPools 4 ⟨2, 1⟩)).Solid ∧
      HasBatch (Graph.build .word64 (unevenPools 4 ⟨2, 1⟩)) ⟨.nchw, none, 2⟩ 2 ∧
        e = .diverged 2 := by
  have hfails : (failure? (fuse .unbounded ⟨.nchw, none, 2⟩
      (Graph.build .word64 (unevenPools 4 ⟨2, 1⟩)))).isSome = true := by decide +kernel
  have hsolid : (Graph.build .word64 (unevenPools 4 ⟨2, 1⟩)).Solid := by decide +kernel
  have hbatch : HasBatch (Graph.build .word64 (unevenPools 4 ⟨2, 1⟩)) ⟨.nchw, none, 2⟩ 2 :=
    ⟨.inl rfl, by decide +kernel⟩
  cases h : fuse .unbounded ⟨.nchw, none, 2⟩ (Graph.build .word64 (unevenPools 4 ⟨2, 1⟩)) with
  | ok r => simp [h, failure?] at hfails
  | error e =>
    obtain ⟨-, -, -, -, hdiverged⟩ := fuse_error_cases h
    refine ⟨e, rfl, hsolid, hbatch, (hdiverged rfl hsolid ⟨2, hbatch⟩).resolve_left ?_⟩
    simp [show Options.validate ⟨.nchw, none, 2⟩ = .ok () by decide +kernel]

end CanvasFusion
