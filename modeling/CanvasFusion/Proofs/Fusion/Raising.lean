import CanvasFusion.Proofs.Fusion.Solution

/-!
# Backward passes

Raising a tensor raises what it comes from. `Raised` says what such a change leaves intact: gaps
only grow, every tensor whose gap changed is reported, and where an output grew the inputs have
grown with it. So an operation that was balanced is still balanced or sees a change of one of its
inputs on the canvas, and will be visited again (`Raised.balanced`).

**Theorem (after_raise).** Raising a tensor never fails, its depth is large enough when it exceeds
the position of the tensor, and it raises nothing above a solution that allows the raise.
-/

namespace CanvasFusion

open GapRule List Pass Pair

namespace Pair

theorem zipWith_get {α β γ : Type} (f : α → β → γ) (p : Pair α) (q : Pair β) (d : Dim) :
    (p.zipWith f q).get d = f (p.get d) (q.get d) := by
  cases d <;> rfl

theorem le_max (p q : Pair Nat) (d : Dim) : p.get d ≤ (p.zipWith max q).get d := by
  rw [zipWith_get]
  exact Nat.le_max_left _ _

end Pair

namespace Context

variable {ctx ctx' ctx'' : Context} {op : Operation} {o : OpId} {t x : TensorId} {plan : FusedPlan}
  {σ : TensorId → Pair Nat} {skip : Option OpId} {changed changed' xs done ys : List TensorId}
  {d : Dim} {gap g w : Pair Nat} {s : Shape} {bound : Nat}

/-- What a change of gaps leaves intact. The operation `skip`, if any, is left out of account. -/
structure Raised (skip : Option OpId) (ctx ctx' : Context) (changed : List TensorId) : Prop where
  frame : ctx' = { ctx with gaps := ctx'.gaps, canvasShapes := ctx'.canvasShapes }
  sound : ctx'.Sound
  recorded : ∀ t, ctx'.gaps.get? t = none ↔ ctx.gaps.get? t = none
  mono : ∀ t d, (ctx.gapOf t).get d ≤ (ctx'.gapOf t).get d
  changed : ∀ t, ctx.gapOf t ≠ ctx'.gapOf t → t ∈ changed
  pulled : ∀ {o op plan}, skip ≠ some o → ctx.cloned.ops.get? o = some op →
    ctx.plans.get? o = some (.fused plan) → ctx.gapOf op.output ≠ ctx'.gapOf op.output →
    ∀ x ∈ gappedInputs op plan, ∀ d,
      (plan.rules.get d).before ((ctx'.gapOf op.output).get d) ≤ (ctx'.gapOf x).get d

namespace Raised

theorem refl (hs : ctx.Sound) : Raised skip ctx ctx [] where
  frame := rfl
  sound := hs
  recorded _ := Iff.rfl
  mono _ _ := Nat.le_refl _
  changed _ h := absurd rfl h
  pulled _ _ _ h := absurd rfl h

section

variable (h : Raised skip ctx ctx' changed)

include h

theorem cloned : ctx'.cloned = ctx.cloned := by rw [h.frame]

theorem grid : ctx'.grid = ctx.grid := by rw [h.frame]

theorem plans : ctx'.plans = ctx.plans := by rw [h.frame]

theorem placements : ctx'.placements = ctx.placements := by
  rw [h.frame]

theorem solves_iff : ctx'.Solves σ ↔ ctx.Solves σ := by
  constructor
  · exact Solves.of_extends ⟨by rw [h.frame], h.cloned, by rw [h.frame], h.grid,
      fun _ => by rw [h.placements], fun _ => by rw [h.frame], fun _ => by rw [h.plans]⟩
  · exact Solves.of_extends ⟨by rw [h.frame], h.cloned.symm, by rw [h.frame], h.grid.symm,
      fun _ => by rw [h.placements], fun _ => by rw [h.frame], fun _ => by rw [h.plans]⟩

theorem trans (h' : Raised skip ctx' ctx'' changed') :
    Raised skip ctx ctx'' (changed ++ changed') where
  frame := by
    have h₂ := h'.frame
    rw [h.frame] at h₂
    exact h₂
  sound := h'.sound
  recorded t := (h'.recorded t).trans (h.recorded t)
  mono t d := Nat.le_trans (h.mono t d) (h'.mono t d)
  changed t hne := by grind [changed]
  pulled {o op plan} hskip hop hplan hne x hx d := by
    by_cases heq : ctx'.gapOf op.output = ctx''.gapOf op.output
    · rw [← heq]
      exact Nat.le_trans (h.pulled hskip hop hplan (heq ▸ hne) x hx d) (h'.mono x d)
    · exact h'.pulled hskip (h.cloned ▸ hop) (h.plans ▸ hplan) heq x hx d

end

theorem weaken (h : Raised none ctx ctx' changed) (p : OpId) : Raised (some p) ctx ctx' changed :=
  { h with pulled := fun _ => h.pulled (by simp) }

end Raised

/-! ## One tensor -/

theorem gapOf_eq (h : ctx.gaps.get? t = some g) : ctx.gapOf t = g := by
  rw [gapOf, h]
  rfl

theorem gapOf_gapping (t t' : TensorId) (gap : Pair Nat) (s : Shape) :
    (ctx.gapping t gap s).gapOf t' = if t = t' then gap else ctx.gapOf t' := by
  grind [gapOf, gapping_gaps]

theorem mergedGap_eq (ctx : Context) (t : TensorId) (gap : Pair Nat) :
    ctx.mergedGap t gap = (ctx.gapOf t).zipWith max gap := by
  unfold mergedGap gapOf
  cases ctx.gaps.get? t with
  | some g => rfl
  | none =>
    refine ext_get fun d => ?_
    rw [zipWith_get]
    cases d <;> exact (Nat.zero_max _).symm

theorem Gapped.gapOf_untiled (hg : ctx.Gapped) (t : TensorId) (hd : ctx.grid.isTiled d = false) :
    (ctx.gapOf t).get d = 0 := by
  unfold gapOf
  cases h : ctx.gaps.get? t with
  | none => cases d <;> rfl
  | some g => exact hg.untiled d h hd

theorem Gapped.merged_untiled (hg : ctx.Gapped)
    (h0 : ∀ d, ctx.grid.isTiled d = false → gap.get d = 0)
    (d : Dim) (hd : ctx.grid.isTiled d = false) : ((ctx.gapOf t).zipWith max gap).get d = 0 := by
  grind [zipWith_get, gapOf_untiled]

/-- The state of affairs around a canvas tensor. -/
theorem Sound.canvas_producer (hs : ctx.Sound) (hc : ctx.placements.get? t = some .canvas) :
    ∃ p op plan, ctx.cloned.producer t = some p ∧ ctx.cloned.ops.get? p = some op ∧
      op.output = t ∧ ctx.plans.get? p = some (.fused plan) ∧
      ∀ x ∈ op.inputs, ctx.placements.get? x ≠ none := by
  obtain ⟨y, hy⟩ := hs.consistent.known (t := t) (by simp [hc])
  rcases hs.base.sequential.source_or_written hs.base.wellFormed hy with hsrc | ⟨p, op, hop, hout⟩
  · grind [Consistent.source, consistent]
  · have hplanned := (hs.consistent.op hop).resolve_left fun h => by
      grind
    obtain ⟨dec, -, hplan, hplace⟩ := hplanned.decision
    rw [hout, hc] at hplace
    obtain ⟨plan, hdec⟩ : ∃ plan, dec.plan = .fused plan := by
      cases hp : dec.plan with
      | batched =>
        rw [hp] at hplace
        cases hplace
      | fused plan => exact ⟨plan, rfl⟩
    grind [Graph.WellFormed.producer_output, Base.wellFormed, base, PlannedAt.inputs]

/-- A balanced operation that does not write a tensor is still balanced when the gap of the tensor
is recorded, or reads it. -/
theorem Balanced.after_gapping (hbal : ctx.Balanced op plan ctx.gapOf) (hout : t ≠ op.output) :
    ctx.Balanced op plan (ctx.gapping t gap s).gapOf ∨
      ∃ x ∈ gappedInputs op plan, ctx.gapOf x ≠ (ctx.gapping t gap s).gapOf x := by
  by_cases hx : ∃ x ∈ gappedInputs op plan, ctx.gapOf x ≠ (ctx.gapping t gap s).gapOf x
  · exact .inr hx
  · push Not at hx
    refine .inl fun d hd => ?_
    obtain ⟨g, hg, hadm, hafter⟩ := hbal d hd
    refine ⟨g, fun x hx' => ?_, hadm, ?_⟩
    · grind
    · rw [gapOf_gapping, if_neg hout]
      exact hafter

/-- Recording a larger gap for one tensor leaves intact what does not write it. -/
theorem raised_gapping (hs : ctx.Sound) (ht : ctx.gaps.get? t ≠ none)
    (hle : ∀ d, (ctx.gapOf t).get d ≤ gap.get d) (hshape : ctx.canvasShape t gap = .ok s)
    (h0 : ∀ d, ctx.grid.isTiled d = false → gap.get d = 0) :
    Raised (ctx.cloned.producer t) ctx (ctx.gapping t gap s) [t] where
  frame := rfl
  sound := hs.gapping (hs.gapped.placed ht) hshape h0
  recorded t' := by grind [gapping_gaps]
  mono t' d := by
    rw [gapOf_gapping]
    grind
  changed t' hne := by grind [gapOf_gapping]
  pulled {o op plan} hskip hop hplan hne := by
    grind [gapOf_gapping, Graph.WellFormed.producer_output, Base.wellFormed, Sound.base]

section Recorded

variable (hs : ctx.Sound) (hop : ctx.cloned.ops.get? o = some op)
  (hplan : ctx.plans.get? o = some (.fused plan))

include hs hop hplan

/-- If the gap of the output of a balanced operation grew and its inputs on the canvas have what
that needs, then they have grown too. -/
theorem Balanced.inputs_grow (hbal : ctx.Balanced op plan ctx.gapOf)
    (hd : ctx.grid.isTiled d = true) (out : Nat) (hlt : (ctx.gapOf op.output).get d < out)
    (hwant : ∀ x ∈ gappedInputs op plan, (plan.rules.get d).before out ≤ (ctx'.gapOf x).get d) :
    ∃ x ∈ gappedInputs op plan, ctx.gapOf x ≠ ctx'.gapOf x := by
  have hsp := hs.soundPlan hop hplan
  obtain ⟨x, hx⟩ := exists_mem_of_ne_nil _ hsp.gappedInputs_ne
  obtain ⟨g, hg, hadm, hafter⟩ := hbal d hd
  refine ⟨x, hx, fun heq => ?_⟩
  have hbefore : (plan.rules.get d).before out ≤ g := by grind
  have hreach : (plan.rules.get d).after ((plan.rules.get d).admitted 0) ≤ out := by
    have h0 : (plan.rules.get d).admitted 0 ≤ g := by
      rw [← hadm]
      exact admitted_mono (hsp.valid d) (Nat.zero_le _)
    have h := after_mono (plan.rules.get d) h0
    omega
  have h := after_mono (plan.rules.get d) hbefore
  rw [after_before (hsp.valid d) hreach] at h
  omega

/-- A balanced operation is still balanced, or one of its inputs on the canvas has changed. -/
theorem Raised.balanced (h : Raised skip ctx ctx' changed) (hskip : skip ≠ some o)
    (hbal : ctx.Balanced op plan ctx.gapOf) : ctx.Balanced op plan ctx'.gapOf ∨
      ∃ x ∈ gappedInputs op plan, ctx.gapOf x ≠ ctx'.gapOf x := by
  by_cases hout : ctx.gapOf op.output = ctx'.gapOf op.output
  · by_cases hx : ∃ x ∈ gappedInputs op plan, ctx.gapOf x ≠ ctx'.gapOf x
    · exact .inr hx
    · push Not at hx
      refine .inl fun d hd => ?_
      obtain ⟨g, hg, hadm, hafter⟩ := hbal d hd
      grind
  · -- The gap of the output grew along some dimension, which has more than one tile.
    obtain ⟨d, hd⟩ : ∃ d, (ctx.gapOf op.output).get d ≠ (ctx'.gapOf op.output).get d := by
      by_contra hall
      exact hout (ext_get fun d => not_not.1 fun h => hall ⟨d, h⟩)
    have htiled : ctx.grid.isTiled d = true := by
      by_contra hu
      rw [Bool.not_eq_true] at hu
      exact hd (by rw [hs.gapped.gapOf_untiled _ hu, h.sound.gapped.gapOf_untiled _ (h.grid ▸ hu)])
    exact .inr (hbal.inputs_grow hs hop hplan htiled _ (Nat.lt_of_le_of_ne (h.mono _ d) hd)
      fun x hx => h.pulled hskip hop hplan hout x hx d)

/-- What a solution allows at the output of an operation, it allows at the inputs. -/
theorem Solves.before_le (hσ : ctx.Solves σ) (hd : ctx.grid.isTiled d = true) {out : Nat}
    (hle : out ≤ (σ op.output).get d) (hx : x ∈ gappedInputs op plan) :
    (plan.rules.get d).before out ≤ (σ x).get d := by
  have hsp := hs.soundPlan hop hplan
  obtain ⟨g, hg, hadm, hafter⟩ := hσ.balanced hs hop hplan d hd
  rw [hg x hx, ← before_after (hsp.valid d) hadm, ← hafter]
  exact before_mono _ hle

end Recorded

/-! ## A whole backward pass -/

/-- The gap of a tensor is at most what an operation on the canvas that reads it asks for. -/
def AskedFor (ctx : Context) (u : TensorId) (d : Dim) : Prop :=
  ∃ o op plan, ctx.cloned.ops.get? o = some op ∧ ctx.plans.get? o = some (.fused plan) ∧
    u ∈ gappedInputs op plan ∧
    (ctx.gapOf u).get d ≤ (plan.rules.get d).before ((ctx.gapOf op.output).get d)

theorem AskedFor.raised (h : ctx.AskedFor t d) (hr : Raised skip ctx ctx' changed)
    (hle : (ctx'.gapOf t).get d ≤ (ctx.gapOf t).get d) : ctx'.AskedFor t d := by
  obtain ⟨o, op, plan, hop, hplan, ht, hasked⟩ := h
  exact ⟨o, op, plan, hr.cloned.symm ▸ hop, hr.plans.symm ▸ hplan, ht,
    hle.trans (hasked.trans (before_mono _ (hr.mono _ d)))⟩

/-- Raising a tensor to at least a gap went well. -/
structure RaisedTo (ctx : Context) (t : TensorId) (gap : Pair Nat) (changed : List TensorId)
    (ctx' : Context) : Prop where
  raised : Raised none ctx ctx' changed
  /-- Only the tensor and what it comes from change. -/
  above : ∀ u : TensorId, t.index < u.index → ctx'.gapOf u = ctx.gapOf u
  gap_eq : ctx'.gapOf t = (ctx.gapOf t).zipWith max gap
  /-- Nothing is raised without need. -/
  asked : ∀ u d, (ctx'.gapOf u).get d ≤ (ctx.gapOf u).get d ∨
    u = t ∧ (ctx'.gapOf u).get d ≤ gap.get d ∨ ctx'.AskedFor u d
  below : ∀ σ, ctx.Solves σ → ctx.Below ctx.gapOf σ → (∀ d, gap.get d ≤ (σ t).get d) →
    ctx.Below ctx'.gapOf σ

/-- Raising the inputs of an operation to one gap, one after the other, went well so far. -/
structure RaisedAll (ctx : Context) (bound : Nat) (gap : Pair Nat) (done : List TensorId)
    (changed : List TensorId) (ctx' : Context) : Prop where
  raised : Raised none ctx ctx' changed
  above : ∀ u : TensorId, bound ≤ u.index → ctx'.gapOf u = ctx.gapOf u
  le : ∀ x ∈ done, ∀ d, gap.get d ≤ (ctx'.gapOf x).get d
  asked : ∀ u d, (ctx'.gapOf u).get d ≤ (ctx.gapOf u).get d ∨
    u ∈ done ∧ (ctx'.gapOf u).get d ≤ gap.get d ∨ ctx'.AskedFor u d
  below : ∀ σ, ctx.Solves σ → ctx.Below ctx.gapOf σ →
    (∀ x ∈ done, ∀ d, gap.get d ≤ (σ x).get d) → ctx.Below ctx'.gapOf σ

/-- Inputs that have the gap already. -/
theorem RaisedAll.of_le (hs : ctx.Sound)
    (h : ∀ x ∈ xs, ∀ d, gap.get d ≤ (ctx.gapOf x).get d) : RaisedAll ctx bound gap xs [] ctx :=
  ⟨.refl hs, fun _ _ => rfl, h, fun _ _ => .inl (Nat.le_refl _), fun _ _ hbelow _ => hbelow⟩

theorem RaisedAll.nil (hs : ctx.Sound) : RaisedAll ctx bound gap [] [] ctx :=
  .of_le hs (by simp)

theorem RaisedAll.append (h : RaisedAll ctx bound gap xs changed ctx')
    (h' : RaisedAll ctx' bound gap ys changed' ctx'') :
    RaisedAll ctx bound gap (xs ++ ys) (changed ++ changed') ctx'' where
  raised := h.raised.trans h'.raised
  above u hu := (h'.above u hu).trans (h.above u hu)
  le y hy d := by
    rcases mem_append.1 hy with hy | hy
    · exact Nat.le_trans (h.le y hy d) (h'.raised.mono y d)
    · exact h'.le y hy d
  asked u d := by
    rcases h'.asked u d with hle | ⟨hu, hle⟩ | hasked
    · rcases h.asked u d with hle' | ⟨hu, hle'⟩ | hasked
      · exact .inl (hle.trans hle')
      · grind
      · exact .inr (.inr (hasked.raised h'.raised hle))
    · exact .inr (.inl ⟨mem_append_right _ hu, hle⟩)
    · exact .inr (.inr hasked)
  below σ hσ hbelow hall := by
    have hmid := h.below σ hσ hbelow fun y hy => hall y (mem_append_left _ hy)
    have hfin := h'.below σ (h.raised.solves_iff.2 hσ)
      (fun u y d hu => hmid u y d (h.raised.cloned ▸ hu))
      fun y hy => hall y (mem_append_right _ hy)
    exact fun u y d hu => hfin u y d (by rw [h.raised.cloned]; exact hu)

theorem RaisedTo.all (h : RaisedTo ctx x gap changed ctx') (hx : x.index < bound) :
    RaisedAll ctx bound gap [x] changed ctx' where
  raised := h.raised
  above u hu := h.above u (Nat.lt_of_lt_of_le hx hu)
  le y hy d := by
    rw [mem_singleton] at hy
    rw [hy, h.gap_eq, zipWith_get]
    exact Nat.le_max_right _ _
  asked u d := by
    rw [mem_singleton]
    exact h.asked u d
  below σ hσ hbelow hall := h.below σ hσ hbelow (hall x (by simp))

/-- The gap of one tensor raised. -/
abbrev raising (ctx : Context) (t : TensorId) (gap : Pair Nat) (s : Shape) : Context :=
  ctx.gapping t ((ctx.gapOf t).zipWith max gap) s

/-- The gap that the inputs of an operation need when its output is raised. -/
def wanted (ctx : Context) (plan : FusedPlan) (t : TensorId) (gap : Pair Nat) : Pair Nat :=
  .ofFn fun d => (plan.rules.get d).before (max ((ctx.gapOf t).get d) (gap.get d))

theorem wanted_get : (ctx.wanted plan t gap).get d =
    (plan.rules.get d).before (max ((ctx.gapOf t).get d) (gap.get d)) :=
  Pair.ofFn_get ..

/-- Raising a tensor, and then what it comes from as far as `done`. -/
theorem raisedTo_of_all (hs : ctx.Sound) (hgap : ctx.gaps.get? t ≠ none)
    (hstep : Raised skip ctx (ctx.raising t gap s) [t])
    (hall : RaisedAll (ctx.raising t gap s) t.index w done changed ctx')
    (hraised : Raised none ctx ctx' (t :: changed))
    (hasked : ∀ u ∈ done, ∀ d, (ctx'.gapOf u).get d ≤ w.get d → ctx'.AskedFor u d)
    (hwant : ∀ σ, ctx.Solves σ → (∀ d, max ((ctx.gapOf t).get d) (gap.get d) ≤ (σ t).get d) →
      ∀ x ∈ done, ∀ d, w.get d ≤ (σ x).get d) :
    RaisedTo ctx t gap (t :: changed) ctx' where
  raised := hraised
  above u hu := by
    rw [hall.above u (Nat.le_of_lt hu), gapOf_gapping, if_neg]
    grind
  gap_eq := by rw [hall.above t (Nat.le_refl _), gapOf_gapping, if_pos rfl]
  asked u d := by
    rcases hall.asked u d with hle | ⟨hu, hle⟩ | h
    · grind [gapOf_gapping, zipWith_get]
    · exact .inr (.inr (hasked u hu d hle))
    · exact .inr (.inr h)
  below σ hσ hbelow hgapσ := by
    have hmerged : ∀ d, max ((ctx.gapOf t).get d) (gap.get d) ≤ (σ t).get d := by
      intro d
      obtain ⟨y, hy⟩ := hs.consistent.known (hs.gapped.placed hgap)
      exact Nat.max_le.2 ⟨hbelow t y d hy, hgapσ d⟩
    refine hall.below σ (hstep.solves_iff.2 hσ) (fun u y d hu => ?_) (hwant σ hσ hmerged)
    rw [gapOf_gapping]
    split_ifs with heq
    · grind [zipWith_get]
    · exact hbelow u y d hu

/-- The step of a backward pass at one tensor, given a backward pass at its inputs. -/
theorem raisedTo_of_inputs (hs : ctx.Sound) (hgap : ctx.gaps.get? t ≠ none) (hout : op.output = t)
    (hop : ctx.cloned.ops.get? o = some op) (hplan : ctx.plans.get? o = some (.fused plan))
    (hstep : Raised (some o) ctx (ctx.raising t gap s) [t])
    (h0 : ∀ d, ctx.grid.isTiled d = false → gap.get d = 0)
    (hall : RaisedAll (ctx.raising t gap s) t.index (ctx.wanted plan t gap)
      (gappedInputs op plan).reverse changed ctx') :
    RaisedTo ctx t gap (t :: changed) ctx' := by
  have htrans := hstep.trans (hall.raised.weaken o)
  have hwant : ∀ x ∈ gappedInputs op plan, ∀ d,
      (ctx.wanted plan t gap).get d ≤ (ctx'.gapOf x).get d := fun x hx =>
    hall.le x (mem_reverse.2 hx)
  have hmerged : ∀ d, (ctx'.gapOf t).get d = max ((ctx.gapOf t).get d) (gap.get d) := fun d => by
    rw [hall.above t (Nat.le_refl _), gapOf_gapping, if_pos rfl, zipWith_get]
  refine raisedTo_of_all hs hgap hstep hall
    { htrans with pulled := ?_ } (fun u hu d hle => ?_) ?_
  · intro o' op' plan' _ hop' hplan' hne x hx d
    by_cases ho : o = o'
    · grind [wanted_get]
    · exact htrans.pulled (by simpa using ho) hop' hplan' hne x hx d
  · refine ⟨o, op, plan, htrans.cloned.symm ▸ hop, htrans.plans.symm ▸ hplan, mem_reverse.1 hu, ?_⟩
    rwa [hout, hmerged, ← wanted_get]
  · intro σ hσ hmerged x hx d
    rw [wanted_get]
    by_cases hd : ctx.grid.isTiled d = true
    · exact hσ.before_le hs hop hplan hd (hout ▸ hmerged d) (mem_reverse.1 hx)
    · rw [Bool.not_eq_true] at hd
      rw [(hs.soundPlan hop hplan).untiled d hd, hs.gapped.gapOf_untiled t hd, h0 d hd]
      exact Nat.zero_le _

/-- **Raising a tensor never fails.** -/
theorem after_raise (depth : Nat) : ∀ (ctx : Context) (t : TensorId) (gap : Pair Nat),
    ctx.Sound → ctx.placements.get? t ≠ none →
    (∀ u : TensorId, u.index ≤ t.index → ctx.placements.get? u ≠ none → ctx.gaps.get? u ≠ none) →
    (∀ d, ctx.grid.isTiled d = false → gap.get d = 0) → t.index < depth →
    ∀ {E : FusionError → Context → Prop},
      After (raise depth t gap) ctx (fun changed ctx' => RaisedTo ctx t gap changed ctx') E := by
  induction depth with
  | zero => exact fun _ t _ _ _ _ _ h => absurd h (Nat.not_lt_zero _)
  | succ depth ih =>
    intro ctx t gap hs ht hgaps h0 hdepth E
    have hgap : ctx.gaps.get? t ≠ none := hgaps t (Nat.le_refl _) ht
    obtain ⟨y, hy⟩ := hs.consistent.known ht
    have hmerged := mergedGap_eq ctx t gap
    unfold raise
    refine .bind (after_mergeGap hs.base hs.placed hy (fun hsame => ?_) fun s hnew hshape => ?_)
    · -- The gap is large enough already.
      have hgap_eq := gapOf_eq hsame
      rw [hmerged] at hgap_eq
      exact ⟨.refl hs, fun _ _ => rfl, hgap_eq, fun _ _ => .inl (Nat.le_refl _),
        fun σ _ hbelow _ => hbelow⟩
    · rw [hmerged] at hnew hshape ⊢
      have hstep := raised_gapping hs hgap (le_max _ gap) hshape (hs.gapped.merged_untiled h0)
      have hgapt : (ctx.raising t gap s).gap t =
          .ok ((ctx.gapOf t).zipWith max gap) := by
        unfold Context.gap
        rw [gapping_gaps, if_pos rfl]
        rfl
      refine .bind (.get (.bind (.check_ok hgapt ?_)))
      obtain ⟨p, hp⟩ := Option.ne_none_iff_exists'.1 ht
      have hentry : entry .placement (.tensor t)
          ((ctx.raising t gap s).placements.get? t) = .ok p := by
        change entry _ _ (ctx.placements.get? t) = _
        rw [hp]
        rfl
      refine .bind (.check_ok hentry ?_)
      cases p with
      | batched =>
        -- Batched data can take any gap: the pass ends here.
        refine raisedTo_of_all (w := .both 0) hs hgap hstep (.nil hstep.sound)
          { hstep with pulled := ?_ } (by simp) (by simp)
        intro o op plan _ hop hplan hne
        refine hstep.pulled (fun hprod => ?_) hop hplan hne
        rw [Graph.producer_eq hy, hs.base.wellFormed.producer_iff hy] at hprod
        obtain ⟨op', hop', hout⟩ := hprod
        cases hop.symm.trans hop'
        have hplanned := (hs.consistent.op hop).resolve_left fun h => by
          grind
        obtain ⟨dec, -, hdec, hplace⟩ := hplanned.decision
        rw [hplan] at hdec
        rw [← Option.some.inj hdec, hout, hp] at hplace
        cases hplace
      | canvas =>
        obtain ⟨o, op, plan, hprod, hop, hout, hplan, hin⟩ := hs.canvas_producer hp
        have hsp := hs.soundPlan hop hplan
        rw [hprod] at hstep
        have hproducer : entry .producer (.tensor t)
            ((ctx.raising t gap s).cloned.producer t) = .ok o := by
          change entry _ _ (ctx.cloned.producer t) = _
          rw [hprod]
          rfl
        have hplan' : (ctx.raising t gap s).plan o =
            .ok (.fused plan) := by
          change entry _ _ (ctx.plans.get? o) = _
          rw [hplan]
          rfl
        have hwant : (ofFnM fun d => (plan.rules.get d).backward
            (ctx.raising t gap s).limit
            (((ctx.gapOf t).zipWith max gap).get d)) =
            .ok (ctx.wanted plan t gap) := by
          refine ofFnM_eq_ok.2 fun d => ?_
          change (plan.rules.get d).backward ctx.limit _ = _
          rw [hs.base.limit, backward_ok, wanted_get, Pair.zipWith_get]
        refine .bind (.check_ok hproducer (.bind (.check_ok hplan' ?_)))
        refine .bind (.check_fault hwant ?_)
        refine .bind (.check_fault (Table.get_eq_ok.2 hop) ?_)
        refine .bind (.check_fault hsp.mapM_entry ?_)
        have hwant0 : ∀ d, ctx.grid.isTiled d = false → (ctx.wanted plan t gap).get d = 0 := by
          intro d hd
          rw [wanted_get, hsp.untiled d hd, hs.gapped.gapOf_untiled t hd, h0 d hd]
          rfl
        refine .then_ (.mapM (fun done ys ctx' =>
          RaisedAll (ctx.raising t gap s) t.index (ctx.wanted plan t gap) done ys.flatten ctx')
          ?_ ?_) ?_
        · exact .nil hstep.sound
        · intro done x rest ys ctx₂ hsplit hall
          have hx : x ∈ op.inputs := mem_inputs_of_gapped (mem_reverse.1 (by
            rw [hsplit]
            simp))
          have hlt : x.index < t.index := hout ▸ hs.base.sequential.input_lt hop hx
          have hplaces : ctx₂.placements = ctx.placements := hall.raised.placements
          refine (ih ctx₂ x _ hall.raised.sound ?_ ?_ ?_ (by omega)).mono fun changed ctx₃ hto => ?_
          · grind
          · intro u hu hplaced
            rw [hplaces] at hplaced
            have h₁ := hgaps u (by omega) hplaced
            rw [Ne, hall.raised.recorded, hstep.recorded]
            exact h₁
          · rw [hall.raised.grid]
            exact hwant0
          · rw [flatten_append, flatten_singleton]
            exact hall.append (hto.all hlt)
        · intro ys ctx₂ hall
          exact raisedTo_of_inputs hs hgap hout hop hplan hstep h0 hall

/-! ## The inputs of one operation -/

/-- Tensors below a position that are placed have a gap recorded. -/
def GappedBelow (ctx : Context) (bound : Nat) : Prop :=
  ∀ u : TensorId, u.index < bound → ctx.placements.get? u ≠ none → ctx.gaps.get? u ≠ none

theorem Raised.gappedBelow (h : Raised skip ctx ctx' changed) (hg : ctx.GappedBelow bound) :
    ctx'.GappedBelow bound := by
  intro u hu hplaced
  rw [h.placements] at hplaced
  rw [Ne, h.recorded]
  exact hg u hu hplaced

/-- Whether an input has less than the needed gap, as inference asks. -/
theorem too_small_iff {need : Pair Nat} :
    (gap.first < need.first ∨ gap.second < need.second) ↔ ∃ d, gap.get d < need.get d := by
  constructor
  · rintro (h | h)
    · exact ⟨.first, h⟩
    · exact ⟨.second, h⟩
  · rintro ⟨d, h⟩
    cases d with
    | first => exact .inl h
    | second => exact .inr h

theorem le_of_not_small {need : Pair Nat}
    (h : ¬ (gap.first < need.first ∨ gap.second < need.second))
    (d : Dim) : need.get d ≤ gap.get d :=
  Nat.le_of_not_lt fun hlt => h (too_small_iff.2 ⟨d, hlt⟩)

section RaiseInputs

variable {depth : Nat} {need : Pair Nat}

theorem RaisedAll.of_not_small (hs : ctx.Sound) (h : ¬ ((ctx.gapOf x).first < need.first ∨
    (ctx.gapOf x).second < need.second)) : RaisedAll ctx bound need [x] [] ctx :=
  .of_le hs (by simpa using le_of_not_small h)

theorem gap_ok (hg : ctx.GappedBelow bound) (hx : x.index < bound)
    (hp : ctx.placements.get? x ≠ none) : ctx.gap x = .ok (ctx.gapOf x) := by
  obtain ⟨g, hgx⟩ := Option.ne_none_iff_exists'.1 (hg x hx hp)
  unfold Context.gap
  rw [hgx, gapOf_eq hgx]
  rfl

/-- Raising the rest of the inputs once a backward pass has been counted. -/
theorem after_raiseInputs_counted (hdepth : bound ≤ depth) (xs : List TensorId) :
    ∀ ctx : Context, ctx.Sound → ctx.GappedBelow bound →
    (∀ x ∈ xs, x.index < bound ∧ ctx.placements.get? x ≠ none) →
    (∀ d, ctx.grid.isTiled d = false → need.get d = 0) →
    ∀ {E : FusionError → Context → Prop}, After (raiseInputs depth need xs true) ctx
      (fun v ctx' => v.raised = true ∧ RaisedAll ctx bound need xs v.changed ctx') E := by
  induction xs with
  | nil => exact fun ctx hs _ _ _ _ => .pure ⟨rfl, .nil hs⟩
  | cons x rest ih =>
    intro ctx hs hg hxs h0 E
    obtain ⟨hx, hp⟩ := hxs x mem_cons_self
    unfold raiseInputs
    refine .bind (.ask_ok (gap_ok hg hx hp) ?_)
    refine .ite (fun hsmall => ?_) fun hlarge => ?_
    · refine .then_ (after_raise depth ctx x need hs hp (fun u hu => hg u (by omega)) h0
        (by omega)) fun changed ctx₁ hto => ?_
      have hrest : ∀ y ∈ rest, y.index < bound ∧ ctx₁.placements.get? y ≠ none := fun y hy => by
        rw [hto.raised.placements]
        exact hxs y (mem_cons_of_mem x hy)
      refine .then_ (ih ctx₁ hto.raised.sound (hto.raised.gappedBelow hg) hrest
        (by rw [hto.raised.grid]; exact h0)) fun v ctx₂ ⟨_, hall⟩ => ?_
      exact .pure ⟨rfl, (hto.all hx).append hall⟩
    · refine (ih ctx hs hg (fun y hy => hxs y (mem_cons_of_mem x hy)) h0).mono
        fun v ctx₂ ⟨hraised, hall⟩ => ⟨hraised, ?_⟩
      exact (RaisedAll.of_not_small hs hlarge).append hall

/-- The backward pass of an operation, if its inputs need one. -/
inductive RaisedInputs (ctx : Context) (bound : Nat) (need : Pair Nat) (xs : List TensorId) :
    Visit → Context → Prop
  /-- Every input has the needed gap. -/
  | none (h : ∀ x ∈ xs, ∀ d, need.get d ≤ (ctx.gapOf x).get d) :
    RaisedInputs ctx bound need xs ⟨[], false⟩ ctx
  /-- Some input had less, and a backward pass was counted. -/
  | counted {changed : List TensorId} {counters : Counters} {ctx' : Context}
    (hsmall : ∃ x ∈ xs, ∃ d, (ctx.gapOf x).get d < need.get d)
    (hcount : counters = { ctx.counters with
      backwardPasses := ctx.counters.backwardPasses + 1 })
    (hmax : counters.backwardPasses ≤ ctx.maxBackwardPasses)
    (hall : RaisedAll { ctx with counters := counters } bound need xs changed ctx') :
    RaisedInputs ctx bound need xs ⟨changed, true⟩ ctx'

/-- **Raising the inputs of an operation** makes at most one backward pass, and fails only when that
is one too many. -/
theorem after_raiseInputs (hdepth : bound ≤ depth) (xs : List TensorId) (hs : ctx.Sound)
    (hg : ctx.GappedBelow bound) (hxs : ∀ x ∈ xs, x.index < bound ∧ ctx.placements.get? x ≠ none)
    (h0 : ∀ d, ctx.grid.isTiled d = false → need.get d = 0) :
    After (raiseInputs depth need xs false) ctx
      (fun v ctx' => RaisedInputs ctx bound need xs v ctx')
      (fun e _ => e = .diverged ctx.maxBackwardPasses ∧
        ctx.maxBackwardPasses < ctx.counters.backwardPasses + 1 ∧
        ∃ x ∈ xs, ∃ d, (ctx.gapOf x).get d < need.get d) := by
  induction xs with
  | nil => exact .pure (.none (by simp))
  | cons x rest ih =>
    obtain ⟨hx, hp⟩ := hxs x mem_cons_self
    have hrest : ∀ y ∈ rest, y.index < bound ∧ ctx.placements.get? y ≠ none := fun y hy =>
      hxs y (mem_cons_of_mem x hy)
    unfold raiseInputs
    refine .bind (.ask_ok (gap_ok hg hx hp) ?_)
    refine .ite (fun hsmall => ?_) fun hlarge => ?_
    · have hsmall' : ∃ y ∈ x :: rest, ∃ d, (ctx.gapOf y).get d < need.get d :=
        ⟨x, mem_cons_self, too_small_iff.1 hsmall⟩
      refine .bind (.bind (.modify (.bind (.get ?_))))
      refine .ite (fun hover => .throw ⟨rfl, hover, hsmall'⟩) fun hwithin => ?_
      have hs₁ := hs.recount ctx.warnings { ctx.counters with
        backwardPasses := ctx.counters.backwardPasses + 1 }
      refine .pure ?_
      refine .then_ (after_raise depth _ x need hs₁ hp (fun u hu => hg u (by omega)) h0
        (by omega)) fun changed ctx₁ hto => ?_
      have hrest₁ : ∀ y ∈ rest, y.index < bound ∧ ctx₁.placements.get? y ≠ none := fun y hy => by
        rw [hto.raised.placements]
        exact hrest y hy
      refine .then_ (after_raiseInputs_counted hdepth rest ctx₁ hto.raised.sound
        (hto.raised.gappedBelow hg) hrest₁ (by rw [hto.raised.grid]; exact h0))
        fun v ctx₂ ⟨_, hall⟩ => ?_
      exact .pure (.counted hsmall' rfl (Nat.le_of_not_lt hwithin) ((hto.all hx).append hall))
    · refine (ih hrest).imp (fun v ctx₂ h => ?_) fun e ctx₂ ⟨he, hover, y, hy, h⟩ =>
        ⟨he, hover, y, mem_cons_of_mem x hy, h⟩
      cases h with
      | none h => exact .none (forall_mem_cons.2 ⟨le_of_not_small hlarge, h⟩)
      | counted hsmall hcount hmax hall =>
        obtain ⟨y, hy, h⟩ := hsmall
        refine .counted ⟨y, mem_cons_of_mem x hy, h⟩ hcount hmax ?_
        subst hcount
        exact (RaisedAll.of_not_small (hs.recount ctx.warnings { ctx.counters with
          backwardPasses := ctx.counters.backwardPasses + 1 }) hlarge).append hall

end RaiseInputs

end Context

end CanvasFusion
