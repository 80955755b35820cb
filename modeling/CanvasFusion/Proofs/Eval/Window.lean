import CanvasFusion.Proofs.Eval.Index

/-!
# What sliding windows do to a value

A window is a fold over its kernel positions. Along one dimension a kernel position falls on a cell
of the data or outside of it (`tap`), and positions outside are passed over. Convolution and pooling
are described by such folds, so two windows give the same if they do the same at each position
(`windowFold_congr`).
-/

namespace CanvasFusion

open Shape Layout List Scalar WindowFrame

open Value

/-! ## Folds over a window -/

section Folds

variable {σ : Type}

/-- The cell a kernel position falls on, along one dimension. -/
def tap (o k stride dilation front size : Nat) : Option Nat :=
  if front ≤ o * stride + k * dilation ∧ o * stride + k * dilation - front < size then
    some (o * stride + k * dilation - front)
  else none

theorem windowSource_ok (o k stride dilation front size : Nat) :
    windowSource .unbounded o k stride dilation front size =
      .ok (tap o k stride dilation front size) := rfl

theorem tap_lt {o k stride dilation front size i : Nat}
    (h : tap o k stride dilation front size = some i) : i < size := by
  unfold tap at h
  split_ifs at h with hin
  cases h
  exact hin.2

/-- Take one kernel position into a fold, if it falls on data along both dimensions. -/
def windowStep (taps : Dim → Nat → Option Nat) (g : σ → Nat → Nat → Pair Nat → σ) (s : σ)
    (k₀ k₁ : Nat) : σ :=
  (taps .first k₀).elim s fun i₀ => (taps .second k₁).elim s fun i₁ => g s k₀ k₁ ⟨i₀, i₁⟩

/-- Carry a state through the kernel positions of a window, row by row. -/
def windowFold (kernel : Pair Nat) (taps : Dim → Nat → Option Nat)
    (g : σ → Nat → Nat → Pair Nat → σ) (s : σ) : σ :=
  (range kernel.first).foldl (fun s k₀ =>
    (range kernel.second).foldl (fun s k₁ => windowStep taps g s k₀ k₁) s) s

theorem windowFold_congr {kernel : Pair Nat} {taps taps' : Dim → Nat → Option Nat}
    {g g' : σ → Nat → Nat → Pair Nat → σ} (h : ∀ s, ∀ k₀ < kernel.first, ∀ k₁ < kernel.second,
      windowStep taps g s k₀ k₁ = windowStep taps' g' s k₀ k₁) (s : σ) :
    windowFold kernel taps g s = windowFold kernel taps' g' s := by
  refine foldl_ext _ _ s fun s k₀ h₀ => ?_
  exact foldl_ext _ _ s fun s k₁ h₁ => h s k₀ (mem_range.1 h₀) k₁ (mem_range.1 h₁)

section Steps

variable {taps taps' : Dim → Nat → Option Nat} {g g' : σ → Nat → Nat → Pair Nat → σ} {s : σ}
  {k i : Pair Nat}

theorem windowStep_found (h : ∀ d, taps d (k.get d) = some (i.get d)) :
    windowStep taps g s k.first k.second = g s k.first k.second i := by
  rw [windowStep, show taps .first k.first = _ from h .first,
    show taps .second k.second = _ from h .second]
  rfl

theorem windowStep_missed {d : Dim} (h : taps d (k.get d) = none) :
    windowStep taps g s k.first k.second = s := by
  unfold windowStep
  cases d with
  | first =>
    rw [show taps .first k.first = none from h]
    rfl
  | second =>
    rw [show taps .second k.second = none from h]
    cases taps .first k.first <;> rfl

theorem taps_cases (taps : Dim → Nat → Option Nat) (k : Pair Nat) :
    (∃ i : Pair Nat, ∀ d, taps d (k.get d) = some (i.get d)) ∨ ∃ d, taps d (k.get d) = none := by
  by_cases h : ∃ d, taps d (k.get d) = none
  · exact .inr h
  · push Not at h
    have hget := fun d => Option.ne_none_iff_exists'.1 (h d)
    choose f hf using hget
    exact .inl ⟨.ofFn f, fun d => by rw [hf d, Pair.ofFn_get]⟩

/-- Two folds take a kernel position in the same way if what one finds the other finds as well, and
what it finds beyond that changes nothing. -/
theorem windowStep_congr
    (hsome : ∀ i : Pair Nat, (∀ d, taps' d (k.get d) = some (i.get d)) →
      ∃ j : Pair Nat, (∀ d, taps d (k.get d) = some (j.get d)) ∧
        g s k.first k.second j = g' s k.first k.second i)
    (hnone : ∀ (d : Dim) (j : Pair Nat), taps' d (k.get d) = none →
      (∀ d, taps d (k.get d) = some (j.get d)) → g s k.first k.second j = s) :
    windowStep taps g s k.first k.second = windowStep taps' g' s k.first k.second := by
  rcases taps_cases taps' k with ⟨i, hi⟩ | ⟨d, hd⟩
  · obtain ⟨j, hj, heq⟩ := hsome i hi
    rw [windowStep_found hi, windowStep_found hj, heq]
  · rw [windowStep_missed hd]
    rcases taps_cases taps k with ⟨j, hj⟩ | ⟨e, he⟩
    · rw [windowStep_found hj, hnone d j hd hj]
    · rw [windowStep_missed he]

theorem windowStep_congr_found (h : ∀ i : Pair Nat, (∀ d, taps d (k.get d) = some (i.get d)) →
      g s k.first k.second i = g' s k.first k.second i) :
    windowStep taps g s k.first k.second = windowStep taps g' s k.first k.second :=
  windowStep_congr (fun i hi => ⟨i, hi, h i hi⟩) fun d _ hnone hsome => by
    cases hnone.symm.trans (hsome d)

end Steps

variable {w : WindowFrame} {x : Shape} {index base : Index}

/-- The taps of a window over a shape at an output index. -/
def WindowFrame.taps (w : WindowFrame) (x : Shape) (index : Index) (d : Dim) (k : Nat) :
    Option Nat :=
  tap (extent index (w.layout.spatial.get d)) k (w.stride.get d) (w.dilation.get d)
    (w.pad.get d).front (x.extent (w.layout.spatial.get d))

theorem WindowFrame.along_ok {d : Dim} {f : σ → Nat → Nat → Except Fault σ} {g : σ → Nat → Nat → σ}
    (hi : w.layout.spatial.get d < index.length) (hx : w.layout.spatial.get d < x.length)
    (h : ∀ s k i, k < w.kernel.get d → w.taps x index d k = some i → f s k i = .ok (g s k i))
    (s : σ) :
    w.along .unbounded x index d f s =
      .ok ((range (w.kernel.get d)).foldl (fun s k => (w.taps x index d k).elim s (g s k)) s) := by
  unfold along
  simp only [entry_ok hi, entry_ok hx, bind_ok, windowSource_ok]
  refine foldlM_ok (fun s k hk => ?_) s
  split
  · rename_i ht
    rw [show w.taps x index d k = none from ht]
    rfl
  · rename_i i ht
    rw [show w.taps x index d k = some i from ht]
    exact h s k i (mem_range.1 hk) ht

theorem WindowFrame.fold_ok {f : σ → Nat → Nat → Index → Except Fault σ}
    {g : σ → Nat → Nat → Pair Nat → σ} (hi : ∀ d, w.layout.spatial.get d < index.length)
    (hx : ∀ d, w.layout.spatial.get d < x.length) (hb : ∀ d, w.layout.spatial.get d < base.length)
    (h : ∀ s k₀ k₁ i, k₀ < w.kernel.first → k₁ < w.kernel.second →
      (∀ d, i.get d < x.extent (w.layout.spatial.get d)) →
      f s k₀ k₁ ((base.set w.layout.spatial.first i.first).set w.layout.spatial.second i.second) =
        .ok (g s k₀ k₁ i)) (s : σ) :
    w.fold .unbounded x index base f s = .ok (windowFold w.kernel (w.taps x index) g s) := by
  have hlt : ∀ {d k i}, w.taps x index d k = some i → i < x.extent (w.layout.spatial.get d) := by
    grind [taps, tap]
  unfold fold
  rw [along_ok (hi .first) (hx .first) (g := fun s k₀ i₀ =>
    (range w.kernel.second).foldl (fun s k₁ =>
      (w.taps x index .second k₁).elim s fun i₁ => g s k₀ k₁ ⟨i₀, i₁⟩) s)]
  · refine congrArg Except.ok (foldl_ext _ _ s fun s k₀ _ => ?_)
    unfold windowStep
    cases w.taps x index .first k₀ with
    | none => exact (foldl_fixed _).symm
    | some i₀ => rfl
  · intro s k₀ i₀ hk₀ ht₀
    have h₀ : w.layout.spatial.first < base.length := hb .first
    have h₁ : w.layout.spatial.second < (base.set w.layout.spatial.first i₀).length := by
      rw [length_set]
      exact hb .second
    rw [replace_ok h₀, bind_ok]
    refine along_ok (d := .second) (hi .second) (hx .second) (fun s k₁ i₁ hk₁ ht₁ => ?_) s
    rw [replace_ok h₁, bind_ok]
    refine h s k₀ k₁ ⟨i₀, i₁⟩ hk₀ hk₁ fun d => ?_
    cases d with
    | first => exact hlt ht₀
    | second => exact hlt ht₁

end Folds

variable {α : Type} [Scalar α] {x w : Value α} {bias : Option (Value α)} {out : Shape}
  {i : Pair Nat}

/-- The index with its spatial places filled in. -/
def Layout.fill (l : Layout) (base : Index) (i : Pair Nat) : Index :=
  (base.set l.spatial.first i.first).set l.spatial.second i.second

theorem Layout.within_fill {l : Layout} {s : Shape} {base : Index} (hlen : base.length = s.length)
    (hl : ∀ d, l.spatial.get d < s.length) (hi : ∀ d, i.get d < s.extent (l.spatial.get d))
    (hoff : ∀ k < s.length, (∀ d, k ≠ l.spatial.get d) → extent base k < s.extent k) :
    s.Within (l.fill base i) := by
  have h₁ : l.spatial.first < base.length := hlen ▸ hl .first
  have h₂ : l.spatial.second < (base.set l.spatial.first i.first).length := by
    rw [length_set, hlen]
    exact hl .second
  refine within_iff.2 ⟨by simp [fill, hlen], fun k hk => ?_⟩
  rw [fill, extent_set h₂, extent_set h₁]
  split_ifs with e₂ e₁
  · subst e₂
    exact hi .second
  · subst e₁
    exact hi .first
  · refine hoff k hk fun d hd => ?_
    cases d with
    | first => exact e₁ hd.symm
    | second => exact e₂ hd.symm

/-! ## Convolution -/

/-- What a convolution starts from at an output channel. -/
def convStart (bias : Option (Value α)) (o : Nat) : α := bias.elim zero fun b => b.cell [o]

/-- The window of a convolution with a weight of the given shape. -/
def Conv2d.frame (p : Conv2d) (w : Shape) : WindowFrame :=
  ⟨p.layout, ⟨w.extent 2, w.extent 3⟩, p.stride, p.dilation, p.pad⟩

/-- The element of a convolution at an output index. -/
def convolved (p : Conv2d) (x w : Value α) (bias : Option (Value α)) (index : Index) : α :=
  (range (w.shape.extent 1)).foldl (fun acc c =>
    windowFold ⟨w.shape.extent 2, w.shape.extent 3⟩ ((p.frame w.shape).taps x.shape index)
      (fun acc k₀ k₁ i => add acc (mul
        (x.cell (p.layout.fill (index.set p.layout.channel c) i))
        (w.cell [extent index p.layout.channel, c, k₀, k₁]))) acc)
    (convStart bias (extent index p.layout.channel))

section Convolve

variable {p : Conv2d} {index : Index} (hx : x.Full) (hw : w.Full)
  (hshape : Operator.ConvShape p x.shape w.shape (bias.map (·.shape)) out) (hin : out.Within index)

include hshape hin

omit [Scalar α] in
theorem conv_channel_lt : extent index p.layout.channel < w.shape.extent 0 := by
  have hv := isValid_iff.1 hshape.layout
  have hch : p.layout.channel < x.shape.length := hshape.rank ▸ hv.channel_lt
  have hlt := (within_iff.1 hin).2 p.layout.channel (by
    rw [hshape.slid.rank_eq, length_set]
    exact hch)
  rwa [hshape.slid.off _ hv.channel_ne_fuse, extent_set_self hch] at hlt

omit [Scalar α] in
/-- The cells of a window lie within the data. -/
theorem conv_within {c : Nat} (hc : c < w.shape.extent 1) {i : Pair Nat}
    (hi : ∀ d, i.get d < x.shape.extent (p.layout.spatial.get d)) :
    x.shape.Within (p.layout.fill (index.set p.layout.channel c) i) := by
  have hv := isValid_iff.1 hshape.layout
  have hlen : index.length = x.shape.length := by
    rw [hin.length_eq, hshape.slid.rank_eq, length_set]
  have hch : p.layout.channel < index.length := by
    rw [hlen, hshape.rank]
    exact hv.channel_lt
  refine within_fill (by rw [length_set, hlen])
    (fun d => hshape.rank ▸ hv.fuse_lt d) hi fun k hk hoff => ?_
  rw [extent_set hch]
  split_ifs with h
  · rw [← h, ← hshape.channels]
    exact hc
  · have hlt := (within_iff.1 hin).2 k (by rw [← hin.length_eq, hlen]; exact hk)
    rwa [hshape.slid.off k hoff, extent_set_ne h] at hlt

include hx hw

theorem convolve_step {c : Nat} (hc : c < w.shape.extent 1) (acc : α) :
    (do
      let base ← Size.replace index p.layout.channel c
      (p.frame w.shape).fold .unbounded x.shape index base (fun acc k₀ k₁ cell => do
        let weight ← w.readAt .unbounded w.shape.steps
          [extent index p.layout.channel, c, k₀, k₁]
        let v ← x.readAt .unbounded x.shape.steps cell
        pure (add acc (mul v weight))) acc) =
    .ok (windowFold ⟨w.shape.extent 2, w.shape.extent 3⟩ ((p.frame w.shape).taps x.shape index)
      (fun acc k₀ k₁ i => add acc (mul
        (x.cell (p.layout.fill (index.set p.layout.channel c) i))
        (w.cell [extent index p.layout.channel, c, k₀, k₁]))) acc) := by
  have hv := isValid_iff.1 hshape.layout
  have hlen : index.length = 4 := by
    rw [hin.length_eq, hshape.slid.rank_eq, length_set, hshape.rank]
  have hsp : ∀ d, p.layout.spatial.get d < 4 := hv.fuse_lt
  rw [replace_ok (by rw [hlen]; exact hv.channel_lt), bind_ok]
  refine fold_ok (fun d => hlen ▸ hsp d) (fun d => hshape.rank ▸ hsp d)
    (fun d => by rw [length_set, hlen]; exact hsp d) (fun acc k₀ k₁ i hk₀ hk₁ hi => ?_) acc
  have hwin : w.shape.Within [extent index p.layout.channel, c, k₀, k₁] := by
    refine within_iff.2 ⟨hshape.weight_rank.symm, fun j hj => ?_⟩
    rw [hshape.weight_rank] at hj
    have ho := conv_channel_lt hshape hin
    interval_cases j
    · exact ho
    · exact hc
    · exact hk₀
    · exact hk₁
  rw [readAt_ok hw hwin, bind_ok]
  change (x.readAt .unbounded x.shape.steps (p.layout.fill _ i) >>= fun v => _) = _
  rw [readAt_ok hx (conv_within hshape hin hc hi), bind_ok]
  rfl

end Convolve

theorem convolve_ok {p : Conv2d} (hx : x.Full) (hw : w.Full) (hb : ∀ b, bias = some b → b.Full)
    (hshape : Operator.ConvShape p x.shape w.shape (bias.map (·.shape)) out) :
    convolve .unbounded p x w bias out = .ok (ofFn out (convolved p x w bias)).data := by
  have hv := isValid_iff.1 hshape.layout
  unfold convolve
  rw [strides_ok, bind_ok, strides_ok, bind_ok,
    entry_ok (by rw [hshape.weight_rank]; decide), bind_ok,
    entry_ok (by rw [hshape.weight_rank]; decide), bind_ok,
    entry_ok (by rw [hshape.weight_rank]; decide), bind_ok]
  refine tabulate_ok fun index hin => ?_
  have hlen : index.length = 4 := by
    rw [hin.length_eq, hshape.slid.rank_eq, length_set, hshape.rank]
  rw [entry_ok (by rw [hlen]; exact hv.channel_lt), bind_ok]
  cases bias with
  | none =>
    exact foldlM_ok (fun acc c hc =>
      convolve_step hx hw hshape hin (mem_range.1 hc) acc) zero
  | some b =>
    have hread : b.read (extent index p.layout.channel) =
        .ok (b.cell [extent index p.layout.channel]) := by
      have hbs : b.shape = [w.shape.extent 0] := hshape.bias_shape b.shape rfl
      have hbin : b.shape.Within [extent index p.layout.channel] := by
        rw [hbs]
        exact .cons (conv_channel_lt hshape hin) .nil
      have hpos : b.shape.position [extent index p.layout.channel] =
          extent index p.layout.channel := by
        rw [hbs]
        simp [position]
      rw [← read_ok (hb b rfl) hbin, hpos]
    change (b.read _ >>= fun start => _) = _
    rw [hread, bind_ok]
    exact foldlM_ok (fun acc c hc => convolve_step hx hw hshape hin (mem_range.1 hc) acc) _

/-! ## Pooling -/

/-- What a pooling starts from. -/
def PoolKind.start (kind : PoolKind) : α :=
  if kind = .max then ofSingle .negInfinity else zero

/-- Take one more element into a pooling. -/
def PoolKind.take (kind : PoolKind) (acc v : α) : α :=
  if kind = .max then Scalar.max acc v else Scalar.add acc v

/-- What a pooling gives after a number of elements. -/
def PoolKind.result (kind : PoolKind) (acc : α) (count : Nat) : α :=
  if kind = .avg ∧ 0 < count then div acc (ofCount count) else acc

/-- The window of a pooling. -/
def Pool2d.frame (p : Pool2d) : WindowFrame := ⟨p.layout, p.kernel, p.stride, .both 1, p.pad⟩

/-- The accumulated elements of a pooling at an output index, and their number. -/
def pooledState (p : Pool2d) (x : Value α) (index : Index) : α × Nat :=
  windowFold p.kernel (p.frame.taps x.shape index)
    (fun st _ _ i => (p.kind.take st.1 (x.cell (p.layout.fill index i)), st.2 + 1))
    (p.kind.start, 0)

/-- The element of a pooling at an output index. -/
def pooled (p : Pool2d) (x : Value α) (index : Index) : α :=
  p.kind.result (pooledState p x index).1 (pooledState p x index).2

/-- The cells of a pooling window lie within the data. -/
theorem pool_within {p : Pool2d} {shape : Shape} {index : Index}
    (hshape : Operator.PoolShape p shape out) (hin : out.Within index)
    (hi : ∀ d, i.get d < shape.extent (p.layout.spatial.get d)) :
    shape.Within (p.layout.fill index i) := by
  have hv := isValid_iff.1 hshape.layout
  have hlen : index.length = shape.length := by rw [hin.length_eq, hshape.slid.rank_eq]
  refine within_fill hlen (fun d => hshape.rank ▸ hv.fuse_lt d) hi fun k hk hoff => ?_
  have hlt := (within_iff.1 hin).2 k (by rw [← hin.length_eq, hlen]; exact hk)
  rwa [hshape.slid.off k hoff] at hlt

theorem pool_ok {p : Pool2d} (hx : x.Full) (hshape : Operator.PoolShape p x.shape out) :
    pool .unbounded p x out = .ok (ofFn out (pooled p x)).data := by
  have hv := isValid_iff.1 hshape.layout
  have hsp : ∀ d, p.layout.spatial.get d < 4 := hv.fuse_lt
  unfold pool
  rw [strides_ok, bind_ok]
  refine tabulate_ok fun index hin => ?_
  have hlen : index.length = 4 := by rw [hin.length_eq, hshape.slid.rank_eq, hshape.rank]
  have hread : ∀ i : Pair Nat, (∀ d, i.get d < x.shape.extent (p.layout.spatial.get d)) →
      x.readAt .unbounded x.shape.steps (p.layout.fill index i) =
        .ok (x.cell (p.layout.fill index i)) := fun i hi => readAt_ok hx (pool_within hshape hin hi)
  change (p.frame.fold .unbounded x.shape index index _ _ >>= fun st => _) = _
  rw [fold_ok (fun d => hlen ▸ hsp d) (fun d => hshape.rank ▸ hsp d)
    (fun d => hlen ▸ hsp d) (g := fun st _ _ i =>
      (p.kind.take st.1 (x.cell (p.layout.fill index i)), st.2 + 1)), bind_ok]
  · obtain ⟨kind, kernel, stride, pad, layout⟩ := p
    cases kind with
    | max => rfl
    | avg =>
      simp only [pooled, pooledState, PoolKind.result, PoolKind.start, reduceCtorEq, if_false,
        true_and]
      rfl
  · intro st k₀ k₁ i _ _ hi
    change (x.readAt .unbounded x.shape.steps (p.layout.fill index i) >>= fun v => _) = _
    rw [hread i hi, bind_ok]
    obtain ⟨kind, kernel, stride, pad, layout⟩ := p
    cases kind <;> rfl

end CanvasFusion
