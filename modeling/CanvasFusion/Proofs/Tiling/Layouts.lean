import CanvasFusion.Proofs.Tiling.AdapterValues

/-!
# Sliding windows in any layout

A convolution or a pooling finds the axes of its data through its layout. Said by role, its output
does not depend on the layout: neither its extents (`Slid.relaid`) nor what it holds
(`convolved_relaid`, `pooled_relaid`).

**Theorem (window_in_canonical_layout).** A window in any layout does what the same window does in
the canonical one, between a transposition and its inverse.
-/

namespace CanvasFusion

open AxisMap Operator List Shape Layout

open Value

/-- The roles that a layout gives to the axes. -/
def Layout.roles (l : Layout) : AxisMap := ⟨l.batch, l.channel, l.spatial⟩

namespace Operator

/-- The layout of a sliding window. -/
def layout? : Operator → Option Layout
  | .conv2d p => some p.layout
  | .pool2d p => some p.layout
  | _ => none

/-- The same window in another layout. -/
def withLayout (l : Layout) : Operator → Operator
  | .conv2d p => .conv2d { p with layout := l }
  | .pool2d p => .pool2d { p with layout := l }
  | kind => kind

end Operator

variable {α : Type} [Scalar α] {kind : Operator} {l l' : Layout} {N C C' n o : Nat}
  {S S' T y : Pair Nat}
  {kernel stride dilation : Pair Nat} {pad : Pair Padding} {s : Shape} {f g : Nat → Nat →
    Pair Nat → α}

/-! ## Shapes -/

section Shapes

variable {x w : Shape} {bias : Option Shape}

theorem Operator.Slid.relaid (hl : l.roles.Valid)
    (h : Slid l (l.roles.arrange N C S) kernel stride dilation pad (l.roles.arrange N C' S') s) :
    ∃ T, s = l.roles.arrange N C' T ∧ ∀ l' : Layout, l'.roles.Valid →
      Slid l' (l'.roles.arrange N C S) kernel stride dilation pad (l'.roles.arrange N C' S')
        (l'.roles.arrange N C' T) := by
  have hoff : ∀ {i}, (∀ d, i ≠ l.roles.fuse.get d) → s.extent i =
      extent (l.roles.arrange N C' S') i :=
    h.off _
  refine ⟨.ofFn fun d => s.extent (l.spatial.get d), ?_, fun l' hl' =>
    ⟨length_arrange.trans length_arrange.symm, fun d => ?_, fun i hi => ?_⟩⟩
  · refine ext_roles hl (h.rank_eq.trans length_arrange) length_arrange ?_ ?_ fun d => ?_
    · rw [hoff hl.batch_ne_fuse, arrange_batch hl, arrange_batch hl]
    · rw [hoff hl.channel_ne_fuse, arrange_channel hl, arrange_channel hl]
    · rw [arrange_fuse hl, Pair.ofFn_get]
      rfl
  · have hwindow := h.window d
    rw [show extent (l.roles.arrange N C S) (l.spatial.get d) =
      S.get d from arrange_fuse hl d] at hwindow
    rw [show extent (l'.roles.arrange N C S) (l'.spatial.get d) = S.get d from arrange_fuse hl' d,
      show extent (l'.roles.arrange N C' _) (l'.spatial.get d) = _ from arrange_fuse hl' d,
      Pair.ofFn_get]
    exact hwindow
  · by_cases hlt : i < 4
    · rcases hl'.axis_cases hlt with rfl | rfl | ⟨d, rfl⟩
      · rw [arrange_batch hl', arrange_batch hl']
      · rw [arrange_channel hl', arrange_channel hl']
      · exact absurd rfl (hi d)
    · simp [extent, Nat.le_of_not_lt hlt]

theorem Operator.ConvShape.relaid {p : Conv2d} (h : ConvShape p x w bias s) :
    ∃ N S T, x = p.layout.roles.arrange N (w.extent 1) S ∧ s = p.layout.roles.arrange N
      (w.extent 0) T ∧ ∀ l' : Layout, l'.roles.Valid → ConvShape { p with layout := l' }
        (l'.roles.arrange N (w.extent 1) S) w bias (l'.roles.arrange N (w.extent 0) T) := by
  have hl : p.layout.roles.Valid := isValid_iff.1 h.layout
  have hx := eq_arrange hl h.rank
  rw [show x.extent p.layout.roles.channel = w.extent 1 from h.channels.symm] at hx
  generalize x.extent p.layout.roles.batch = N,
    Pair.ofFn (fun d => x.extent (p.layout.roles.fuse.get d)) = S at hx
  subst hx
  have hset : ∀ {l : Layout}, l.roles.Valid → (l.roles.arrange N (w.extent 1) S).set l.channel
      (w.extent 0) =
      l.roles.arrange N (w.extent 0) S := fun hl => set_channel hl
  have hslid := h.slid
  rw [hset hl] at hslid
  obtain ⟨T, rfl, hT⟩ := hslid.relaid hl
  refine ⟨N, S, T, rfl, rfl, fun l' hl' => ⟨length_arrange, isValid_iff.2 hl', h.weight_rank,
    (arrange_channel hl').symm, h.bias_shape, ?_⟩⟩
  grind

theorem Operator.PoolShape.relaid {p : Pool2d} (h : PoolShape p x s) :
    ∃ N C S T, x = p.layout.roles.arrange N C S ∧ s = p.layout.roles.arrange N C T ∧
      ∀ l' : Layout, l'.roles.Valid →
        PoolShape { p with layout := l' } (l'.roles.arrange N C S) (l'.roles.arrange N C T) := by
  have hl : p.layout.roles.Valid := isValid_iff.1 h.layout
  have hx := eq_arrange hl h.rank
  generalize x.extent p.layout.roles.batch = N, x.extent p.layout.roles.channel = C,
    Pair.ofFn (fun d => x.extent (p.layout.roles.fuse.get d)) = S at hx
  subst hx
  obtain ⟨T, rfl, hT⟩ := h.slid.relaid hl
  exact ⟨N, C, S, T, rfl, rfl, fun l' hl' => ⟨length_arrange, isValid_iff.2 hl', hT l' hl'⟩⟩

end Shapes

/-! ## Elements -/

section Elements

variable {x x' w : Value α} {bias : Option (Value α)}

theorem Layout.fill_roles (hl : l.roles.Valid) (i : Pair Nat) :
    l.fill (l.roles.arrange n o y) i = l.roles.arrange n o i := by
  change ((l.roles.arrange n o y).set (l.roles.fuse.get .first) i.first).set
    (l.roles.fuse.get .second) i.second = _
  rw [set_fuse hl, set_fuse hl]
  refine congrArg _ (Pair.ext_get fun d => ?_)
  cases d <;> rfl

theorem WindowFrame.taps_roles (hl : l.roles.Valid) (hl' : l'.roles.Valid) :
    (WindowFrame.mk l kernel stride dilation pad).taps (l.roles.arrange N C S)
      (l.roles.arrange n o y) =
      (WindowFrame.mk l' kernel stride dilation pad).taps (l'.roles.arrange N C S)
        (l'.roles.arrange n o y) := by
  funext d k
  have hget : ∀ {l : Layout}, l.roles.Valid → ∀ {n c y},
      extent (l.roles.arrange n c y) (l.spatial.get d) =
      y.get d := fun hl => arrange_fuse hl d
  simp only [taps, hget hl, hget hl']

/-- An element of a convolution, by role. -/
theorem convolved_relaid {p : Conv2d} (hl : p.layout.roles.Valid) (hl' : l'.roles.Valid)
    (hx : Arranged p.layout.roles N (w.shape.extent 1) S x f)
    (hx' : Arranged l'.roles N (w.shape.extent 1) S x' f) (hn : n < N) :
    convolved { p with layout := l' } x' w bias (l'.roles.arrange n o y) =
      convolved p x w bias (p.layout.roles.arrange n o y) := by
  have hchannel : ∀ {l : Layout}, l.roles.Valid → extent (l.roles.arrange n o y) l.channel = o :=
    fun hl => arrange_channel hl
  have hset : ∀ {l : Layout}, l.roles.Valid → ∀ c, (l.roles.arrange n o y).set l.channel c =
      l.roles.arrange n c y := fun hl _ => set_channel hl
  unfold convolved Conv2d.frame
  rw [hchannel hl, hchannel hl', hx.shape, hx'.shape, WindowFrame.taps_roles hl' hl]
  refine foldl_ext _ _ _ fun acc c hc => ?_
  refine windowFold_congr (fun acc k₀ _ k₁ _ => windowStep_congr_found (k := ⟨k₀, k₁⟩)
    fun i hi => ?_) acc
  have hin : ∀ d, i.get d < S.get d := fun d =>
    Nat.lt_of_lt_of_eq (tap_lt (hi d)) (arrange_fuse hl d)
  simp only [hset hl, hset hl', fill_roles hl, fill_roles hl', hx.cell hn (mem_range.1 hc) hin,
    hx'.cell hn (mem_range.1 hc) hin]

/-- An element of a pooling, by role. -/
theorem pooled_relaid {p : Pool2d} (hl : p.layout.roles.Valid) (hl' : l'.roles.Valid)
    (hx : Arranged p.layout.roles N C S x f) (hx' : Arranged l'.roles N C S x' f) (hn : n < N)
    (ho : o < C) :
    pooled { p with layout := l' } x' (l'.roles.arrange n o y) = pooled p x
      (p.layout.roles.arrange n o y) := by
  suffices hstate : pooledState { p with layout := l' } x' (l'.roles.arrange n o y) =
      pooledState p x (p.layout.roles.arrange n o y) by rw [pooled, pooled, hstate]
  unfold pooledState Pool2d.frame
  rw [hx.shape, hx'.shape, WindowFrame.taps_roles hl' hl]
  refine windowFold_congr (fun st k₀ _ k₁ _ => windowStep_congr_found (k := ⟨k₀, k₁⟩)
    fun i hi => ?_) _
  have hin : ∀ d, i.get d < S.get d := fun d =>
    Nat.lt_of_lt_of_eq (tap_lt (hi d)) (arrange_fuse hl d)
  simp only [fill_roles hl, fill_roles hl', hx.cell hn ho hin, hx'.cell hn ho hin]

end Elements

/-! ## Operators -/

section Operators

variable {m m' : AxisMap} {x x' v w : Value α} {rest : List (Value α)} {perm : List Nat}

/-- In every layout, the window takes a value that holds `f` to one that holds `g`. -/
def Operator.TakesByRole (kind : Operator) (rest : List (Value α)) (N C : Nat) (S : Pair Nat)
    (f : Nat → Nat → Pair Nat → α) (C' : Nat) (T : Pair Nat) (g : Nat → Nat → Pair Nat → α) :
    Prop :=
  ∀ l' : Layout, l'.roles.Valid → ∀ x', Arranged l'.roles N C S x' f →
    ∃ y', (kind.withLayout l').Yields (x' :: rest) y' ∧ Arranged l'.roles N C' T y' g

theorem conv_takesByRole {p : Conv2d} (hrest : rest.length ≤ 1)
    (hfull : ∀ v ∈ x :: w :: rest, v.Full)
    (h : ConvShape p x.shape w.shape (rest.head?.map (·.shape)) s) :
    ∃ N C S C' T g, x.shape = p.layout.roles.arrange N C S ∧ s = p.layout.roles.arrange N C' T ∧
      (conv2d p).TakesByRole
      (w :: rest) N C S (fun n c u => x.cell (p.layout.roles.arrange n c u)) C' T g := by
  obtain ⟨N, S, T, hx, rfl, hshape⟩ := h.relaid
  have hl : p.layout.roles.Valid := isValid_iff.1 h.layout
  refine ⟨N, _, S, _, T, fun n o y => convolved p x w rest.head? (p.layout.roles.arrange n o y), hx,
    rfl, fun l' hl' x' hx' => ?_⟩
  have hfull' : ∀ v ∈ x' :: w :: rest, v.Full := by grind [Arranged.full]
  have hs := hshape l' hl'
  rw [← hx'.shape] at hs
  refine ⟨ofFn (l'.roles.arrange N (w.shape.extent 0) T)
    (convolved { p with layout := l' } x' w rest.head?),
    ⟨?_, compute_conv hrest hfull' hs⟩, full_ofFn _ _, rfl, fun {n o u} hn ho hu => ?_⟩
  · rcases rest with _ | ⟨b, _ | ⟨_, _⟩⟩
    · exact inferConv_ok hs
    · exact inferConv_ok hs
    · simp at hrest
  · rw [cell_ofFn ((within_arrange hl').2 ⟨hn, ho, hu⟩),
      convolved_relaid hl hl' (arranged_self (hfull x mem_cons_self) hx) hx' hn]

theorem pool_takesByRole {p : Pool2d} (hx : x.Full) (h : PoolShape p x.shape s) :
    ∃ N C S C' T g, x.shape = p.layout.roles.arrange N C S ∧ s = p.layout.roles.arrange N C' T ∧
      (pool2d p).TakesByRole
      [] N C S (fun n c u => x.cell (p.layout.roles.arrange n c u)) C' T g := by
  obtain ⟨N, C, S, T, hxs, rfl, hshape⟩ := h.relaid
  have hl : p.layout.roles.Valid := isValid_iff.1 h.layout
  refine ⟨N, C, S, C, T, fun n o y => pooled p x (p.layout.roles.arrange n o y), hxs, rfl,
    fun l' hl' x' hx' => ?_⟩
  have hs := hshape l' hl'
  rw [← hx'.shape] at hs
  refine ⟨ofFn (l'.roles.arrange N C T) (pooled { p with layout := l' } x'),
    ⟨inferPool_ok hs, pool_ok hx'.full hs⟩, full_ofFn _ _, rfl, fun {n o u} hn ho hu => ?_⟩
  rw [cell_ofFn ((within_arrange hl').2 ⟨hn, ho, hu⟩),
    pooled_relaid hl hl' (arranged_self hx hxs) hx' hn ho]

theorem exists_takesByRole (hkind : kind.layout? = some l) (hfull : ∀ v ∈ x :: rest, v.Full)
    (h : kind.inferShape .unbounded ((x :: rest).map (·.shape)) = .ok s) :
    l.roles.Valid ∧ ∃ N C S C' T g, x.shape = l.roles.arrange N C S ∧ s = l.roles.arrange N C' T ∧
      kind.TakesByRole rest N C S (fun n c u => x.cell (l.roles.arrange n c u)) C' T g := by
  cases kind with
  | conv2d p =>
    cases hkind
    obtain ⟨sx, sw, srest, hshapes, hlen, hshape⟩ := inferShape_conv h
    obtain ⟨rfl, hrest⟩ := cons.inj hshapes
    obtain ⟨w, rest, rfl, rfl, rfl⟩ := map_eq_cons_iff.1 hrest
    rw [length_map] at hlen
    rw [head?_map] at hshape
    exact ⟨isValid_iff.1 hshape.layout, conv_takesByRole hlen hfull hshape⟩
  | pool2d p =>
    cases hkind
    obtain ⟨sx, hshapes⟩ := inferShape_unary rfl h
    obtain rfl := map_eq_nil_iff.1 (cons.inj hshapes).2
    have hshape := inferPool_eq_ok h
    exact ⟨isValid_iff.1 hshape.layout, pool_takesByRole (hfull x mem_cons_self) hshape⟩
  | _ => cases hkind

theorem Arranged.unique (hv : Arranged m N C S v f) (hw : Arranged m N C S w f) (hm : m.Valid) :
    v = w := by
  refine hv.full.ext_cell hw.full (hv.shape.trans hw.shape.symm) fun index hin => ?_
  rw [hv.shape] at hin
  grind [exists_arrange, cell]

theorem Arranged.exists_transpose (hv : Arranged m N C S v f) (hm : m.Valid) (hm' : m'.Valid)
    (hperm : isPermutation perm 4 = true) (hp : m.permuted perm = some m') :
    ∃ w, (Operator.transpose perm).Yields [v] w ∧ Arranged m' N C S w f := by
  have hlen : perm.length = 4 := (isPermutation_iff.1 hperm).1
  rw [← length_arrange (m := m) (n := N) (c := C) (y := S), ← hv.shape] at hperm
  have hyields : (Operator.transpose perm).Yields [v] (ofFn (perm.map v.shape.extent) fun j =>
    v.cell (sourceIndex perm j)) := ⟨inferTranspose_ok hperm, transpose_ok hv.full hperm⟩
  exact ⟨_, hyields, hv.transpose hm hm' hlen hp hyields⟩

/-- A transposition takes a value to the one that holds the same by role. -/
theorem Arranged.yields_transpose (hv : Arranged m N C S v f) (hw : Arranged m' N C S w f)
    (hm : m.Valid) (hm' : m'.Valid) (hperm : isPermutation perm 4 = true)
    (hp : m.permuted perm = some m') : (Operator.transpose perm).Yields [v] w := by
  obtain ⟨w', hyields, hw'⟩ := hv.exists_transpose hm hm' hperm hp
  rwa [hw'.unique hw hm'] at hyields

theorem withLayout_self (hkind : kind.layout? = some l) : kind.withLayout l = kind := by
  cases kind with
  | conv2d p | pool2d p =>
    cases hkind
    rfl
  | _ => cases hkind

/-- A window yields what it yields in the canonical layout, on data brought into that order and
back. Limits may stop one way or the other, but not change its result. -/
theorem window_in_canonical_layout {lim : Limit} (hkind : kind.layout? = some l)
    (hfull : ∀ v ∈ x :: rest, v.Full)
    (h : kind.inferShape lim ((x :: rest).map (·.shape)) = .ok s) :
    ∃ y x' y' : Value α, y.shape = s ∧ kind.Yields (x :: rest) y ∧
      (Operator.transpose l.roles.canonicalPerm).Yields [x] x' ∧
      (kind.withLayout .nchw).Yields (x' :: rest) y' ∧
      (Operator.transpose l.roles.restoring).Yields [y'] y ∧
      (Operator.transpose l.roles.canonicalPerm).Yields [y] y' ∧
      (∀ data, compute lim kind (x :: rest) s = .ok data → data = y.data) ∧
      ∀ a b c, compute lim (.transpose l.roles.canonicalPerm) [x] x'.shape = .ok a →
        compute lim (kind.withLayout .nchw) (⟨x'.shape, a⟩ :: rest) y'.shape = .ok b →
        compute lim (.transpose l.roles.restoring) [⟨y'.shape, b⟩] s = .ok c → c = y.data := by
  obtain ⟨hl, N, C, S, C', T, g, hx, rfl, htakes⟩ :=
    exists_takesByRole hkind hfull (inferShape_unbounded h)
  have hself := arranged_self (hfull x mem_cons_self) hx
  have hthere := isPermutation_canonicalPerm hl
  have hperm := permuted_canonicalPerm hl
  obtain ⟨x', hthere', hx'⟩ := hself.exists_transpose hl valid_nchw hthere hperm
  obtain ⟨y, hy, hya⟩ := htakes l hl x hself
  obtain ⟨y', hy', hya'⟩ := htakes .nchw valid_nchw x' hx'
  rw [withLayout_self hkind] at hy
  have hback :=
    hya'.yields_transpose hya valid_nchw hl (isPermutation_restoring hl) (permuted_restoring hl)
  have heq : ∀ {kind vs} {z : Value α} {data}, kind.Yields vs z →
      compute lim kind vs z.shape = .ok data →
      data = z.data :=
        fun hz hdata => Except.ok.inj ((conforms_compute _ _ _ _ _ hdata).symm.trans hz.data)
  refine ⟨y, x', y', hya.shape, hy, hthere', hy', hback,
    hya.yields_transpose hya' hl valid_nchw hthere hperm, fun data hdata => ?_,
    fun a b c ha hb hc => ?_⟩
  · exact heq hy (hya.shape.symm ▸ hdata)
  · obtain rfl := heq hthere' ha
    obtain rfl := heq hy' hb
    exact heq hback (hya.shape.symm ▸ hc)

end Operators

/-- A convolution over data with the spatial axes in front, and the batch last. -/
theorem window_in_canonical_layout_spatial_first :
    let p : Conv2d := ⟨⟨1, 2⟩, ⟨1, 1⟩, ⟨⟨1, 0⟩, ⟨0, 1⟩⟩, ⟨3, 2, ⟨0, 1⟩⟩⟩
    let x : Value (Exact default) := ⟨[2, 3, 1, 1], #[⟨1⟩, ⟨2⟩, ⟨3⟩, ⟨4⟩, ⟨5⟩, ⟨6⟩]⟩
    let w : Value (Exact default) := ⟨[1, 1, 2, 2], #[⟨1⟩, ⟨10⟩, ⟨100⟩, ⟨1000⟩]⟩
    compute .word64 (.conv2d p) [x, w] [2, 2, 1, 1] = .ok #[⟨2100⟩, ⟨300⟩, ⟨5421⟩, ⟨603⟩] ∧
      ∃ x' y', (Operator.transpose [3, 2, 0, 1]).Yields [x] x' ∧
        (Operator.conv2d { p with layout := .nchw }).Yields [x', w] y' ∧
        compute .unbounded (.transpose [2, 3, 1, 0]) [y'] [2, 2, 1, 1] =
          .ok #[⟨2100⟩, ⟨300⟩, ⟨5421⟩, ⟨603⟩] := by
  intro p x w
  have hdata : compute .word64 (.conv2d p) [x, w] [2, 2, 1, 1] =
      .ok #[⟨2100⟩, ⟨300⟩, ⟨5421⟩, ⟨603⟩] := by
    decide +kernel
  obtain ⟨y, x', y', hshape, -, hx', hy', hback, -, hlimit, -⟩ := window_in_canonical_layout
    (show (Operator.conv2d p).layout? = _ from rfl) (show ∀ v ∈ [x, w], v.Full by simp [Full, x, w])
    (show Operator.inferShape .word64 _ _ = .ok [2, 2, 1, 1] by decide +kernel)
  refine ⟨hdata, x', y', hx', hy', ?_⟩
  rw [hlimit _ hdata, ← hshape]
  exact hback.data

end CanvasFusion
