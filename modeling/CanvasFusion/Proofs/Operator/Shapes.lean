import CanvasFusion.Proofs.Tiling.GapRule

/-!
# What shape inference says about shapes

Shape inference is a sequence of checks. Here is, in plain arithmetic, what an operator that passed
them says about the extents before and after. In particular the window of a convolution or a pooling
is `Valid` along both spatial axes.
-/

namespace CanvasFusion

open List Pair Shape Limit

/-! ## Extents -/

variable {l : Layout} {order : Pair Dim}

/-- The extent of an axis; zero if there is no such axis. -/
def Shape.extent (s : Shape) (axis : Nat) : Nat := s[axis]?.getD 0

namespace Shape

variable {i n j : Nat} {s : Shape}

theorem getElem?_extent (h : i < s.length) : s[i]? = some (s.extent i) := by
  rw [extent, getElem?_eq_getElem h]
  rfl

theorem entry_ok (h : i < s.length) : Size.entry s i = .ok (s.extent i) :=
  entry_eq_ok.2 (getElem?_extent h)

theorem extent_eq (h : s[i]? = some n) : s.extent i = n := by
  rw [extent, h]
  rfl

theorem withDim_ok (h : i < s.length) (n : Nat) :
    s.withDim i n = .ok (s.set i n) := replace_ok h n

theorem extent_set_self (h : i < s.length) : extent (s.set i n) i = n := by
  simp [extent, h]

theorem extent_set_ne (h : i ≠ j) : extent (s.set i n) j = s.extent j := by
  simp [extent, h]

theorem extent_set (h : i < s.length) : extent (s.set i n) j = if i = j then n else s.extent j := by
  grind [extent_set_self, extent_set_ne]

theorem ext_extent {s' : Shape} (hlen : s.length = s'.length)
    (h : ∀ i < s.length, s.extent i = s'.extent i) : s = s' := by
  refine ext_getElem? fun i => ?_
  grind [getElem?_extent]

theorem set_of_extent_eq (h : s.extent i = n) : s.set i n = s := by
  grind [ext_extent, length_set, extent_set_self, extent_set_ne]

end Shape

/-! ## Axis maps and layouts -/

/-- The four roles are the four axes of a rank-4 tensor. -/
structure AxisMap.Valid (m : AxisMap) : Prop where
  nodup : m.canonicalPerm.Nodup
  lt : ∀ a ∈ m.canonicalPerm, a < 4

namespace AxisMap

variable {m : AxisMap}

section

variable (h : m.Valid)

include h

theorem Valid.batch_lt : m.batch < 4 := h.lt _ (by simp [canonicalPerm])

theorem Valid.channel_lt : m.channel < 4 := h.lt _ (by simp [canonicalPerm])

theorem Valid.fuse_lt (d : Dim) : m.fuse.get d < 4 := by
  cases d <;> exact h.lt _ (by simp [canonicalPerm])

theorem Valid.batch_ne_channel : m.batch ≠ m.channel := by
  have := h.nodup
  simp [canonicalPerm] at this
  tauto

theorem Valid.batch_ne_fuse (d : Dim) : m.batch ≠ m.fuse.get d := by
  have := h.nodup
  simp [canonicalPerm] at this
  cases d <;> simp <;> tauto

theorem Valid.channel_ne_fuse (d : Dim) : m.channel ≠ m.fuse.get d := by
  have := h.nodup
  simp [canonicalPerm] at this
  cases d <;> simp <;> tauto

theorem Valid.fuse_ne : m.fuse.first ≠ m.fuse.second := by
  have := h.nodup
  simp [canonicalPerm] at this
  tauto

/-- Every axis has a role. -/
theorem Valid.axis_cases {i : Nat} (hi : i < 4) :
    i = m.batch ∨ i = m.channel ∨ ∃ d, i = m.fuse.get d := by
  have h₁ := h.batch_lt
  have h₂ := h.channel_lt
  have h₃ := h.fuse_lt .first
  have h₄ := h.fuse_lt .second
  have h₅ := h.batch_ne_channel
  have h₆ := h.batch_ne_fuse .first
  have h₇ := h.batch_ne_fuse .second
  have h₈ := h.channel_ne_fuse .first
  have h₉ := h.channel_ne_fuse .second
  have h₁₀ := h.fuse_ne
  simp only [get_first, get_second] at h₃ h₄ h₆ h₇ h₈ h₉
  by_cases hb : i = m.batch
  · exact .inl hb
  by_cases hc : i = m.channel
  · exact .inr (.inl hc)
  by_cases hf : i = m.fuse.first
  · exact .inr (.inr ⟨.first, hf⟩)
  · exact .inr (.inr ⟨.second, by simp only [get_second]; omega⟩)

end

theorem checkDistinct_eq_ok {seen axes : List Nat} (h : checkDistinct seen axes = .ok ()) :
    axes.Nodup ∧ (∀ a ∈ axes, a < 4) ∧ ∀ a ∈ axes, a ∉ seen := by
  induction axes generalizing seen with
  | nil => exact ⟨nodup_nil, by simp, by simp⟩
  | cons a rest ih =>
    unfold checkDistinct at h
    split_ifs at h with hlt hmem
    obtain ⟨hnodup, hall, hnot⟩ := ih h
    refine ⟨nodup_cons.2 ⟨fun ha => hnot a ha mem_cons_self, hnodup⟩, ?_, ?_⟩
    · grind
    · grind

theorem valid_of_validate (h : m.validate = .ok ()) : m.Valid := by
  obtain ⟨hnodup, hlt, -⟩ := checkDistinct_eq_ok h
  exact ⟨hnodup, hlt⟩

end AxisMap

theorem Layout.isValid_iff : l.isValid = true ↔ (AxisMap.mk l.batch l.channel l.spatial).Valid := by
  simp only [isValid, Bool.and_eq_true, all_eq_true, decide_eq_true_eq]
  exact ⟨fun h => ⟨h.2, h.1⟩, fun h => ⟨h.lt, h.nodup⟩⟩

/-- The spatial dimension of a layout along each dimension of the canvas. -/
theorem AxisMap.spatialOrder_eq_some {m : AxisMap} :
    m.spatialOrder l = some order ↔
      l.batch = m.batch ∧ l.channel = m.channel ∧
        l.spatial.find? m.fuse.first = some order.first ∧
        l.spatial.find? m.fuse.second = some order.second := by
  obtain ⟨a, b⟩ := order
  grind [spatialOrder, Option.bind_eq_some_iff]

theorem Pair.get_of_find? {α : Type} [DecidableEq α] {p : Pair α} {a : α} {d : Dim}
    (h : p.find? a = some d) : p.get d = a := by
  unfold find? at h
  split_ifs at h with h₁ h₂
  · cases h
    exact h₁
  · cases h
    exact h₂

theorem AxisMap.spatial_of_order {m : AxisMap} (h : m.spatialOrder l = some order)
    (d : Dim) : l.spatial.get (order.get d) = m.fuse.get d := by
  obtain ⟨-, -, h₁, h₂⟩ := spatialOrder_eq_some.1 h
  cases d with
  | first => exact get_of_find? h₁
  | second => exact get_of_find? h₂

/-! ## Windows -/

theorem windowOutput_eq_some {size kernel stride dilation o : Nat} {pad : Padding} :
    windowOutput .unbounded size kernel stride dilation pad = .ok (some o) ↔
      (Window.mk kernel stride dilation pad size o).Valid := by
  unfold windowOutput
  split_ifs with h0
  · constructor
    · intro h
      cases h
    · intro h
      have h₁ := h.kernel_pos
      have h₂ := h.stride_pos
      have h₃ := h.dilation_pos
      simp only at h₁ h₂ h₃
      omega
  · simp only [mul_unbounded, add_unbounded, bind_ok]
    split_ifs with hfit
    · constructor
      · intro h
        cases h
        refine ⟨?_, ?_, ?_, hfit, rfl⟩ <;> simp only <;> omega
      · intro h
        have ho : o = _ := h.output_eq
        rw [ho]
        rfl
    · constructor
      · intro h
        cases h
      · intro h
        exact absurd h.fits hfit

namespace Operator

variable {name : String} {axis : Nat} {perm : List Nat} {shapes inputs : List Shape} {x s : Shape}
  {misfit : Nat → OperatorIssue} {layout : Layout} {p : Conv2d}

/-- The spatial extents of `s` come from windows over `x`, and the others from `out`. -/
structure Slid (layout : Layout) (x : Shape) (kernel stride dilation : Pair Nat)
    (pad : Pair Padding) (out s : Shape) : Prop where
  rank_eq : s.length = out.length
  window : ∀ d, (Window.mk (kernel.get d) (stride.get d) (dilation.get d) (pad.get d)
    (x.extent (layout.spatial.get d)) (s.extent (layout.spatial.get d))).Valid
  off : ∀ i, (∀ d, i ≠ layout.spatial.get d) → s.extent i = out.extent i

/-- A slide along one dimension. -/
theorem slideStep_eq_ok {cur next : Shape} {kernel stride dilation : Nat} {pad : Padding} : (do
      let extent ← Size.entry x axis
      match ← windowOutput .unbounded extent kernel stride dilation pad with
      | none => invalid name (misfit axis)
      | some o => cur.withDim axis o : Except GraphError Shape) = .ok next ↔
    ∃ o, axis < x.length ∧ axis < cur.length ∧ next = cur.set axis o ∧
      (Window.mk kernel stride dilation pad (x.extent axis) o).Valid := by
  constructor
  · intro h
    obtain ⟨extent, hext, h⟩ := bind_eq_ok.1 h
    obtain ⟨r, hr, h⟩ := bind_eq_ok.1 h
    rw [lift_fault_graph_eq_ok] at hext hr
    rw [entry_eq_ok] at hext
    cases r with
    | none => cases h
    | some o =>
      obtain ⟨hcur, rfl⟩ := replace_eq_ok.1 (lift_fault_graph_eq_ok.1 h)
      grind [extent_eq, windowOutput_eq_some]
  · rintro ⟨o, hx, hcur, rfl, hw⟩
    rw [entry_ok hx, lift_fault_graph_ok, bind_ok, windowOutput_eq_some.2 hw, lift_fault_graph_ok,
      bind_ok]
    exact lift_fault_graph_eq_ok.2 (withDim_ok hcur o)

theorem slide_eq_ok {kernel stride dilation : Pair Nat} {pad : Pair Padding} {out : Shape}
    (hl : layout.isValid = true) (hout : out.length = 4)
    (h : slide .unbounded name misfit layout x kernel stride dilation pad out = .ok s) :
    Slid layout x kernel stride dilation pad out s := by
  have hv := Layout.isValid_iff.1 hl
  have hne : layout.spatial.first ≠ layout.spatial.second := hv.fuse_ne
  have hlt : ∀ d, layout.spatial.get d < 4 := hv.fuse_lt
  unfold slide Dim.all at h
  rw [foldlM_cons, bind_eq_ok] at h
  obtain ⟨mid, hmid, h⟩ := h
  rw [foldlM_cons, bind_eq_ok] at h
  obtain ⟨last, hlast, h⟩ := h
  cases h
  obtain ⟨o₁, -, -, rfl, hw₁⟩ := slideStep_eq_ok.1 hmid
  have hlen : (out.set (layout.spatial.get .first) o₁).length = 4 := by rw [length_set, hout]
  obtain ⟨o₂, -, -, rfl, hw₂⟩ := slideStep_eq_ok.1 hlast
  have hl₁ : layout.spatial.first < out.length := hout ▸ hlt .first
  have hl₂ : layout.spatial.second < (out.set layout.spatial.first o₁).length :=
    hlen ▸ hlt .second
  refine ⟨by simp, ?_, ?_⟩
  · intro d
    cases d with
    | first => grind [extent, get_first, get_second]
    | second => grind [extent_set_self]
  · intro i hi
    rw [extent_set_ne (hi .second).symm, extent_set_ne (hi .first).symm]

theorem checkLayout_eq_ok (h : checkLayout name layout x = .ok ()) :
    x.length = 4 ∧ layout.isValid = true := by
  unfold checkLayout at h
  obtain ⟨hr, h⟩ := of_guard h
  refine ⟨not_not.1 hr, ?_⟩
  by_contra hl
  rw [Bool.not_eq_true] at hl
  simp [hl, invalid] at h

/-- What a convolution says about shapes. -/
structure ConvShape (p : Conv2d) (x w : Shape) (bias : Option Shape) (s : Shape) : Prop where
  rank : x.length = 4
  layout : p.layout.isValid = true
  weight_rank : w.length = 4
  channels : w.extent 1 = x.extent p.layout.channel
  bias_shape : ∀ b, bias = some b → b = [w.extent 0]
  slid : Slid p.layout x ⟨w.extent 2, w.extent 3⟩ p.stride p.dilation p.pad
    (x.set p.layout.channel (w.extent 0)) s

theorem inferConv_eq_ok {w : Shape} {bias : Option Shape}
    (h : inferConv .unbounded p x w bias = .ok s) : ConvShape p x w bias s := by
  unfold inferConv at h
  rw [bind_eq_ok] at h
  obtain ⟨_, hc, h⟩ := h
  obtain ⟨hx, hl⟩ := checkLayout_eq_ok hc
  have hch : p.layout.channel < x.length := hx ▸ (Layout.isValid_iff.1 hl).channel_lt
  split at h
  · rename_i o i kh kw
    rw [bind_eq_ok] at h
    obtain ⟨channels, hchannels, h⟩ := h
    rw [lift_fault_graph_eq_ok, entry_eq_ok] at hchannels
    obtain ⟨hi, h⟩ := of_guard h
    have hb : ∀ b, bias = some b → b = [o] := by
      rintro b rfl
      exact not_not.1 (of_guard h).1
    have hslide : slide .unbounded "conv2d" .kernelFit p.layout x ⟨kh, kw⟩ p.stride p.dilation
        p.pad (x.set p.layout.channel o) = .ok s := by
      cases bias with
      | none => simpa [withDim_ok hch, bind_ok] using h
      | some b => simpa [withDim_ok hch, bind_ok] using (of_guard h).2
    refine ⟨hx, hl, rfl, ?_, hb, slide_eq_ok hl (by rw [length_set, hx]) hslide⟩
    rw [extent_eq hchannels]
    exact not_not.1 hi
  · cases h

/-- What a pooling says about shapes. -/
structure PoolShape (p : Pool2d) (x s : Shape) : Prop where
  rank : x.length = 4
  layout : p.layout.isValid = true
  slid : Slid p.layout x p.kernel p.stride (.both 1) p.pad x s

theorem inferPool_eq_ok {p : Pool2d} (h : inferPool .unbounded p x = .ok s) : PoolShape p x s := by
  unfold inferPool at h
  rw [bind_eq_ok] at h
  obtain ⟨_, hc, h⟩ := h
  obtain ⟨hx, hl⟩ := checkLayout_eq_ok hc
  exact ⟨hx, hl, slide_eq_ok hl hx h⟩

/-! ## Other operators -/

/-- What a padding says about shapes. -/
structure PadShape (p : ConstantPad) (x s : Shape) : Prop where
  front_rank : p.front.length = x.length
  back_rank : p.back.length = x.length
  rank_eq : s.length = x.length
  extent_eq : ∀ i < x.length,
    s.extent i = x.extent i + extent p.front i + extent p.back i

theorem inferPad_eq_ok {p : ConstantPad} (h : inferPad .unbounded p x = .ok s) :
    PadShape p x s := by
  unfold inferPad at h
  obtain ⟨hr, h⟩ := of_guard h
  rw [not_or, not_not, not_not] at hr
  obtain ⟨hf, hb⟩ := hr
  rw [mapM_ok (g := fun e => e.1 + e.2.1 + e.2.2)] at h
  swap
  · exact fun _ _ => rfl
  cases h
  have hlen : (x.zip (p.front.zip p.back)).length = x.length := by
    simp only [length_zip, hf, hb, rank, Nat.min_self]
  refine ⟨hf, hb, by rw [length_map, hlen], fun i hi => ?_⟩
  grind [extent]

theorem isPermutation_iff {rank : Nat} :
    isPermutation perm rank = true ↔
      perm.length = rank ∧ (∀ a ∈ perm, a < rank) ∧ perm.Nodup := by
  simp only [isPermutation, Bool.and_eq_true, beq_iff_eq, all_eq_true, decide_eq_true_eq,
    and_assoc]

theorem permuted_ok (h : ∀ a ∈ perm, a < x.length) : x.permuted perm = .ok (perm.map x.extent) :=
  mapM_ok fun a ha => entry_ok (h a ha)

theorem inferTranspose_eq_ok (h : inferTranspose perm x = .ok s) :
    isPermutation perm x.length = true ∧ s = perm.map x.extent := by
  unfold inferTranspose at h
  obtain ⟨hp, h⟩ := of_guard h
  have hp : isPermutation perm x.rank = true := by simpa using hp
  rw [lift_fault_graph_eq_ok, permuted_ok (isPermutation_iff.1 hp).2.1] at h
  cases h
  exact ⟨hp, rfl⟩

theorem count_unbounded (s : Shape) : s.count .unbounded = .ok s.prod := by
  have h : ∀ n, s.foldlM unbounded.mul n = (.ok (n * s.prod) : Except Fault Nat) := by
    induction s with
    | nil =>
      intro n
      simp
      rfl
    | cons d ds ih =>
      intro n
      rw [foldlM_cons, mul_unbounded, bind_ok, ih, prod_cons, Nat.mul_assoc]
  rw [Shape.count, Limit.product, h, Nat.one_mul]

theorem inferReshape_eq_ok {target : Shape} (h : inferReshape .unbounded target x = .ok s) :
    s = target ∧ target.prod = x.prod := by
  unfold inferReshape at h
  simp only [count_unbounded, lift_fault_graph_ok, bind_ok] at h
  obtain ⟨heq, h⟩ := of_guard h
  cases h
  exact ⟨rfl, not_not.1 heq⟩

theorem agreeOff_iff :
    agreeOff axis s x = true ↔
      s.length = x.length ∧ ∀ i < s.length, i = axis ∨ s.extent i = x.extent i := by
  simp only [agreeOff, Bool.and_eq_true, beq_iff_eq, rank]
  refine and_congr_right fun hlen => ?_
  rw [all_eq_true]
  constructor
  · intro h i hi
    have hi' : i < x.length := hlen ▸ hi
    have hmem : ((s[i], x[i]), i) ∈ (s.zip x).zipIdx := by grind
    have := h _ hmem
    simp only [Bool.or_eq_true, beq_iff_eq] at this
    rw [extent_eq (getElem?_eq_getElem hi),
      extent_eq (getElem?_eq_getElem hi')]
    exact this
  · rintro h ⟨⟨a, b⟩, i⟩ hmem
    rw [mem_zipIdx_iff_getElem?, getElem?_zip_eq_some] at hmem
    simp only at hmem
    have hi : i < s.length := (List.getElem?_eq_some_iff.1 hmem.1).1
    have := h i hi
    rw [extent_eq hmem.1, extent_eq hmem.2] at this
    simpa only [Bool.or_eq_true, beq_iff_eq] using this

/-- What a concatenation says about shapes. -/
structure ConcatShape (axis : Nat) (x : Shape) (inputs : List Shape) (s : Shape) : Prop where
  axis_lt : axis < x.length
  agree : ∀ y ∈ inputs, y.length = x.length ∧ ∀ i < y.length, i = axis ∨ y.extent i = x.extent i
  shape_eq : s = x.set axis (inputs.map fun y => y.extent axis).sum

theorem inferConcat_eq_ok
    (h : inferConcat .unbounded axis x inputs = .ok s) : ConcatShape axis x inputs s := by
  unfold inferConcat at h
  obtain ⟨hax, h⟩ := of_guard h
  have haxis : axis < x.length := Nat.lt_of_not_le hax
  obtain ⟨total, htotal, h⟩ := bind_eq_ok.1 h
  have hfold : ∀ (ys : List Shape) (n m : Nat), (ys.foldlM (fun (total : Nat) (s : Shape) => do
        if !agreeOff axis s x then invalid "concat" (.concat s x axis)
        let extent ← Size.entry s axis
        let total ← unbounded.add total extent
        pure total) n : Except GraphError Nat) = .ok m →
      (∀ y ∈ ys, agreeOff axis y x = true) ∧ m = n + (ys.map fun y => y.extent axis).sum := by
    intro ys
    induction ys with
    | nil =>
      intro n m hm
      cases hm
      simp
    | cons y ys ih =>
      intro n m hm
      rw [foldlM_cons, bind_eq_ok] at hm
      obtain ⟨n', hn', hm⟩ := hm
      obtain ⟨hy, hn'⟩ := of_guard hn'
      have hy : agreeOff axis y x = true := by simpa using hy
      have hlt : axis < y.length := (agreeOff_iff.1 hy).1 ▸ haxis
      simp [entry_ok hlt, bind_ok] at hn'
      grind
  obtain ⟨hagree, rfl⟩ := hfold inputs 0 total htotal
  rw [lift_fault_graph_eq_ok, withDim_ok haxis, Nat.zero_add] at h
  cases h
  exact ⟨haxis, fun y hy => agreeOff_iff.1 (hagree y hy), rfl⟩

/-- What a slice says about shapes. -/
structure SliceShape (start size x : Shape) : Prop where
  start_rank : start.length = x.length
  size_rank : size.length = x.length
  within : ∀ i < x.length, 0 < size.extent i ∧ start.extent i + size.extent i ≤ x.extent i

theorem forM_eq_ok {α ε : Type} {f : α → Except ε Unit} {xs : List α} :
    xs.forM f = .ok () ↔ ∀ a ∈ xs, f a = .ok () := by
  induction xs with
  | nil => exact ⟨fun _ a ha => (by cases ha), fun _ => rfl⟩
  | cons a xs ih =>
    change (f a >>= fun _ => xs.forM f) = .ok () ↔ _
    rw [bind_eq_ok, forall_mem_cons, ← ih]
    grind

theorem inferSlice_eq_ok {start size s : Shape}
    (h : inferSlice .unbounded start size x = .ok s) : s = size ∧ SliceShape start size x := by
  unfold inferSlice at h
  obtain ⟨hr, h⟩ := of_guard h
  rw [not_or, not_not, not_not] at hr
  obtain ⟨hstart, hsize⟩ := hr
  rw [bind_eq_ok] at h
  obtain ⟨u, hall, h⟩ := h
  cases h
  rw [forM_eq_ok] at hall
  refine ⟨rfl, hstart, hsize, fun i hi => ?_⟩
  have hs : i < start.length := hstart ▸ hi
  have hz : i < size.length := hsize ▸ hi
  have hmem : ((start[i], size[i], x[i]), i) ∈ (start.zip (size.zip x)).zipIdx := by grind
  obtain ⟨h0, hchk⟩ := of_guard (hall _ hmem)
  simp only at h0
  rw [extent_eq (getElem?_eq_getElem hs), extent_eq (getElem?_eq_getElem hz),
    extent_eq (getElem?_eq_getElem hi)]
  by_cases hlt : x[i] < start[i] + size[i]
  · simp [hlt, invalid, bind_ok] at hchk
  · omega

/-! ## Operands -/

theorem inferShape_conv (h : inferShape .unbounded (.conv2d p) shapes = .ok s) :
    ∃ x w rest, shapes = x :: w :: rest ∧ rest.length ≤ 1 ∧ ConvShape p x w rest.head? s := by
  rcases shapes with _ | ⟨x, _ | ⟨w, _ | ⟨b, _ | ⟨c, rest⟩⟩⟩⟩
  · cases h
  · cases h
  · exact ⟨x, w, [], rfl, by simp, inferConv_eq_ok h⟩
  · exact ⟨x, w, [b], rfl, by simp, inferConv_eq_ok h⟩
  · cases h

/-- The operators of one input. -/
def isUnary : Operator → Bool
  | .conv2d _ | .binary _ | .concat _ => false
  | _ => true

theorem inferShape_unary {op : Operator} (hop : op.isUnary = true)
    (h : inferShape .unbounded op shapes = .ok s) : ∃ x, shapes = [x] := by
  rcases shapes with _ | ⟨x, _ | ⟨w, rest⟩⟩
  · cases op <;> cases h
  · exact ⟨x, rfl⟩
  · cases op with
    | conv2d p | binary k | concat a => cases hop
    | pool2d | pad | activation | reduce | transpose | reshape | slice | softmax => cases h

theorem inferShape_binary {kind : BinaryKind}
    (h : inferShape .unbounded (.binary kind) shapes = .ok s) :
    ∃ a b, shapes = [a, b] ∧ broadcast a b = .ok s := by
  rcases shapes with _ | ⟨a, _ | ⟨b, _ | ⟨c, rest⟩⟩⟩
  · cases h
  · cases h
  · exact ⟨a, b, rfl, h⟩
  · cases h

theorem inferShape_concat (h : inferShape .unbounded (.concat axis) shapes = .ok s) :
    ∃ x rest, shapes = x :: rest ∧ ConcatShape axis x (x :: rest) s := by
  rcases shapes with _ | ⟨x, rest⟩
  · cases h
  · exact ⟨x, rest, rfl, inferConcat_eq_ok h⟩

end Operator

end CanvasFusion
