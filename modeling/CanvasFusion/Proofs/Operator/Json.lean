import CanvasFusion.Operator.Json
import CanvasFusion.Proofs.Json.Decoded

/-!
# Operators are read back from JSON

Each record of parameters has two lemmas: it is read back from its members if its sizes are in range
(`ofJson?_toJson`, `ofParameters?_parameters`), and the reader gives no others (`ofParameters?_lt`).
The tag and the parameters are members of one object, which is taken in whole before the tag is
looked at, so everything that is written also has to be readable and not nested too deep.
-/

namespace CanvasFusion

open Json Numeral List Option Pair Bool Layout

attribute [local simp] Json.required Json.withDefault Json.choice? Conv2d.ofJson? Pool2d.ofJson?
  ConstantPad.ofJson? Operator.ofParameters?

/-! ## Names -/

theorem PoolKind.lookup_nameIn (k : PoolKind) : names.lookup (nameIn names k) = some k := by
  cases k <;> rfl

theorem BinaryKind.lookup_nameIn (k : BinaryKind) : names.lookup (nameIn names k) = some k := by
  cases k <;> rfl

theorem ReduceKind.lookup_nameIn (k : ReduceKind) : names.lookup (nameIn names k) = some k := by
  cases k <;> rfl

/-! ## Parameters -/

def Padding.sizes (p : Padding) : List Nat := [p.front, p.back]

theorem Layout.ofJson?_toJson {l : Layout} (h : ∀ n ∈ l.axes, n < wordSize) :
    Layout.ofJson? l.toJson = some l := by
  have hf : l.toJson.fields? ["batch", "channel", "spatial"] =
      some [some (.ofNat l.batch), some (.ofNat l.channel), some (.ofNats l.spatial.toList)] :=
    fields?_present (by decide) rfl rfl
  simp only [axes, forall_mem_cons] at h
  simp [ofJson?, hf, nat?_ofNat, h, ofNats, pair?, Pair.toList]

theorem pair?_ofNats {p : Pair Nat} (h : ∀ n ∈ p.toList, n < wordSize) :
    pair? nat? (.ofNats p.toList) = some p := by
  simp only [Pair.toList, forall_mem_cons] at h
  simp [ofNats, pair?, Pair.toList, nat?_ofNat, h]

theorem list?_ofNats {ns : List Nat} (h : ∀ n ∈ ns, n < wordSize) :
    list? nat? (.ofNats ns) = some ns := by
  have hlist : Recovers (list? nat?) ofNats (flatMap fun _ => []) ns :=
    list?_map fun n hn => nat?_ofNat (h n hn)
  have hnil : (ns.flatMap fun _ => ([] : List Single)) = [] :=
    flatMap_eq_nil_iff.2 fun _ _ => rfl
  rw [hlist, hnil]
  rfl

theorem Padding.ofJson?_toJson {p : Padding} (h : ∀ n ∈ p.sizes, n < wordSize) :
    Padding.ofJson? p.toJson = some p := by
  have hpair : pair? nat? p.toJson = some ⟨p.front, p.back⟩ := @pair?_ofNats ⟨p.front, p.back⟩ h
  rw [Padding.ofJson?, hpair]
  rfl

theorem pair?_paddings {p : Pair Padding} (h : ∀ n ∈ p.toList.flatMap Padding.sizes, n < wordSize) :
    pair? Padding.ofJson? (.arr (p.toList.map Padding.toJson)) = some p := by
  simp only [Pair.toList, flatMap_cons, forall_mem_append] at h
  simp [pair?, Pair.toList, Padding.ofJson?_toJson h.1, Padding.ofJson?_toJson h.2.1]

namespace Operator

variable {c : Codec} {j : Json} {depth : Nat}

/-- The sizes, axes and extents of an operator. -/
def sizes : Operator → List Nat
  | .conv2d p => p.stride.toList ++ (p.dilation.toList ++
      (p.pad.toList.flatMap Padding.sizes ++ p.layout.axes))
  | .pool2d p => p.kernel.toList ++ (p.stride.toList ++
      (p.pad.toList.flatMap Padding.sizes ++ p.layout.axes))
  | .pad p => p.front ++ p.back
  | .reduce _ axes _ => axes
  | .transpose perm => perm
  | .reshape target => target
  | .concat axis => [axis]
  | .slice start size => start ++ size
  | .softmax axis => [axis]
  | .activation _ | .binary _ => []

/-- The numbers of an operator that are not integers. -/
def singles : Operator → List Single
  | .pad p => [p.value]
  | .activation (.leakyRelu alpha) => [alpha]
  | _ => []

variable {op : Operator} {p : Pair Padding} {l : Layout} {ns : List Nat} {vs : List Json}
  {ms : List (String × Json)}

theorem fields?_parameters (op : Operator) :
    (object (op.parameters c)).fields? ((op.parameters c).map Prod.fst) =
      some ((op.parameters c).map fun m => some m.2) :=
  fields?_object (by cases op <;> simp [parameters])

theorem activation_ofJson?_toJson (hc : c.Lawful) (f : Activation) :
    Activation.ofJson? c true (f.toJson c) = ifFinite (singles (.activation f)) f := by
  cases f with
  | leakyRelu alpha =>
    have ha : fields? ["alpha"] (.obj [(some "alpha", c.ofSingle alpha)]) =
        some [some (c.ofSingle alpha)] := fields?_present (by decide) rfl rfl
    simp [Activation.ofJson?, Activation.toJson, object, ha, hc.single?_ofSingle, singles]
  | relu | relu6 | sigmoid | tanh => rfl

theorem ofParameters?_parameters (hc : c.Lawful) (h : ∀ n ∈ op.sizes, n < wordSize) :
    ofParameters? c op.name (object (op.parameters c)) = ifFinite op.singles op := by
  have hf := fields?_parameters (c := c) op
  cases op <;> simp only [parameters, ofText, map_cons, map_nil] at hf ⊢
  case conv2d p =>
    simp only [sizes, forall_mem_append] at h
    obtain ⟨hstride, hdilation, hpad, hlayout⟩ := h
    simp [name, hf, pair?_ofNats hstride, pair?_ofNats hdilation, pair?_paddings hpad,
      ofJson?_toJson hlayout, singles]
  case pool2d p =>
    simp only [sizes, forall_mem_append] at h
    obtain ⟨hkernel, hstride, hpad, hlayout⟩ := h
    simp [name, hf, PoolKind.lookup_nameIn, pair?_ofNats hkernel, pair?_ofNats hstride,
      pair?_paddings hpad, ofJson?_toJson hlayout, singles]
  case pad p =>
    simp only [sizes, forall_mem_append] at h
    simp [name, hf, list?_ofNats h.1, list?_ofNats h.2, hc.single?_ofSingle, singles]
  case activation f => simp [name, hf, activation_ofJson?_toJson hc]
  case binary k => simp [name, hf, BinaryKind.lookup_nameIn, singles]
  case reduce k axes keepDims =>
    simp only [sizes] at h
    simp [name, hf, ReduceKind.lookup_nameIn, list?_ofNats h, bool?, singles]
  case transpose | reshape =>
    simp only [sizes] at h
    simp [name, hf, list?_ofNats h, singles]
  case concat axis | softmax axis => simp [name, hf, nat?_ofNat (h axis mem_cons_self), singles]
  case slice start size =>
    simp only [sizes, forall_mem_append] at h
    simp [name, hf, list?_ofNats h.1, list?_ofNats h.2, singles]

/-! ## Bounds -/

theorem padding_lt {p : Padding} (h : Padding.ofJson? j = some p) :
    ∀ n ∈ p.sizes, n < wordSize := by
  obtain ⟨q, hq, rfl⟩ := map_eq_some_iff.1 h
  exact pair?_mem (fun _ _ => nat?_lt) hq

theorem paddings_lt (h : pair? Padding.ofJson? j = some p) :
    ∀ n ∈ p.toList.flatMap Padding.sizes, n < wordSize := by
  intro n hn
  obtain ⟨q, hq, hn⟩ := mem_flatMap.1 hn
  exact pair?_mem (fun _ _ => padding_lt) h q hq n hn

theorem layout_lt (h : Layout.ofJson? j = some l) : ∀ n ∈ l.axes, n < wordSize := by
  obtain ⟨fields, -, h⟩ := bind_eq_some_iff.1 h
  split at h
  · obtain ⟨batch, hbatch, h⟩ := bind_eq_some_iff.1 h
    obtain ⟨channel, hchannel, h⟩ := bind_eq_some_iff.1 h
    obtain ⟨spatial, hspatial, h⟩ := bind_eq_some_iff.1 h
    cases h
    have hs := required_mem (fun _ _ => pair?_mem (fun _ _ => nat?_lt)) hspatial
    simp [axes, Pair.toList] at hs ⊢
    exact ⟨required_mem (fun _ _ => nat?_lt) hbatch, required_mem (fun _ _ => nat?_lt) hchannel, hs⟩
  · cases h

theorem conv2d_lt {p : Conv2d} (h : Conv2d.ofJson? j = some p) :
    ∀ n ∈ sizes (.conv2d p), n < wordSize := by
  obtain ⟨fields, -, h⟩ := bind_eq_some_iff.1 h
  split at h
  · obtain ⟨stride, hstride, h⟩ := bind_eq_some_iff.1 h
    obtain ⟨dilation, hdilation, h⟩ := bind_eq_some_iff.1 h
    obtain ⟨pad, hpad, h⟩ := bind_eq_some_iff.1 h
    obtain ⟨layout, hlayout, h⟩ := bind_eq_some_iff.1 h
    cases h
    simp only [sizes, forall_mem_append]
    exact ⟨withDefault_mem (fun _ _ => pair?_mem fun _ _ => nat?_lt) (by decide) hstride,
      withDefault_mem (fun _ _ => pair?_mem fun _ _ => nat?_lt) (by decide) hdilation,
      withDefault_mem (fun _ _ => paddings_lt) (by decide) hpad,
      withDefault_mem (fun _ _ => layout_lt) (by decide) hlayout⟩
  · cases h

theorem pool2d_lt {p : Pool2d} (h : Pool2d.ofJson? j = some p) :
    ∀ n ∈ sizes (.pool2d p), n < wordSize := by
  obtain ⟨fields, -, h⟩ := bind_eq_some_iff.1 h
  split at h
  · obtain ⟨kind, -, h⟩ := bind_eq_some_iff.1 h
    obtain ⟨kernel, hkernel, h⟩ := bind_eq_some_iff.1 h
    obtain ⟨stride, hstride, h⟩ := bind_eq_some_iff.1 h
    obtain ⟨pad, hpad, h⟩ := bind_eq_some_iff.1 h
    obtain ⟨layout, hlayout, h⟩ := bind_eq_some_iff.1 h
    cases h
    simp only [sizes, forall_mem_append]
    exact ⟨required_mem (fun _ _ => pair?_mem fun _ _ => nat?_lt) hkernel,
      withDefault_mem (fun _ _ => pair?_mem fun _ _ => nat?_lt) (by decide) hstride,
      withDefault_mem (fun _ _ => paddings_lt) (by decide) hpad,
      withDefault_mem (fun _ _ => layout_lt) (by decide) hlayout⟩
  · cases h

theorem list_lt {field : Option Json} (h : required (list? nat?) field = some ns) :
    ∀ n ∈ ns, n < wordSize :=
  required_mem (fun _ _ => list?_mem fun _ _ => nat?_lt) h

theorem pad_lt {p : ConstantPad} (h : ConstantPad.ofJson? c j = some p) :
    ∀ n ∈ sizes (.pad p), n < wordSize := by
  obtain ⟨fields, -, h⟩ := bind_eq_some_iff.1 h
  split at h
  · obtain ⟨front, hfront, h⟩ := bind_eq_some_iff.1 h
    obtain ⟨back, hback, h⟩ := bind_eq_some_iff.1 h
    obtain ⟨value, -, h⟩ := bind_eq_some_iff.1 h
    cases h
    simp only [sizes, forall_mem_append]
    exact ⟨list_lt hfront, list_lt hback⟩
  · cases h

/-- What is read from a record with one member. -/
theorem member_eq_some {α : Type} {key : String} {read : Option Json → Option α}
    {make : α → Operator}
    (h : (do match ← j.fields? [key] with | [field] => (read field).map make | _ => none) =
      some op) :
    ∃ field a, read field = some a ∧ make a = op := by
  grind [bind_eq_some_iff, map_eq_some_iff]

theorem ofParameters?_lt {name : String} (h : ofParameters? c name j = some op) :
    ∀ n ∈ op.sizes, n < wordSize := by
  unfold ofParameters? at h
  split at h
  · obtain ⟨p, hp, rfl⟩ := map_eq_some_iff.1 h
    exact conv2d_lt hp
  · obtain ⟨p, hp, rfl⟩ := map_eq_some_iff.1 h
    exact pool2d_lt hp
  · obtain ⟨p, hp, rfl⟩ := map_eq_some_iff.1 h
    exact pad_lt hp
  · obtain ⟨_, f, -, rfl⟩ := member_eq_some h
    exact forall_mem_nil _
  · obtain ⟨_, k, -, rfl⟩ := member_eq_some h
    exact forall_mem_nil _
  · obtain ⟨fields, -, h⟩ := bind_eq_some_iff.1 h
    split at h
    · obtain ⟨kind, -, h⟩ := bind_eq_some_iff.1 h
      obtain ⟨axes, haxes, h⟩ := bind_eq_some_iff.1 h
      obtain ⟨keepDims, -, h⟩ := bind_eq_some_iff.1 h
      cases h
      exact list_lt haxes
    · cases h
  · obtain ⟨_, perm, hperm, rfl⟩ := member_eq_some h
    exact list_lt hperm
  · obtain ⟨_, target, htarget, rfl⟩ := member_eq_some h
    exact list_lt htarget
  · obtain ⟨_, axis, haxis, rfl⟩ := member_eq_some h
    exact forall_mem_singleton.2 (required_mem (fun _ _ => nat?_lt) haxis)
  · obtain ⟨fields, -, h⟩ := bind_eq_some_iff.1 h
    split at h
    · obtain ⟨start, hstart, h⟩ := bind_eq_some_iff.1 h
      obtain ⟨size, hsize, h⟩ := bind_eq_some_iff.1 h
      cases h
      exact forall_mem_append.2 ⟨list_lt hstart, list_lt hsize⟩
    · cases h
  · obtain ⟨_, axis, haxis, rfl⟩ := member_eq_some h
    exact forall_mem_singleton.2 (required_mem (fun _ _ => nat?_lt) haxis)
  · cases h

theorem ofJson?_lt (h : ofJson? c depth j = some op) : ∀ n ∈ op.sizes, n < wordSize := by
  unfold ofJson? at h
  cases hr : j.readable c depth with
  | false => simp [hr] at h
  | true =>
    simp only [hr, Bool.not_true, false_eq_true, if_false] at h
    split at h
    · split at h
      · obtain ⟨name, -, h⟩ := bind_eq_some_iff.1 h
        exact ofParameters?_lt h
      · cases h
    · obtain ⟨name, -, h⟩ := bind_eq_some_iff.1 h
      exact ofParameters?_lt h
    · cases h

/-! ## Whole operators -/

attribute [local simp] readable readableItems readableMembers

theorem readable_ofNat {n : Nat} (h : n < wordSize) : (Json.ofNat n).readable c depth = true := by
  simp [Json.ofNat, toInt?_ofNat h]

theorem readable_ofSingle (hc : c.Lawful) (x : Single) :
    (c.ofSingle x).readable c depth = true := by
  cases hx : x.isFinite with
  | false => simp [hc.notFinite hx]
  | true =>
    obtain ⟨n, -, hn, hread⟩ := hc.finite hx
    simp [hn, hread]

theorem readableItems_iff :
    readableItems c depth vs = true ↔ ∀ v ∈ vs, v.readable c depth = true := by
  induction vs with
  | nil => simp
  | cons v vs ih => simp [ih]

theorem readable_arr (h : ∀ v ∈ vs, v.readable c depth = true) :
    Json.readable c (depth + 1) (.arr vs) = true := by
  simp [readableItems_iff.2 h]

theorem readableMembers_object :
    readableMembers c depth (ms.map fun (k, v) => (some k, v)) = true ↔
      ∀ m ∈ ms, m.2.readable c depth = true := by
  induction ms with
  | nil => simp
  | cons m ms ih =>
    rw [map_cons, readableMembers, forall_mem_cons, and_eq_true, and_eq_true,
      ih]
    simp

theorem readable_ofNats (h : ∀ n ∈ ns, n < wordSize) :
    (Json.ofNats ns).readable c (depth + 1) = true := by
  refine readable_arr fun v hv => ?_
  obtain ⟨n, hn, rfl⟩ := mem_map.1 hv
  exact readable_ofNat (h n hn)

theorem readable_object :
    (object ms).readable c (depth + 1) = true ↔ ∀ m ∈ ms, m.2.readable c depth = true := by
  simp [object, readableMembers_object]

theorem readable_paddings (h : ∀ n ∈ p.toList.flatMap Padding.sizes, n < wordSize) :
    Json.readable c (depth + 2) (.arr (p.toList.map Padding.toJson)) = true := by
  refine readable_arr fun v hv => ?_
  obtain ⟨q, hq, rfl⟩ := mem_map.1 hv
  exact readable_ofNats fun n hn => h n (mem_flatMap.2 ⟨q, hq, hn⟩)

theorem readable_layout (h : ∀ n ∈ l.axes, n < wordSize) :
    l.toJson.readable c (depth + 2) = true := by
  simp only [axes, forall_mem_cons] at h
  have hspatial : (ofNats l.spatial.toList).readable c (depth + 1) = true :=
    readable_ofNats (by simpa [Pair.toList] using h.2.2)
  simp [Layout.toJson, readable_object, hspatial, readable_ofNat, h]

theorem readable_activation (hc : c.Lawful) (f : Activation) :
    (f.toJson c).readable c (depth + 2) = true := by
  cases f with
  | leakyRelu alpha => simp [Activation.toJson, readable_object, readable_ofSingle hc]
  | relu | relu6 | sigmoid | tanh => rfl

theorem readable_parameters (hc : c.Lawful) (h : ∀ n ∈ op.sizes, n < wordSize) :
    ∀ m ∈ op.parameters c, m.2.readable c (depth + 2) = true := by
  cases op <;> simp only [sizes, forall_mem_append, forall_mem_singleton] at h <;>
    simp only [parameters, forall_mem_cons]
  case conv2d p =>
    exact ⟨readable_ofNats h.1, readable_ofNats h.2.1, readable_paddings h.2.2.1,
      readable_layout h.2.2.2, forall_mem_nil _⟩
  case pool2d p =>
    exact ⟨rfl, readable_ofNats h.1, readable_ofNats h.2.1, readable_paddings h.2.2.1,
      readable_layout h.2.2.2, forall_mem_nil _⟩
  case pad p =>
    exact ⟨readable_ofNats h.1, readable_ofNats h.2, readable_ofSingle hc _, forall_mem_nil _⟩
  case activation f => exact ⟨readable_activation hc f, forall_mem_nil _⟩
  case binary k => exact ⟨rfl, forall_mem_nil _⟩
  case reduce k axes keepDims =>
    exact ⟨rfl, readable_ofNats h, rfl, forall_mem_nil _⟩
  case transpose | reshape => exact ⟨readable_ofNats h, forall_mem_nil _⟩
  case concat | softmax => exact ⟨readable_ofNat h, forall_mem_nil _⟩
  case slice start size =>
    exact ⟨readable_ofNats h.1, readable_ofNats h.2, forall_mem_nil _⟩

theorem op_notMem_parameters (op : Operator) : ∀ m ∈ op.parameters c, m.1 ≠ "op" := by
  cases op <;> simp [parameters]

/-- An operator is read back from what was written for it. -/
theorem ofJson?_toJson (hc : c.Lawful) (h : ∀ n ∈ op.sizes, n < wordSize) :
    ofJson? c (depth + 3) (op.toJson c) = ifFinite op.singles op := by
  have hread : (op.toJson c).readable c (depth + 3) = true := by
    refine readable_object.2 (forall_mem_cons.2 ⟨rfl, readable_parameters hc h⟩)
  have hnot := op_notMem_parameters (c := c) op
  have hunder : under "op" ((("op", ofText op.name) :: op.parameters c).map
      fun (k, v) => (some k, v)) = [.ofText op.name] := by
    grind [under_object, underKey, filter_eq_nil_iff]
  have hrest : ((("op", ofText op.name) :: op.parameters c).map
      fun (k, v) => ((some k, v) : Option String × Json)).filter (fun m => m.1 != some "op") =
        (op.parameters c).map fun (k, v) => (some k, v) := by
    rw [map_cons, filter_cons_of_neg (by simp), filter_eq_self]
    intro m hm
    obtain ⟨q, hq, rfl⟩ := mem_map.1 hm
    simpa using hnot q hq
  have hparams := ofParameters?_parameters hc h
  unfold ofJson?
  simp only [hread, Bool.not_true, false_eq_true, if_false]
  simp only [toJson, object, hunder, hrest] at hparams ⊢
  exact hparams

theorem printable_activation (hc : c.Lawful) (f : Activation) : (f.toJson c).Printable := by
  cases f with
  | leakyRelu alpha =>
    refine printable_object (forall_mem_singleton.2 (printable_object ?_))
    exact forall_mem_singleton.2 (hc.printable_ofSingle alpha)
  | relu | relu6 | sigmoid | tanh => exact printable_ofText _

theorem printable_layout (l : Layout) : l.toJson.Printable := by
  refine printable_object ?_
  simp [printable_ofNat, printable_ofNats]

theorem printable_paddings (ps : List Padding) : Json.Printable (.arr (ps.map Padding.toJson)) :=
  printable_arr fun _ _ => printable_ofNats _

theorem printable_toJson (hc : c.Lawful) (op : Operator) : (op.toJson c).Printable := by
  refine printable_object (forall_mem_cons.2 ⟨printable_ofText _, ?_⟩)
  cases op <;> simp [parameters, printable_ofNat, printable_ofNats, printable_ofText,
    hc.printable_ofSingle, printable_paddings, printable_layout, printable_activation hc]
  case reduce => trivial

end Operator

end CanvasFusion
