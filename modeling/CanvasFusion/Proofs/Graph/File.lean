import CanvasFusion.Graph.File
import CanvasFusion.Proofs.Graph.Definition
import CanvasFusion.Proofs.Operator.Json
import CanvasFusion.Proofs.Storage

/-!
# A graph is read back from its file

**Theorem (ofFile_toFile).** Over any lawful codec, a graph that was read from a file can be
written, and it is read back from what was written if all of its numbers are finite. If one is not,
the file is refused, and there are such files.

The reader takes a number past the range of singles as infinity, and infinity is written null. This
is the only reason why a graph cannot be read back.

The proof follows the layers of a file. The text is read back as the tree it was printed from
(`Codec.Lawful.parse_pretty`). The tree is read back as the definition, since every size in it was
itself read from a file and is in range. The definition is not the one that was read before: a
tensor with data has become a constant, and its values are what its elements hold (`settled`). It
describes the same graph (`graph_settled`).
-/

namespace CanvasFusion

open Operator Quantization List Option

open Json Numeral

variable {c : Codec} {j : Json} {q : Quantization} {t : TensorDef} {o : OperationDef} {d : GraphDef}

/-! ## Names -/

theorem ElementType.ofJson?_toJson (t : ElementType) : ElementType.ofJson? t.toJson = some t := by
  cases t <;> rfl

theorem Role.ofJson?_toJson (r : Role) : Role.ofJson? r.toJson = some r := by
  cases r <;> rfl

/-! ## Definitions -/

/-- The zero point is an integer of 32 bits. -/
def Quantization.InRange (q : Quantization) : Prop :=
  -0x80000000 ≤ q.zeroPoint ∧ q.zeroPoint ≤ 0x7fffffff

theorem Quantization.ofJson?_toJson (hc : c.Lawful) (h : q.InRange) :
    ofJson? c (q.toJson c) = ifFinite [q.scale] q := by
  have hf : (q.toJson c).fields? ["scale", "zero_point"] =
      some [some (c.ofSingle q.scale), some (.ofInt q.zeroPoint)] :=
    fields?_present (by decide) rfl rfl
  simp [ofJson?, hf, required, hc.single?_ofSingle, int?_ofInt h.1 h.2 le_rfl le_rfl]

theorem Quantization.inRange_of_ofJson? (h : ofJson? c j = some q) : q.InRange := by
  obtain ⟨fields, -, h⟩ := bind_eq_some_iff.1 h
  split at h
  · obtain ⟨scale, -, h⟩ := bind_eq_some_iff.1 h
    obtain ⟨zeroPoint, hzero, h⟩ := bind_eq_some_iff.1 h
    cases h
    exact required_mem (fun _ _ => int?_mem) hzero
  · cases h

namespace TensorDef

/-- The numbers of a tensor that are not integers: its scale and its data. -/
def singles (t : TensorDef) : List Single :=
  t.quant.toList.map scale ++ t.data.getD []

/-- The extents are sizes, and the zero point is in range. -/
structure InRange (t : TensorDef) : Prop where
  shape : ∀ n ∈ t.shape, n < wordSize
  quant : ∀ q ∈ t.quant, q.InRange

theorem ofJson?_toJson (hc : c.Lawful) (h : t.InRange) :
    TensorDef.ofJson? c (t.toJson c) = ifFinite t.singles t := by
  have hf : (t.toJson c).fields? ["name", "dtype", "shape", "attr", "quant", "data"] =
      some [t.name.map .ofText, some t.element.toJson, some (.ofNats t.shape), some t.role.toJson,
        t.quant.map (Quantization.toJson c), t.data.map fun xs => .arr (xs.map c.ofSingle)] := by
    refine fields?_present (by decide) rfl ?_
    cases hn : t.name <;> cases hq : t.quant <;> cases hd : t.data <;>
      simp [toJson, hn, hq, hd, optional, present]
  have hname : withDefault none (nullable? text?) (t.name.map .ofText) = some t.name := by
    cases t.name <;> rfl
  have hquant : withDefault none (nullable? (Quantization.ofJson? c))
      (t.quant.map (Quantization.toJson c)) =
        ifFinite (t.quant.toList.map scale) t.quant := by
    cases hq : t.quant with
    | none => rfl
    | some q =>
      change (Quantization.ofJson? c (q.toJson c)).map some = _
      rw [Quantization.ofJson?_toJson hc (h.quant q hq), map_ifFinite]
      rfl
  have hdata : withDefault none (nullable? (list? c.single?))
      (t.data.map fun xs => .arr (xs.map c.ofSingle)) = ifFinite (t.data.getD []) t.data := by
    cases t.data with
    | none => rfl
    | some xs =>
      have hlist : Recovers (list? c.single?) (fun xs => .arr (xs.map c.ofSingle))
          (flatMap fun x => [x]) xs := list?_map fun x _ => hc.single?_ofSingle x
      change (list? c.single? (.arr (xs.map c.ofSingle))).map some = _
      rw [hlist, map_ifFinite]
      simp
  simp only [TensorDef.ofJson?, hf]
  simp [hname, required, ElementType.ofJson?_toJson, Role.ofJson?_toJson, list?_ofNats h.shape,
    hquant, hdata, singles]

theorem inRange_of_ofJson? (h : TensorDef.ofJson? c j = some t) : t.InRange := by
  obtain ⟨fields, -, h⟩ := bind_eq_some_iff.1 h
  split at h
  · obtain ⟨name, -, h⟩ := bind_eq_some_iff.1 h
    obtain ⟨element, -, h⟩ := bind_eq_some_iff.1 h
    obtain ⟨shape, hshape, h⟩ := bind_eq_some_iff.1 h
    obtain ⟨role, -, h⟩ := bind_eq_some_iff.1 h
    obtain ⟨quant, hquant, h⟩ := bind_eq_some_iff.1 h
    obtain ⟨data, -, h⟩ := bind_eq_some_iff.1 h
    cases h
    refine ⟨list_lt hshape, ?_⟩
    exact withDefault_mem (fun _ _ => nullable?_mem fun _ _ => Quantization.inRange_of_ofJson?)
      (by simp) hquant
  · cases h

theorem printable_toJson (hc : c.Lawful) (t : TensorDef) : (t.toJson c).Printable := by
  have hoptional : ∀ {α : Type} (key : String) (f : α → Json) (o : Option α),
      (∀ a, (f a).Printable) → ∀ m ∈ optional key f o, m.2.Printable := by
    intro α key f o hf
    cases o with
    | none => exact forall_mem_nil _
    | some a => exact forall_mem_singleton.2 (hf a)
  refine printable_object ?_
  simp only [forall_mem_append]
  refine ⟨⟨⟨hoptional _ _ _ printable_ofText, ?_⟩, hoptional _ _ _ fun q => ?_⟩,
    hoptional _ _ _ fun xs => printable_arr fun x _ => hc.printable_ofSingle x⟩
  · simp [ElementType.toJson, Role.toJson, printable_ofText, printable_ofNats]
  · refine printable_object ?_
    simp [hc.printable_ofSingle, printable_ofInt]

end TensorDef

namespace OperationDef

def singles (o : OperationDef) : List Single := o.kind.singles

/-- The sizes of the operator and the positions of the tensors are sizes. -/
structure InRange (o : OperationDef) : Prop where
  kind : ∀ n ∈ o.kind.sizes, n < wordSize
  inputs : ∀ n ∈ o.inputs, n < wordSize
  outputs : ∀ n ∈ o.outputs, n < wordSize

theorem ofJson?_toJson (hc : c.Lawful) (h : o.InRange) :
    OperationDef.ofJson? c (o.toJson c) = ifFinite o.singles o := by
  have hf : (o.toJson c).fields? ["kind", "inputs", "outputs"] =
      some [some (o.kind.toJson c), some (.ofNats o.inputs), some (.ofNats o.outputs)] :=
    fields?_present (by decide) rfl rfl
  have hkind : Operator.ofJson? c operatorDepth (o.kind.toJson c) =
      ifFinite o.kind.singles o.kind := Operator.ofJson?_toJson hc h.kind
  simp [OperationDef.ofJson?, hf, required, hkind, list?_ofNats h.inputs, list?_ofNats h.outputs,
    singles]

theorem inRange_of_ofJson? (h : OperationDef.ofJson? c j = some o) : o.InRange := by
  obtain ⟨fields, -, h⟩ := bind_eq_some_iff.1 h
  split at h
  · obtain ⟨kind, hkind, h⟩ := bind_eq_some_iff.1 h
    obtain ⟨inputs, hinputs, h⟩ := bind_eq_some_iff.1 h
    obtain ⟨outputs, houtputs, h⟩ := bind_eq_some_iff.1 h
    cases h
    exact ⟨required_mem (fun _ _ => ofJson?_lt) hkind, list_lt hinputs,
      list_lt houtputs⟩
  · cases h

theorem printable_toJson (hc : c.Lawful) (o : OperationDef) : (o.toJson c).Printable := by
  refine printable_object ?_
  simp [Operator.printable_toJson hc, printable_ofNats]

end OperationDef

namespace GraphDef

/-- The numbers of a definition that are not integers. -/
def singles (d : GraphDef) : List Single :=
  d.tensors.flatMap TensorDef.singles ++ d.ops.flatMap OperationDef.singles

structure InRange (d : GraphDef) : Prop where
  tensors : ∀ t ∈ d.tensors, t.InRange
  ops : ∀ o ∈ d.ops, o.InRange

/-- **A definition is read back from its file, unless one of its numbers is not finite.** -/
theorem ofJson?_toJson (hc : c.Lawful) (h : d.InRange) :
    GraphDef.ofJson? c (d.toJson c) = ifFinite d.singles d := by
  have hf : (d.toJson c).fields? ["tensors", "ops"] =
      some [some (.arr (d.tensors.map (TensorDef.toJson c))),
        some (.arr (d.ops.map (OperationDef.toJson c)))] :=
    fields?_present (by decide) rfl rfl
  have htensors : list? (TensorDef.ofJson? c) (.arr (d.tensors.map (TensorDef.toJson c))) =
      ifFinite (d.tensors.flatMap TensorDef.singles) d.tensors :=
    list?_map fun t ht => TensorDef.ofJson?_toJson hc (h.tensors t ht)
  have hops : list? (OperationDef.ofJson? c) (.arr (d.ops.map (OperationDef.toJson c))) =
      ifFinite (d.ops.flatMap OperationDef.singles) d.ops :=
    list?_map fun o ho => OperationDef.ofJson?_toJson hc (h.ops o ho)
  simp [GraphDef.ofJson?, hf, required, htensors, hops, singles]

theorem inRange_of_ofJson? (h : GraphDef.ofJson? c j = some d) : d.InRange := by
  obtain ⟨fields, -, h⟩ := bind_eq_some_iff.1 h
  split at h
  · obtain ⟨tensors, htensors, h⟩ := bind_eq_some_iff.1 h
    obtain ⟨ops, hops, h⟩ := bind_eq_some_iff.1 h
    cases h
    exact ⟨required_mem (fun _ _ => list?_mem fun _ _ => TensorDef.inRange_of_ofJson?) htensors,
      required_mem (fun _ _ => list?_mem fun _ _ => OperationDef.inRange_of_ofJson?) hops⟩
  · cases h

theorem printable_toJson (hc : c.Lawful) (d : GraphDef) : (d.toJson c).Printable := by
  refine printable_object ?_
  simp only [forall_mem_cons]
  exact ⟨printable_arr fun t _ => t.printable_toJson hc,
    printable_arr fun o _ => o.printable_toJson hc, forall_mem_nil _⟩

end GraphDef

/-! ## The definition of a rebuilt graph -/

/-- The definition of a tensor once it was stored: data make it a constant, and its values are what
the elements hold. -/
def TensorDef.settled (t : TensorDef) : TensorDef :=
  { t with
    role := if t.data.isSome then .constant else t.role
    data := t.data.map (List.map t.element.stored) }

theorem TensorDef.tensor_settled (t : TensorDef) : t.settled.tensor = t.tensor := by
  cases hd : t.data <;>
    simp [TensorDef.tensor, TensorDef.settled, hd, ElementType.encode_stored]

theorem TensorDef.Fits.settled {lim : Limit} (h : t.Fits lim) : t.settled.Fits lim := by
  grind [Fits, tensor_settled, settled, ElementType.encode_stored]

def GraphDef.settled (d : GraphDef) : GraphDef := ⟨d.tensors.map TensorDef.settled, d.ops⟩

namespace Graph

variable {lim : Limit} {g : Graph}

theorem ofTensors_settled (ds : List TensorDef) :
    ofTensors (ds.map TensorDef.settled) = ofTensors ds := by
  unfold ofTensors
  rw [foldl_map]
  simp only [TensorDef.tensor_settled]

theorem graph_settled (d : GraphDef) : d.settled.graph = d.graph := by
  unfold GraphDef.graph GraphDef.settled
  rw [ofTensors_settled]

theorem fits_settled (h : d.Fits lim) : d.settled.Fits lim := by
  constructor
  · intro t ht
    obtain ⟨u, hu, rfl⟩ := mem_map.1 ht
    exact (h.tensors u hu).settled
  · simpa [GraphDef.settled, ofTensors_settled] using h.ops

theorem tensorDef_tensor (t : TensorDef) : tensorDef t.tensor = .ok t.settled := by
  cases hd : t.data with
  | none =>
    simp [tensorDef, TensorDef.tensor, TensorDef.settled, hd]
    rfl
  | some xs =>
    simp [tensorDef, TensorDef.tensor, TensorDef.settled, hd, ElementType.decode_encode_eq]
    rfl

theorem operationDef_operation {o : OperationDef} (h : ∃ p, o.outputs = [p]) :
    operationDef o.operation = o := by
  obtain ⟨p, hp⟩ := h
  obtain ⟨kind, inputs, outputs⟩ := o
  subst hp
  simp [operationDef, OperationDef.operation, Function.comp_def]

/-- The definition of a rebuilt graph is the settled definition. -/
theorem toDef_graph (h : d.Fits lim) : d.graph.toDef = .ok d.settled := by
  -- A definition does not see the edges of a tensor.
  have htensors : Forall₂ (fun x t => tensorDef x = .ok t)
      (d.graph.tensors.toList.map Tensor.bare) (d.tensors.map TensorDef.settled) := by
    grind [graph_bare, forall₂_map_left_iff, forall₂_map_right_iff, forall₂_same, tensorDef_tensor]
  have hops : d.graph.ops.toList.map operationDef = d.ops := by
    rw [graph_ops, List.map_map]
    refine (map_congr_left fun o ho => ?_).trans (map_id d.ops)
    obtain ⟨p, hp, -⟩ := h.ops.forall_mem (fun _ _ hfits => OperationDef.Fits.outputs hfits) o ho
    exact operationDef_operation ⟨p, hp⟩
  rw [toDef_eq_ok (forall₂_map_left_iff.1 htensors), hops]
  rfl

theorem inRange_settled (h : d.InRange) : d.settled.InRange := by
  refine ⟨fun t ht => ?_, h.ops⟩
  obtain ⟨u, hu, rfl⟩ := mem_map.1 ht
  exact ⟨(h.tensors u hu).shape, (h.tensors u hu).quant⟩

theorem ofFile_pretty (hc : c.Lawful) (h : j.Printable) :
    ofFile c lim (c.pretty j).toList = ofJson c lim j := by
  rw [ofFile, hc.parse_pretty h]

/-- The file of a definition is refused if one of its numbers is not finite. -/
theorem ofFile_toJson (hc : c.Lawful) (h : d.InRange) :
    ofFile c lim (c.pretty (d.toJson c)).toList =
      if ∀ x ∈ d.singles, x.isFinite = true then ofDef lim d else .error (.file .malformed) := by
  rw [ofFile_pretty hc (d.printable_toJson hc), ofJson, GraphDef.ofJson?_toJson hc h, ifFinite]
  simp only [List.all_eq_true]
  split_ifs <;> rfl

theorem exists_toFile (hc : c.Lawful) {text : List Char} (h : ofFile c lim text = .ok g) :
    ∃ d out, g.toDef = .ok d ∧ g.toFile c = .ok out ∧ ofFile c lim out.toList =
      if ∀ x ∈ d.singles, x.isFinite = true then .ok g else .error (.file .malformed) := by
  unfold ofFile at h
  split at h
  · cases h
  rename_i j hparse
  unfold ofJson at h
  split at h
  · cases h
  rename_i d hd
  obtain ⟨hfits, rfl⟩ := ofDef_eq_ok_iff.1 h
  have hdef := toDef_graph hfits
  have hback : ofDef lim d.settled = .ok d.graph :=
    ofDef_eq_ok_iff.2 ⟨fits_settled hfits, graph_settled d⟩
  refine ⟨d.settled, c.pretty (d.settled.toJson c), hdef, ?_, ?_⟩
  · rw [toFile, hdef]
    rfl
  · rw [ofFile_toJson hc (inRange_settled (GraphDef.inRange_of_ofJson? hd)), hback]

/-- A document with a constant past every finite number. -/
def overflowing : Json :=
  .object [("tensors", .arr [.object [("dtype", .ofText "f32"), ("shape", .ofNats [1]),
      ("attr", .ofText "constant"), ("data", .arr [.num ⟨false, 1, [], some 39⟩])]]),
    ("ops", .arr [])]

def overflowingDef : GraphDef := ⟨[⟨none, .f32, [1], .constant, none, some [.infinity]⟩], []⟩

theorem printable_overflowing : overflowing.Printable := by
  simp [overflowing, Json.Printable, PrintableItems, PrintableMembers, Numeral.Printable, object,
    ofText, ofNats, Json.ofNat, Numeral.ofNat]

theorem ofFile_overflowing (hc : c.Lawful) :
    ofFile c .word64 (c.pretty overflowing).toList = .ok overflowingDef.graph := by
  have htensor : TensorDef.ofJson? c (.object [("dtype", .ofText "f32"), ("shape", .ofNats [1]),
      ("attr", .ofText "constant"), ("data", .arr [.num ⟨false, 1, [], some 39⟩])]) =
      some ⟨none, .f32, [1], .constant, none, some [.infinity]⟩ := by
    change (Option.map _ ([_].mapM c.single?)).bind _ = _
    simp [hc.overflow]
    rfl
  have hdef : GraphDef.ofJson? c overflowing = some overflowingDef := by
    change Option.bind ([_].mapM (TensorDef.ofJson? c)) _ = _
    simp [htensor]
    rfl
  rw [ofFile_pretty hc printable_overflowing, ofJson, hdef]
  decide +kernel

/-- **A graph that was read from a file is read back from its own file, unless one of its numbers is
not finite**, as a number past the range of singles is. -/
theorem ofFile_toFile (hc : c.Lawful) :
    (∀ lim g text, ofFile c lim text = .ok g →
      ∃ d out, g.toDef = .ok d ∧ g.toFile c = .ok out ∧ ofFile c lim out.toList =
        if ∀ x ∈ d.singles, x.isFinite = true then .ok g else .error (.file .malformed)) ∧
    ∃ text g out, ofFile c .word64 text = .ok g ∧ g.toFile c = .ok out ∧
      ofFile c .word64 out.toList = .error (.file .malformed) := by
  refine ⟨fun lim g text => exists_toFile hc, ?_⟩
  have hread := ofFile_overflowing hc
  obtain ⟨d, out, hdef, hout, hback⟩ := exists_toFile hc hread
  obtain rfl : overflowingDef = d := Except.ok.inj ((by decide +kernel : _ = _).trans hdef)
  exact ⟨_, _, out, hread, hout, hback.trans (if_neg (by decide))⟩

/-- A document with a constant of an integer type, whose values are rounded and cut off, and an
operator with a number. -/
def rounding : Json :=
  .object [("tensors", .arr [
      .object [("name", .ofText "a"), ("dtype", .ofText "i32"), ("shape", .ofNats [2]),
        ("attr", .ofText "constant"),
        ("quant", .arr [.num ⟨false, 1, [], some (-45)⟩, .ofInt (-3)]),
        ("data", .arr [.num ⟨false, 0, [5], none⟩, .num ⟨false, 3, [], some 9⟩])],
      .object [("dtype", .ofText "i32"), ("shape", .ofNats [4]), ("attr", .ofText "output")]]),
    ("ops", .arr [.object [("inputs", .ofNats [0]), ("outputs", .ofNats [1]),
      ("kind", .object [("op", .ofText "pad"), ("front", .ofNats [1]), ("back", .ofNats [1]),
        ("value", .num ⟨true, 0, [1], none⟩)])]])]

def roundingDef : GraphDef :=
  ⟨[⟨some "a", .i32, [2], .constant, some ⟨⟨1⟩, -3⟩, some [.one, .ofInt 0x7fffffff]⟩,
    ⟨none, .i32, [4], .output, none, none⟩], [⟨.pad ⟨[1], [1], ⟨0xbdcccccd⟩⟩, [0], [1]⟩]⟩

theorem printable_rounding : rounding.Printable := by
  simp [rounding, Json.Printable, PrintableItems, PrintableMembers, Numeral.Printable, object,
    ofText, ofNats, Json.ofNat, Numeral.ofNat, Json.ofInt, Numeral.ofInt]

theorem ofFile_toFile_rounding : Codec.standard.Lawful ∧
    ∃ g out, ofFile .standard .word64 rounding.pretty.toList = .ok g ∧
      g.toFile .standard = .ok out ∧ ofFile .standard .word64 out.toList = .ok g := by
  have hread : ofFile .standard .word64 rounding.pretty.toList = .ok roundingDef.graph := by
    rw [show rounding.pretty = Codec.standard.pretty rounding from rfl,
      ofFile_pretty standard_lawful printable_rounding]
    decide +kernel
  obtain ⟨d, out, hdef, hout, hback⟩ := (ofFile_toFile standard_lawful).1 _ _ _ hread
  obtain rfl : roundingDef = d := Except.ok.inj ((by decide +kernel : _ = _).trans hdef)
  exact ⟨standard_lawful, _, out, hread, hout, hback.trans (if_pos (by decide))⟩

end Graph

end CanvasFusion
