import CanvasFusion.Proofs.Graph.File
import CanvasFusion.Proofs.Graph.Reloading

/-!
# The bytes of constants

The values of a buffer are singles whatever its element type is, and a graph file holds the values
of its constants. A buffer is the same after its values were stored again exactly if every number in
it is a single (`encode_decode_eq_iff`). This is so for every buffer but those of 32-bit integers,
where an integer is kept if it has at most 24 significant bits. One more is kept: `2^31 - 1` is
rounded up, past the end of the range, and is cut off there.

**Theorem (reloaded_constants).** Storing the values of a buffer keeps the values, and it keeps the
bytes exactly if the numbers in it come back from singles. The same is true of the constants of a
graph that was saved and loaded, from its definition or, over any lawful codec, from its file.
-/

namespace CanvasFusion

open List Single

theorem wordBytes_wordOfBytes (a b c d : UInt8) : wordBytes (wordOfBytes a b c d) =
      [a, b, c, d] := by
  have ha := a.toNat_lt
  have hb := b.toNat_lt
  have hc := c.toNat_lt
  have hd := d.toNat_lt
  simp only [wordBytes, wordOfBytes, cons.injEq, and_true, ← UInt8.toNat_inj, UInt8.toNat_ofNat']
  omega

theorem wordBytes_inj {m n : Nat} (hm : m < 2 ^ 32) (hn : n < 2 ^ 32) :
    wordBytes m = wordBytes n ↔ m = n := by
  refine ⟨fun h => ?_, congrArg wordBytes⟩
  simp only [wordBytes, cons.injEq, and_true, ← UInt8.toNat_inj, UInt8.toNat_ofNat'] at h
  omega

/-- An integer of 32 bits is found again exactly if it is a single or the last of the range. -/
theorem Single.toIntIn_ofInt_eq_iff {n : Int} (hlo : -0x80000000 ≤ n) (hhi : n ≤ 0x7fffffff) :
    (ofInt n).toIntIn (-0x80000000) 0x7fffffff = n ↔ IsWhole n.natAbs ∨ n = 0x7fffffff := by
  constructor
  · intro h
    obtain ⟨-, -, hfirst | hlast | hwhole⟩ := isRange_i32.toIntIn_cases (ofInt n)
    · exact .inl ⟨1, 31, by norm_num, by omega⟩
    · exact .inr (h.symm.trans hlast)
    · rw [h] at hwhole
      exact .inl hwhole
  · rintro (hwhole | rfl)
    · exact toIntIn_ofInt hwhole (log2_lt_of_le (by omega)) hlo hhi
    · exact isRange_i32.last

namespace ElementType

variable {bytes : List UInt8}

/-- Every number that a buffer holds comes back from a single. -/
def Exact : ElementType → List UInt8 → Prop
  | .i32, bytes => ∀ w ∈ words bytes, IsWhole (signed 32 w).natAbs ∨ signed 32 w = 0x7fffffff
  | _, _ => True

/-! ## Elements of four bytes -/

/-- A buffer is made up of the bytes of its words. -/
theorem flatMap_words (h : bytes.length % 4 = 0) : (words bytes).flatMap wordBytes = bytes := by
  fun_induction words bytes with
  | case1 a b c d rest ih =>
    rw [flatMap_cons, wordBytes_wordOfBytes, ih (by simp only [length_cons] at h; omega)]
    rfl
  | case2 bytes hshort =>
    obtain _ | ⟨a, _ | ⟨b, _ | ⟨c, _ | ⟨d, rest⟩⟩⟩⟩ := bytes
    · rfl
    · cases h
    · cases h
    · cases h
    · exact absurd rfl (hshort a b c d rest)

/-- Two lists of words of one length have the same bytes word by word. -/
theorem flatMap_wordBytes_eq_iff {ws : List Nat} {code : Nat → Nat} (hws : ∀ w ∈ ws, w < 2 ^ 32)
    (hcode : ∀ w ∈ ws, code w < 2 ^ 32) :
    ws.flatMap (fun w => wordBytes (code w)) = ws.flatMap wordBytes ↔ ∀ w ∈ ws, code w = w := by
  induction ws with
  | nil => simp
  | cons w ws ih =>
    simp only [mem_cons, forall_eq_or_imp] at hws hcode ⊢
    have hlength : (wordBytes (code w)).length = (wordBytes w).length := rfl
    rw [flatMap_cons, flatMap_cons, append_eq_append_iff_of_size_eq_left hlength,
      ih hws.2 hcode.2, wordBytes_inj hcode.1 hws.1]

/-! ## Elements of one byte -/

theorem encodeOne_u8 (b : UInt8) : encodeOne .u8 (.ofInt b.toNat) = [b] := by
  have hb := b.toNat_lt
  have hwhole : IsWhole (b.toNat : Int).natAbs := ⟨b.toNat, 0, by omega, by simp⟩
  rw [encodeOne, toIntIn_ofInt hwhole (log2_lt_of_le (by omega)) (by omega) (by omega),
    Int.toNat_natCast, UInt8.ofNat_toNat]

theorem encodeOne_i8 (b : UInt8) : encodeOne .i8 (.ofInt (signed 8 b.toNat)) = [b] := by
  have hb := b.toNat_lt
  obtain ⟨hlo, hhi⟩ : -2 ^ (8 - 1) ≤ signed 8 b.toNat ∧ signed 8 b.toNat < 2 ^ (8 - 1) :=
    signed_mem (by norm_num) hb
  have hwhole : IsWhole (signed 8 b.toNat).natAbs :=
    ⟨(signed 8 b.toNat).natAbs, 0, by omega, by simp⟩
  have hpow : Nat.pow 2 8 = 0x100 ∧ Nat.pow 2 (8 - 1) = 0x80 := by decide
  have hmod : (signed 8 b.toNat % 0x100).toNat = b.toNat := by
    rw [signed, hpow.1, hpow.2]
    split_ifs <;> omega
  rw [encodeOne, toIntIn_ofInt hwhole (log2_lt_of_le (by omega)) (by omega) (by omega), hmod,
    UInt8.ofNat_toNat]

/-- **Storing the values of a buffer gives the buffer exactly if its numbers are singles.** -/
theorem encode_decode_eq_iff (t : ElementType) (h : bytes.length % t.width = 0) :
    ∃ xs, t.decode bytes = .ok xs ∧ (t.encode xs = bytes ↔ t.Exact bytes) := by
  unfold decode
  rw [if_neg (not_not.2 h)]
  refine ⟨_, rfl, ?_⟩
  cases t with
  | f32 =>
    have hbits : (words bytes).flatMap (fun w => encodeOne .f32 ⟨UInt32.ofNat w⟩) =
        (words bytes).flatMap wordBytes := by
      refine flatMap_congr fun w hw => ?_
      rw [encodeOne, UInt32.toNat_ofNat_of_lt' (word_lt hw)]
    show (decodeWords _ bytes).flatMap _ = bytes ↔ True
    rw [decodeWords_eq_map, flatMap_map, hbits, flatMap_words h]
    exact iff_of_true rfl trivial
  | u8 =>
    show (bytes.map _).flatMap _ = bytes ↔ True
    rw [flatMap_map, funext encodeOne_u8, flatMap_singleton']
    exact iff_of_true rfl trivial
  | i8 =>
    show (bytes.map _).flatMap _ = bytes ↔ True
    rw [flatMap_map, funext encodeOne_i8, flatMap_singleton']
    exact iff_of_true rfl trivial
  | i32 =>
    have hrange : ∀ w ∈ words bytes, -0x80000000 ≤ signed 32 w ∧ signed 32 w ≤ 0x7fffffff := by
      intro w hw
      obtain ⟨hlo, hhi⟩ := signed_mem (by norm_num) (word_lt hw)
      omega
    show (decodeWords _ bytes).flatMap _ = bytes ↔ _
    rw [decodeWords_eq_map, flatMap_map]
    nth_rewrite 2 [← flatMap_words h]
    refine (flatMap_wordBytes_eq_iff (fun w => word_lt) fun w _ => by omega).trans ?_
    refine forall₂_congr fun w hw => ?_
    obtain ⟨hlo, hhi, -⟩ := isRange_i32.toIntIn_cases (.ofInt (signed 32 w))
    rw [toNat_emod_eq_iff hlo hhi (word_lt hw)]
    exact toIntIn_ofInt_eq_iff (hrange w hw).1 (hrange w hw).2

/-- The least integer that is no single is stored as the one before it. -/
theorem not_encode_decode_eq : ¬ ∀ (t : ElementType) (bytes : List UInt8),
    bytes.length % t.width = 0 → ∃ xs, t.decode bytes = .ok xs ∧ t.encode xs = bytes := by
  intro h
  obtain ⟨xs, hxs, hbytes⟩ := h .i32 [1, 0, 0, 1] rfl
  have hvalue : decode .i32 [1, 0, 0, 1] = .ok [.ofInt 0x1000001] := by decide +kernel
  cases hvalue.symm.trans hxs
  exact absurd hbytes (by decide +kernel)

end ElementType

namespace Graph

variable {lim : Limit} {g : Graph} {x : Tensor} {d : GraphDef} {bytes : List UInt8}

/-- The data of a constant are read from a file as they are stored again. -/
theorem Describes.data_eq_iff {t : TensorDef} (h : Describes lim x t) (hx : x.data = some bytes) :
    ∃ bytes', t.tensor.data = some bytes' ∧ (bytes' = bytes ↔ x.spec.element.Exact bytes) := by
  have heq := h.eq_ok
  simp only [tensorDef, hx, bind_eq_ok, map_eq_ok, mapError_eq_ok] at heq
  obtain ⟨data, ⟨values, hvalues, rfl⟩, ht⟩ := heq
  cases ht
  have hwidth : bytes.length % x.spec.element.width = 0 := by
    by_contra hne
    unfold ElementType.decode at hvalues
    rw [if_pos hne] at hvalues
    cases hvalues
  obtain ⟨xs, hxs, hiff⟩ := x.spec.element.encode_decode_eq_iff hwidth
  cases hvalues.symm.trans hxs
  exact ⟨_, rfl, hiff⟩

/-- What a graph's definition keeps of the data of its tensors. -/
theorem Saved.data_eq_iff (h : Saved lim g d) {t : TensorId} (ht : g.tensors.get? t = some x)
    (hx : x.data = some bytes) :
    ∃ y bytes', d.graph.tensors.get? t = some y ∧ y.data = some bytes' ∧
      (bytes' = bytes ↔ x.spec.element.Exact bytes) := by
  rw [← Table.getElem?_toList] at ht
  obtain ⟨hlt, rfl⟩ := List.getElem?_eq_some_iff.1 ht
  have hlt' : t.index < d.tensors.length := h.tensors.length_eq ▸ hlt
  obtain ⟨bytes', hbytes', hiff⟩ := (h.tensors.get hlt hlt').data_eq_iff hx
  have hbare := congrArg (·[t.index]?) (graph_bare d)
  simp only [getElem?_map, Table.getElem?_toList, List.getElem?_eq_getElem hlt', Option.map_some,
    Option.map_eq_some_iff] at hbare
  obtain ⟨y, hy, htensor⟩ := hbare
  exact ⟨y, bytes', hy, (congrArg Tensor.data htensor).trans hbytes', hiff⟩

/-- **A constant has its bytes after its graph was saved and loaded exactly if its numbers are
singles.** A file is loaded if all numbers of the graph are finite, and refused otherwise. -/
theorem reloaded_constants :
    (∀ (t : ElementType) (bytes : List UInt8), bytes.length % t.width = 0 →
      ∃ xs, t.decode bytes = .ok xs ∧ t.decode (t.encode xs) = .ok xs ∧
        (t.encode xs = bytes ↔ t.Exact bytes)) ∧
    ∀ (lim : Limit) (g : Graph), Reachable lim g →
      (∀ t x, g.tensors.get? t = some x → x.spec.role = .constant → x.data.isSome = true) →
      ∃ d g', g.toDef = .ok d ∧ ofDef lim d = .ok g' ∧
        (∀ t x bytes, g.tensors.get? t = some x → x.data = some bytes →
          ∃ y bytes', g'.tensors.get? t = some y ∧ y.data = some bytes' ∧
            (bytes' = bytes ↔ x.spec.element.Exact bytes)) ∧
        ∀ c : Json.Codec, c.Lawful → ∃ out, g.toFile c = .ok out ∧
          (d.InRange → ofFile c lim out.toList =
            if ∀ x ∈ d.singles, x.isFinite = true then .ok g' else .error (.file .malformed)) := by
  constructor
  · intro t bytes hwidth
    obtain ⟨xs, hxs, hiff⟩ := t.encode_decode_eq_iff hwidth
    exact ⟨xs, hxs, ElementType.decode_encode_of_decode hxs, hiff⟩
  intro lim g h hdata
  obtain ⟨d, hsaved⟩ := exists_saved h hdata
  have hload : ofDef lim d = .ok d.graph :=
    ofDef_eq_ok_iff.2 ⟨hsaved.fits h.wellFormed h.checked, rfl⟩
  refine ⟨d, d.graph, hsaved.toDef, hload, fun t x bytes => hsaved.data_eq_iff, ?_⟩
  intro c hc
  refine ⟨c.pretty (d.toJson c), by rw [toFile, hsaved.toDef]; rfl, fun hrange => ?_⟩
  rw [ofFile_toJson hc hrange, hload]

/-- A constant that is kept, and one that is not. -/
def twoConstants : List Call :=
  [.createConstant ⟨.i32, [1], .constant, none⟩ [255, 255, 255, 127],
    .createConstant ⟨.i32, [1], .constant, none⟩ [1, 0, 0, 1]]

def twoConstantsDef : GraphDef :=
  ⟨[⟨none, .i32, [1], .constant, none, some [.ofInt 0x7fffffff]⟩,
    ⟨none, .i32, [1], .constant, none, some [.ofInt 0x1000001]⟩], []⟩

theorem reloaded_constants_two :
    ∃ out g', (build .word64 twoConstants).toFile .standard = .ok out ∧
      ofFile .standard .word64 out.toList = .ok g' ∧
      (∃ y, g'.tensors.get? ⟨0⟩ = some y ∧ y.data = some [255, 255, 255, 127]) ∧
      ∃ y, g'.tensors.get? ⟨1⟩ = some y ∧ y.data ≠ some [1, 0, 0, 1] := by
  have h : Reachable .word64 (build .word64 twoConstants) :=
    reachable_iff_build.2 ⟨twoConstants, rfl⟩
  have hall : ∀ x ∈ (build .word64 twoConstants).tensors.toList,
      x.spec.role = .constant → x.data.isSome = true := by decide +kernel
  obtain ⟨d, g', hd, -, hconstants, hfile⟩ :=
    reloaded_constants.2 _ _ h fun t x hx hr => hall x (Table.mem_toList.2 ⟨t, hx⟩) hr
  obtain rfl : twoConstantsDef = d := Except.ok.inj ((by decide +kernel : _ = _).trans hd)
  have hrange : twoConstantsDef.InRange := by
    have hsizes : ∀ t ∈ twoConstantsDef.tensors,
        (∀ n ∈ t.shape, n < Numeral.wordSize) ∧ t.quant = none := by decide
    refine ⟨fun t ht => ⟨(hsizes t ht).1, fun q hq => ?_⟩, fun o ho => nomatch ho⟩
    rw [(hsizes t ht).2] at hq
    cases hq
  obtain ⟨out, hout, hread⟩ := hfile .standard Json.standard_lawful
  refine ⟨out, g', hout, (hread hrange).trans (if_pos (by decide +kernel)), ?_, ?_⟩
  · obtain ⟨y, bytes', hy, hbytes', hiff⟩ := hconstants ⟨0⟩ _ _ rfl rfl
    have hlast : bytes' = [255, 255, 255, 127] := by
      refine hiff.2 fun w hw => .inr ?_
      rw [mem_singleton.1 hw]
      decide +kernel
    exact ⟨y, hy, hlast ▸ hbytes'⟩
  · obtain ⟨y, bytes', hy, hbytes', hiff⟩ := hconstants ⟨1⟩ _ _ rfl rfl
    refine ⟨y, hy, fun heq => ?_⟩
    obtain hwhole | hlast := hiff.1 (Option.some.inj (hbytes'.symm.trans heq)) 0x1000001 (by decide)
    · obtain ⟨m, hm⟩ := IsWhole.exists_mul (j := 1) hwhole (by decide)
      have hodd : (ElementType.signed 32 0x1000001).natAbs = 0x1000001 := by decide +kernel
      omega
    · exact absurd hlast (by decide +kernel)

end Graph

end CanvasFusion
