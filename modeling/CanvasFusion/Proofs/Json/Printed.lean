import Mathlib.Tactic
import CanvasFusion.Json.Printer
import CanvasFusion.Json.Reader

/-!
# A printed document is read back

The reader has a lemma for each piece the printer writes, in the order of the grammar: numerals,
texts, values, items and members. A piece is always read with something behind it, so every lemma
names what follows and says that it is left over. A numeral ends where its digits end, so what
follows it must not continue it (`Stops`).

**Theorem (parse_pretty).** A value whose texts can be read and whose numerals are written in digits
is read back from its printed form.

The proof is an induction over the value. The reader's recursion is bounded by the length of the
document; each bracket uses up one level for a character, and each item two.
-/

namespace CanvasFusion

open List Numeral

/-! ## Numerals -/

namespace Numeral

theorem toString_text (s : String) : toString s = s := rfl

theorem toString_toList (n : Nat) : (toString n).toList = Nat.toDigits 10 n := Nat.toList_repr

/-- The digits after the point are digits. -/
def Printable (n : Numeral) : Prop := ∀ d ∈ n.fraction, d < 10

/-- The point and the digits after it. -/
def pointText (fraction : List Nat) : List Char :=
  if fraction = [] then [] else '.' :: fraction.map Nat.digitChar

def exponentText : Option Int → List Char
  | none => []
  | some (.ofNat e) => 'e' :: '+' :: Nat.toDigits 10 e
  | some (.negSucc e) => 'e' :: '-' :: Nat.toDigits 10 (e + 1)

/-- A numeral without its sign. -/
def unsignedText (n : Numeral) : List Char :=
  Nat.toDigits 10 n.whole ++ (pointText n.fraction ++ exponentText n.exponent)

theorem toList_repr_digit {d : Nat} (h : d < 10) : d.repr.toList = [d.digitChar] := by
  rw [Nat.toList_repr, Nat.toDigits_of_lt_base h]

theorem toList_join_repr {ds : List Nat} (h : ∀ d ∈ ds, d < 10) :
    (String.join (ds.map Nat.repr)).toList = ds.map Nat.digitChar := by
  induction ds with
  | nil => rfl
  | cons d ds ih => grind [String.join_cons, String.toList_append, toList_repr_digit]

theorem toList_text {n : Numeral} (h : n.Printable) :
    n.text.toList = (if n.negative then ['-'] else []) ++ n.unsignedText := by
  have hpoint : (if n.fraction = [] then "" else
      "." ++ String.join (n.fraction.map Nat.repr)).toList = pointText n.fraction := by
    unfold pointText
    split_ifs with hnil
    · rfl
    · rw [String.toList_append, toList_join_repr h]
      rfl
  have hsign : (if n.negative then "-" else "").toList = if n.negative then ['-'] else [] := by
    cases n.negative <;> rfl
  unfold text unsignedText
  simp only [toString_text, String.toList_append, toString_toList, hpoint, hsign, append_assoc]
  congr 3
  match n.exponent with
  | none => rfl
  | some (.ofNat e) | some (.negSucc e) => simp [exponentText]

end Numeral

namespace Json.Reader

variable {rest bs ds cs : List Char} {n : Numeral} {c : Char} {fuel : Nat}

attribute [local simp] text value items members

theorem digits_append (hds : ∀ c ∈ ds, c.isDigit = true)
    (hrest : ∀ c ∈ rest.head?, c.isDigit = false) : digits (ds ++ rest) = (ds, rest) := by
  unfold digits
  rw [takeWhile_append_of_pos hds, dropWhile_append_of_pos hds]
  cases rest with
  | nil => simp
  | cons c rest =>
    have hc := hrest c rfl
    simp [hc]

theorem digitValue_digitChar {d : Nat} (h : d < 10) : digitValue d.digitChar = d := by
  revert d
  decide

theorem digitsValue_toDigits (n : Nat) : digitsValue (Nat.toDigits 10 n) = n := by
  have h : Nat.ofDigitChars 10 (Nat.toDigits 10 n) 0 = n :=
    Nat.ofDigitChars_toDigits (by norm_num) (by norm_num)
  unfold Nat.ofDigitChars at h
  grind [digitsValue, digitValue]

theorem isDigit_of_mem_toDigits {n : Nat} (h : c ∈ Nat.toDigits 10 n) : c.isDigit = true :=
  Nat.isDigit_of_mem_toDigits (by norm_num) (by norm_num) h

/-- Only zero is written with a zero in front. -/
theorem toDigits_eq_cons (n : Nat) : ∃ c ds, Nat.toDigits 10 n = c :: ds ∧ (c = '0' → ds = []) := by
  suffices h : ∃ c ds, Nat.toDigits 10 n = c :: ds ∧ (c = '0' → n = 0) by
    grind
  induction n using Nat.strong_induction_on with
  | _ n ih =>
    by_cases hlt : n < 10
    · refine ⟨n.digitChar, [], Nat.toDigits_of_lt_base hlt, ?_⟩
      clear ih
      revert n
      decide
    · obtain ⟨c, ds, heq, hzero⟩ := ih (n / 10) (by omega)
      grind [Nat.toDigits_of_base_le]

/-- What follows a number does not continue it. -/
def Stops (rest : List Char) : Prop :=
  ∀ c ∈ rest.head?, c.isDigit = false ∧ c ≠ '.' ∧ c ≠ 'e' ∧ c ≠ 'E'

theorem exponent?_exponentText (e : Option Int) (h : Stops rest) :
    exponent? (exponentText e ++ rest) = some (e, rest) := by
  have hdigits : ∀ k, digits (Nat.toDigits 10 k ++ rest) = (Nat.toDigits 10 k, rest) := fun k =>
    digits_append (fun c hc => isDigit_of_mem_toDigits hc) fun c hc => (h c hc).1
  match e with
  | none =>
    unfold exponent? exponentText
    rw [nil_append]
    split
    · exact absurd rfl (h 'e' rfl).2.2.1
    · exact absurd rfl (h 'E' rfl).2.2.2
    · rfl
  | some (.ofNat k) =>
    obtain ⟨c, ds, hk, -⟩ := toDigits_eq_cons k
    grind [digitsValue_toDigits, exponent?, exponentText]
  | some (.negSucc k) =>
    obtain ⟨c, ds, hk, -⟩ := toDigits_eq_cons (k + 1)
    grind [digitsValue_toDigits, exponent?, exponentText]

theorem stops_exponentText (e : Option Int) (h : Stops rest) :
    ∀ c ∈ (exponentText e ++ rest).head?, c.isDigit = false ∧ c ≠ '.' := by
  match e with
  | none => exact fun c hc => ⟨(h c hc).1, (h c hc).2.1⟩
  | some (.ofNat k) | some (.negSucc k) => simp [exponentText]

theorem fraction?_pointText {fraction : List Nat} (hfraction : ∀ d ∈ fraction, d < 10)
    (h : ∀ c ∈ rest.head?, c.isDigit = false ∧ c ≠ '.') :
    fraction? (pointText fraction ++ rest) = some (fraction, rest) := by
  unfold pointText
  split_ifs with hnil
  · subst hnil
    rw [nil_append]
    unfold fraction?
    grind
  · have hdigits : digits (fraction.map Nat.digitChar ++ rest) =
        (fraction.map Nat.digitChar, rest) := by
      grind [digits_append, Nat.isDigit_digitChar]
    have hback : (fraction.map Nat.digitChar).map digitValue = fraction := by
      rw [map_map]
      exact (map_congr_left fun d hd => digitValue_digitChar (hfraction d hd)).trans
        (map_id fraction)
    unfold fraction?
    simp only [cons_append, hdigits]
    grind

theorem number?_unsignedText (hn : n.Printable) (h : Stops rest) :
    number? n.negative (n.unsignedText ++ rest) = some (n, rest) := by
  have hexp := stops_exponentText n.exponent h
  have hpoint : ∀ c ∈ (pointText n.fraction ++
      (exponentText n.exponent ++ rest)).head?, c.isDigit = false := by
    unfold pointText
    split_ifs with hnil
    · exact fun c hc => (hexp c hc).1
    · simp
  have hdigits : digits (n.unsignedText ++ rest) = (Nat.toDigits 10 n.whole,
      pointText n.fraction ++ (exponentText n.exponent ++ rest)) := by
    rw [unsignedText, append_assoc, append_assoc]
    exact digits_append (fun c hc => isDigit_of_mem_toDigits hc) hpoint
  obtain ⟨c, ds, heq, hzero⟩ := toDigits_eq_cons n.whole
  unfold number?
  rw [hdigits, heq]
  split
  · simp_all
  · simp_all
  · rename_i hmatch
    obtain ⟨rfl, rfl⟩ := Prod.mk.inj hmatch
    simp [fraction?_pointText hn hexp, exponent?_exponentText _ h]
    rw [← heq, digitsValue_toDigits]

/-! ## Texts -/

theorem hex4?_control {n : Nat} (h : n < 0x20) :
    hex4? '0' '0' (Printer.hexDigit (n / 16)) (Printer.hexDigit (n % 16)) = some n := by
  revert n
  decide

/-- A control character is read from its escape. -/
theorem text_control (h : c.toNat < 0x20) (read cs : List Char) :
    text read true none ('\\' :: 'u' :: '0' :: '0' :: Printer.hexDigit (c.toNat / 16) ::
      Printer.hexDigit (c.toNat % 16) :: cs) = text (c :: read) true none cs := by
  have hlow : isLowSurrogate c.toNat = false := by
    simp only [isLowSurrogate, Bool.and_eq_false_iff, decide_eq_false_iff_not]
    omega
  have hhigh : isHighSurrogate c.toNat = false := by
    simp only [isHighSurrogate, Bool.and_eq_false_iff, decide_eq_false_iff_not]
    omega
  rw [text]
  simp [hex4?_control h, hlow, hhigh]

/-- A character is read from its escape. -/
theorem text_escaped (c : Char) (read cs : List Char) :
    text read true none (Printer.escaped c ++ cs) = text (c :: read) true none cs := by
  unfold Printer.escaped
  split
  · rfl
  · rfl
  · rfl
  · rfl
  · rfl
  · rfl
  · rfl
  · split_ifs with h
    · exact text_control h read cs
    · rw [singleton_append, text]
      · simp [h]
      all_goals simp_all

theorem text_flatMap (cs read rest : List Char) :
    text read true none (cs.flatMap Printer.escaped ++ '"' :: rest) =
      some (some (String.ofList (read.reverse ++ cs)), rest) := by
  induction cs generalizing read with
  | nil => simp
  | cons c cs ih =>
    rw [List.flatMap_cons, List.append_assoc, text_escaped, ih]
    simp

theorem toList_quoted (s : String) :
    (Printer.quoted s).toList = '"' :: (s.toList.flatMap Printer.escaped ++ ['"']) := by
  simp [Printer.quoted]

/-- A text is read back from its quoted form. -/
theorem text_quoted (s : String) (rest : List Char) :
    text [] true none (s.toList.flatMap Printer.escaped ++ '"' :: rest) = some (some s, rest) := by
  rw [text_flatMap]
  simp

/-! ## Values -/

def Blanks (bs : List Char) : Prop := ∀ c ∈ bs, isBlank c = true

theorem skip_append (h : Blanks bs) (cs : List Char) :
    skip (bs ++ cs) = skip cs := dropWhile_append_of_pos h

theorem skip_cons (h : isBlank c = false) (cs : List Char) : skip (c :: cs) = c :: cs := by
  simp [skip, h]

theorem skip_blanks (hbs : Blanks bs) (hc : isBlank c = false) (cs : List Char) :
    skip (bs ++ c :: cs) = c :: cs :=
  (skip_append hbs _).trans (skip_cons hc cs)

theorem value_append (h : Blanks bs) (fuel : Nat) (cs : List Char) :
    value fuel (bs ++ cs) = value fuel cs := by
  cases fuel with
  | zero => rfl
  | succ fuel =>
    unfold value
    rw [skip_append h]

theorem items_append (h : Blanks bs) (fuel : Nat) (read : List Json) (cs : List Char) :
    items fuel read (bs ++ cs) = items fuel read cs := by
  grind [value_append, items.eq_def]

theorem members_append (h : Blanks bs) (fuel : Nat) (read : List (Option String × Json))
    (cs : List Char) : members fuel read (bs ++ cs) = members fuel read cs := by
  grind [skip_append, members.eq_def]

theorem ne_of_isDigit {d : Char} (hc : c.isDigit = true) (hd : d.isDigit = false) : c ≠ d := by
  grind

theorem isBlank_digit (hc : c.isDigit = true) : isBlank c = false := by
  have hne : ∀ d : Char, d.isDigit = false → c ≠ d := fun d hd => ne_of_isDigit hc hd
  simp [isBlank, hne ' ' rfl, hne '\n' rfl, hne '\t' rfl, hne '\r' rfl]

theorem value_digit (hc : c.isDigit = true) (h : number? false (c :: cs) = some (n, rest)) :
    value (fuel + 1) (c :: cs) = some (.num n, rest) := by
  unfold value
  rw [skip_cons (isBlank_digit hc)]
  split
  case h_8 => rw [h]
  all_goals
    rename_i heq
    exact absurd hc (by rw [(List.cons.inj heq).1]; decide)

theorem unsignedText_eq_cons (n : Numeral) :
    ∃ c cs, n.unsignedText = c :: cs ∧ c.isDigit = true := by
  obtain ⟨c, ds, heq, -⟩ := toDigits_eq_cons n.whole
  grind [unsignedText, isDigit_of_mem_toDigits]

theorem text_eq_cons (h : n.Printable) :
    ∃ c cs, n.text.toList = c :: cs ∧ isBlank c = false ∧ c ≠ ']' := by
  rw [toList_text h]
  cases n.negative with
  | true => exact ⟨'-', _, rfl, rfl, by decide⟩
  | false =>
    obtain ⟨c, cs, heq, hc⟩ := unsignedText_eq_cons n
    exact ⟨c, cs, heq, isBlank_digit hc, ne_of_isDigit hc (by decide)⟩

theorem value_numeral (hn : n.Printable) (h : Stops rest) :
    value (fuel + 1) (n.text.toList ++ rest) = some (.num n, rest) := by
  have hnum := number?_unsignedText hn h
  rw [toList_text hn]
  cases hneg : n.negative with
  | true =>
    rw [hneg] at hnum
    unfold value
    simp [skip, isBlank, hnum]
  | false =>
    obtain ⟨c, cs, htext, hc⟩ := unsignedText_eq_cons n
    grind [value_digit]

end Json.Reader

namespace Json

attribute [local simp] prettyAt prettyItems prettyMembers

/-! ## Printed pieces -/

mutual

/-- Every text and key can be read, and every numeral is written in digits. -/
def Printable : Json → Prop
  | .num n => n.Printable
  | .str s => s.isSome = true
  | .arr items => PrintableItems items
  | .obj members => PrintableMembers members
  | _ => True

def PrintableItems : List Json → Prop
  | [] => True
  | v :: rest => Printable v ∧ PrintableItems rest

def PrintableMembers : List (Option String × Json) → Prop
  | [] => True
  | (k, v) :: rest => k.isSome = true ∧ Printable v ∧ PrintableMembers rest

end

variable {j v : Json} {c : Char} {bs rest cs : List Char} {fuel level : Nat} {vs : List Json}
  {ms : List (Option String × Json)} {key : String}

/-- The items of an array as they are written. -/
def itemsText (level : Nat) (items : List Json) : List Char :=
  (String.intercalate ("," ++ Printer.newline level) (prettyItems level items)).toList

/-- The members of an object as they are written. -/
def membersText (level : Nat) (members : List (Option String × Json)) : List Char :=
  (String.intercalate ("," ++ Printer.newline level) (prettyMembers level members)).toList

theorem itemsText_singleton (level : Nat) (v : Json) :
    itemsText level [v] = (prettyAt level v).toList := by
  simp [itemsText]

theorem itemsText_cons (level : Nat) (v w : Json) (rest : List Json) :
    itemsText level (v :: w :: rest) =
      (prettyAt level v).toList ++ ',' :: ((Printer.newline level).toList ++
        itemsText level (w :: rest)) := by
  simp [itemsText]

/-- A key in quotes, and the colon after it. -/
def keyText (key : String) : List Char :=
  '"' :: (key.toList.flatMap Printer.escaped ++ ['"', ':', ' '])

theorem toList_key (key : String) :
    (Printer.text (some key)).toList ++ (':' :: ' ' :: []) = keyText key := by
  simp [Printer.text, Reader.toList_quoted, keyText]

theorem membersText_singleton (level : Nat) (key : String) (v : Json) :
    membersText level [(some key, v)] = keyText key ++ (prettyAt level v).toList := by
  simp [membersText, toList_key]

theorem membersText_cons (level : Nat) (key : String) (v : Json) (m : Option String × Json)
    (rest : List (Option String × Json)) :
    membersText level ((some key, v) :: m :: rest) =
      keyText key ++ ((prettyAt level v).toList ++ ',' :: ((Printer.newline level).toList ++
        membersText level (m :: rest))) := by
  simp [membersText, toList_key]

theorem prettyAt_arr (level : Nat) (v : Json) (rest : List Json) :
    (prettyAt level (.arr (v :: rest))).toList =
      '[' :: ((Printer.newline (level + 1)).toList ++ (itemsText (level + 1) (v :: rest) ++
        ((Printer.newline level).toList ++ [']']))) := by
  simp [itemsText]

theorem prettyAt_obj (level : Nat) (m : Option String × Json) (rest : List (Option String × Json)) :
    (prettyAt level (.obj (m :: rest))).toList =
      '\x7b' :: ((Printer.newline (level + 1)).toList ++ (membersText (level + 1) (m :: rest) ++
        ((Printer.newline level).toList ++ ['\x7d']))) := by
  simp [membersText]

open Reader

/-- The values with only one text. -/
inductive Literal : Json → List Char → Prop
  | null : Literal .null ['n', 'u', 'l', 'l']
  | yes : Literal (.bool true) ['t', 'r', 'u', 'e']
  | no : Literal (.bool false) ['f', 'a', 'l', 's', 'e']
  | arr : Literal (.arr []) ['[', ']']
  | obj : Literal (.obj []) ['\x7b', '\x7d']

theorem Literal.prettyAt (h : Literal v cs) (level : Nat) : (prettyAt level v).toList = cs := by
  cases h <;> simp

theorem prettyAt_str (level : Nat) (s : String) : (prettyAt level (.str (some s))).toList =
    '"' :: (s.toList.flatMap Printer.escaped ++ ['"']) := by
  rw [← toList_quoted, prettyAt]
  rfl

theorem blanks_newline (level : Nat) : Blanks (Printer.newline level).toList := by
  intro c hc
  simp only [Printer.newline, String.toList_append, String.toList_ofList, mem_append,
    mem_replicate] at hc
  rcases hc with hc | hc
  · rw [mem_singleton.1 hc]
    rfl
  · rw [hc.2]
    rfl

/-- A value begins with neither a blank nor a closing bracket. -/
theorem prettyAt_eq_cons (h : j.Printable) (level : Nat) :
    ∃ c cs, (prettyAt level j).toList = c :: cs ∧ isBlank c = false ∧ c ≠ ']' := by
  match j with
  | .null => exact ⟨'n', _, Literal.null.prettyAt level, rfl, by decide⟩
  | .bool true => exact ⟨'t', _, Literal.yes.prettyAt level, rfl, by decide⟩
  | .bool false => exact ⟨'f', _, Literal.no.prettyAt level, rfl, by decide⟩
  | .num n =>
    rw [prettyAt]
    exact text_eq_cons h
  | .str (some s) => exact ⟨'"', _, prettyAt_str level s, rfl, by decide⟩
  | .arr [] => exact ⟨'[', _, Literal.arr.prettyAt level, rfl, by decide⟩
  | .arr (v :: rest) => exact ⟨'[', _, prettyAt_arr level v rest, rfl, by decide⟩
  | .obj [] => exact ⟨'\x7b', _, Literal.obj.prettyAt level, rfl, by decide⟩
  | .obj (m :: rest) => exact ⟨'\x7b', _, prettyAt_obj level m rest, rfl, by decide⟩

theorem itemsText_eq_cons (h : v.Printable) (vs : List Json) (level : Nat) :
    ∃ c cs, itemsText level (v :: vs) = c :: cs ∧ isBlank c = false ∧ c ≠ ']' := by
  obtain ⟨c, cs, heq, hc⟩ := prettyAt_eq_cons h level
  cases vs with
  | nil => exact ⟨c, cs, (itemsText_singleton level v).trans heq, hc⟩
  | cons w vs => exact ⟨c, _, by rw [itemsText_cons, heq, List.cons_append], hc⟩

theorem membersText_eq_cons {m : Option String × Json} (h : m.1.isSome = true)
    (ms : List (Option String × Json)) (level : Nat) :
    ∃ cs, membersText level (m :: ms) = '"' :: cs := by
  obtain ⟨k, v⟩ := m
  obtain ⟨key, rfl⟩ := Option.isSome_iff_exists.1 h
  cases ms with
  | nil => exact ⟨_, membersText_singleton level key v⟩
  | cons m ms => exact ⟨_, membersText_cons level key v m ms⟩

/-! ## Reading the pieces -/

theorem stops_cons (hc : c.isDigit = false ∧ c ≠ '.' ∧ c ≠ 'e' ∧ c ≠ 'E') (rest : List Char) :
    Stops (c :: rest) := by
  intro d hd
  obtain rfl : c = d := by simpa using hd
  exact hc

theorem stops_append (h : Blanks bs) (hc : c.isDigit = false ∧ c ≠ '.' ∧ c ≠ 'e' ∧ c ≠ 'E')
    (rest : List Char) : Stops (bs ++ c :: rest) := by
  cases bs with
  | nil => exact stops_cons hc rest
  | cons b bs =>
    refine stops_cons ?_ (bs ++ c :: rest)
    have hb := h b mem_cons_self
    simp only [isBlank, Bool.or_eq_true, beq_iff_eq] at hb
    rcases hb with ((rfl | rfl) | rfl) | rfl <;> decide

theorem Literal.value (h : Literal v cs) : value (fuel + 1) (cs ++ rest) = some (v, rest) := by
  unfold Reader.value
  cases h <;> simp [skip, isBlank]

theorem value_text {s : String} :
    value (fuel + 1) ('"' :: (s.toList.flatMap Printer.escaped ++ ['"']) ++ rest) =
      some (.str (some s), rest) := by
  unfold value
  simp [skip, isBlank, text_quoted]

theorem value_bracket (hbs : Blanks bs) (hc : isBlank c = false) (hne : c ≠ ']') :
    value (fuel + 1) ('[' :: (bs ++ c :: cs)) = items fuel [] (c :: cs) := by
  unfold value
  rw [skip_cons (by rfl)]
  simp [skip_blanks hbs hc, hne]

theorem value_brace (hbs : Blanks bs) (hc : isBlank c = false) (hne : c ≠ '\x7d') :
    value (fuel + 1) ('\x7b' :: (bs ++ c :: cs)) = members fuel [] (c :: cs) := by
  unfold value
  rw [skip_cons (by rfl)]
  simp [skip_blanks hbs hc, hne]

theorem items_last {read : List Json} (hbs : Blanks bs)
    (hv : value fuel cs = some (v, bs ++ ']' :: rest)) :
    items (fuel + 1) read cs = some (.arr (v :: read).reverse, rest) := by
  unfold items
  simp [hv, skip_blanks hbs (show isBlank ']' = false from rfl)]

theorem items_comma {read : List Json} (hv : value fuel cs = some (v, ',' :: rest)) :
    items (fuel + 1) read cs = items fuel (v :: read) rest := by
  rw [items]
  simp [hv, skip_cons (show isBlank ',' = false from rfl)]

theorem value_blank : value fuel (' ' :: cs) = value fuel cs :=
  @value_append [' '] (by simp [Blanks, isBlank]) fuel cs

theorem members_last {read : List (Option String × Json)} (hbs : Blanks bs)
    (hv : value fuel cs = some (v, bs ++ '\x7d' :: rest)) :
    members (fuel + 1) read (keyText key ++ cs) =
      some (.obj ((some key, v) :: read).reverse, rest) := by
  have hskip := skip_blanks hbs (show isBlank '\x7d' = false from rfl) rest
  unfold members
  simp [keyText, skip_cons (show isBlank '"' = false from rfl), text_quoted,
    skip_cons (show isBlank ':' = false from rfl), value_blank, hv, hskip]

theorem members_comma {read : List (Option String × Json)}
    (hv : value fuel cs = some (v, ',' :: rest)) :
    members (fuel + 1) read (keyText key ++ cs) = members fuel ((some key, v) :: read) rest := by
  rw [members]
  simp [keyText, skip_cons (show isBlank '"' = false from rfl), text_quoted,
    skip_cons (show isBlank ':' = false from rfl), value_blank, hv,
    skip_cons (show isBlank ',' = false from rfl)]

/-! ## Reading a printed value -/

/-- The reader takes the value back from its text and leaves what follows. -/
def Rereads (v : Json) : Prop :=
  ∀ (level fuel : Nat) (rest : List Char), 2 * (prettyAt level v).toList.length ≤ fuel →
    Stops rest → value fuel ((prettyAt level v).toList ++ rest) = some (v, rest)

theorem items_itemsText (hvs : ∀ v ∈ vs, Rereads v) (hne : vs ≠ []) (read : List Json)
    (hbs : Blanks bs) (rest : List Char) (hfuel : 2 * (itemsText level vs).length + 1 ≤ fuel) :
    items fuel read (itemsText level vs ++ (bs ++ ']' :: rest)) =
      some (.arr (read.reverse ++ vs), rest) := by
  induction vs generalizing fuel read with
  | nil => exact absurd rfl hne
  | cons v vs ih =>
    obtain ⟨fuel, rfl⟩ : ∃ n, fuel = n + 1 := ⟨fuel - 1, by omega⟩
    have hv := hvs v mem_cons_self
    cases vs with
    | nil =>
      rw [itemsText_singleton] at hfuel ⊢
      rw [items_last hbs (hv level fuel _ (by omega) (stops_append hbs (by decide) rest))]
      simp
    | cons w vs =>
      rw [itemsText_cons] at hfuel ⊢
      simp only [length_append, length_cons] at hfuel
      rw [append_assoc, cons_append, append_assoc,
        items_comma (hv level fuel _ (by omega) (stops_cons (by decide) _)),
        items_append (blanks_newline level), ih (fun v h => hvs v (mem_cons_of_mem _ h))
        (cons_ne_nil w vs) (v :: read) (by omega)]
      simp

theorem members_membersText (hms : ∀ m ∈ ms, m.1.isSome = true ∧ Rereads m.2) (hne : ms ≠ [])
    (read : List (Option String × Json)) (hbs : Blanks bs) (rest : List Char)
    (hfuel : 2 * (membersText level ms).length + 1 ≤ fuel) :
    members fuel read (membersText level ms ++ (bs ++ '\x7d' :: rest)) =
      some (.obj (read.reverse ++ ms), rest) := by
  induction ms generalizing fuel read with
  | nil => exact absurd rfl hne
  | cons m ms ih =>
    obtain ⟨fuel, rfl⟩ : ∃ n, fuel = n + 1 := ⟨fuel - 1, by omega⟩
    obtain ⟨k, v⟩ := m
    obtain ⟨hkey, hv⟩ : k.isSome = true ∧ Rereads v := hms (k, v) mem_cons_self
    obtain ⟨key, rfl⟩ := Option.isSome_iff_exists.1 hkey
    cases ms with
    | nil =>
      rw [membersText_singleton] at hfuel ⊢
      simp only [length_append] at hfuel
      rw [append_assoc,
        members_last hbs (hv level fuel _ (by omega) (stops_append hbs (by decide) rest))]
      simp
    | cons m ms =>
      rw [membersText_cons] at hfuel ⊢
      simp only [length_append, length_cons] at hfuel
      rw [append_assoc, append_assoc, cons_append, append_assoc,
        members_comma (hv level fuel _ (by omega) (stops_cons (by decide) _)),
        members_append (blanks_newline level),
        ih (fun m h => hms m (mem_cons_of_mem _ h)) (cons_ne_nil m ms)
          ((some key, v) :: read) (by omega)]
      simp

/-- Induction over the values inside a value. -/
theorem induct {P : Json → Prop} (null : P .null) (bool : ∀ b, P (.bool b)) (num : ∀ n, P (.num n))
    (str : ∀ s, P (.str s)) (arr : ∀ items : List Json, (∀ v ∈ items, P v) → P (.arr items))
    (obj : ∀ members : List (Option String × Json), (∀ m ∈ members, P m.2) → P (.obj members))
    (j : Json) : P j :=
  @Json.rec P (fun vs => ∀ v ∈ vs, P v) (fun ms => ∀ m ∈ ms, P m.2) (fun m => P m.2) null bool num
    str arr obj (forall_mem_nil P) (fun _ _ hv hvs => forall_mem_cons.2 ⟨hv, hvs⟩)
    (forall_mem_nil fun m : Option String × Json => P m.2)
    (fun _ _ hm hms => forall_mem_cons.2 ⟨hm, hms⟩) (fun _ _ hv => hv) j

theorem printableItems_iff : PrintableItems vs ↔ ∀ v ∈ vs, v.Printable := by
  induction vs with
  | nil => simp [PrintableItems]
  | cons v vs ih => simp [PrintableItems, ih]

theorem printableMembers_iff :
    PrintableMembers ms ↔ ∀ m ∈ ms, m.1.isSome = true ∧ m.2.Printable := by
  induction ms with
  | nil => simp [PrintableMembers]
  | cons m ms ih => rw [PrintableMembers, ih, forall_mem_cons, and_assoc]

theorem exists_fuel (h : 2 * (c :: cs).length ≤ fuel) :
    ∃ n, fuel = n + 1 ∧ 2 * cs.length + 1 ≤ n := by
  rw [length_cons] at h
  exact ⟨fuel - 1, by omega, by omega⟩

theorem rereads_of_text (htext : ∀ level, (prettyAt level v).toList = c :: cs)
    (hvalue : ∀ fuel rest, value (fuel + 1) (c :: cs ++ rest) = some (v, rest)) : Rereads v := by
  intro level fuel rest hfuel _
  grind [Json.exists_fuel]

theorem Literal.rereads (h : Literal v (c :: cs)) : Rereads v :=
  rereads_of_text h.prettyAt fun _ _ => h.value

theorem rereads_arr (h : ∀ v ∈ vs, v.Printable ∧ Rereads v) : Rereads (.arr vs) := by
  cases vs with
  | nil => exact Literal.arr.rereads
  | cons v vs =>
    intro level fuel rest hfuel _
    rw [prettyAt_arr] at hfuel ⊢
    obtain ⟨fuel, rfl, hlen⟩ := exists_fuel hfuel
    simp only [length_append] at hlen
    obtain ⟨c, cs, heq, hc, hne⟩ := itemsText_eq_cons (h v mem_cons_self).1 vs (level + 1)
    have hread := items_itemsText (fun v hv => (h v hv).2) (cons_ne_nil v vs) []
      (blanks_newline level) rest
      (by omega : 2 * (itemsText (level + 1) (v :: vs)).length + 1 ≤ fuel)
    rw [heq, cons_append] at hread
    rw [heq]
    simp only [cons_append, append_assoc, nil_append]
    rw [value_bracket (blanks_newline _) hc hne]
    exact hread

theorem rereads_obj (h : ∀ m ∈ ms, m.1.isSome = true ∧ Rereads m.2) : Rereads (.obj ms) := by
  cases ms with
  | nil => exact Literal.obj.rereads
  | cons m ms =>
    intro level fuel rest hfuel _
    rw [prettyAt_obj] at hfuel ⊢
    obtain ⟨fuel, rfl, hlen⟩ := exists_fuel hfuel
    simp only [length_append] at hlen
    obtain ⟨cs, heq⟩ := membersText_eq_cons (h m mem_cons_self).1 ms (level + 1)
    have hread := members_membersText h (cons_ne_nil m ms) [] (blanks_newline level) rest
      (by omega : 2 * (membersText (level + 1) (m :: ms)).length + 1 ≤ fuel)
    rw [heq, cons_append] at hread
    rw [heq]
    simp only [cons_append, append_assoc, nil_append]
    rw [value_brace (blanks_newline _) (by rfl) (by decide)]
    exact hread

theorem rereads (h : j.Printable) : Rereads j := by
  induction j using induct with
  | null => exact Literal.null.rereads
  | bool b =>
    cases b with
    | true => exact Literal.yes.rereads
    | false => exact Literal.no.rereads
  | num n =>
    intro level fuel rest hfuel hrest
    obtain ⟨c, cs, heq, -⟩ := prettyAt_eq_cons h level
    rw [heq] at hfuel
    obtain ⟨fuel, rfl, -⟩ := exists_fuel hfuel
    rw [prettyAt]
    exact value_numeral h hrest
  | str s =>
    obtain ⟨s, rfl⟩ := Option.isSome_iff_exists.1 h
    exact rereads_of_text (fun level => prettyAt_str level s) fun _ _ => value_text
  | arr vs ih =>
    have hvs := printableItems_iff.1 h
    exact rereads_arr fun v hv => ⟨hvs v hv, ih v hv (hvs v hv)⟩
  | obj ms ih =>
    have hms := printableMembers_iff.1 h
    exact rereads_obj fun m hm => ⟨(hms m hm).1, ih m hm (hms m hm).2⟩

/-- **A document that was printed is read as the value it was printed from.** -/
theorem parse_pretty (h : j.Printable) : parse j.pretty.toList = some j := by
  have hread := rereads h 0 (2 * j.pretty.toList.length + 2) [] (Nat.le_add_right _ 2)
    (by simp [Stops])
  rw [append_nil] at hread
  unfold parse pretty at *
  rw [hread]
  rfl

end Json

end CanvasFusion
