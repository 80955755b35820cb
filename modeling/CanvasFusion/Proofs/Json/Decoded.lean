import CanvasFusion.Proofs.Number.Rereading

/-!
# Typed values are read back from JSON

What is asked of a codec is written down once (`Codec.Lawful`), and everything about files is proved
from it. The codec of the program meets it (`standard_lawful`).

A reader recovers a value from what was written for it if all numbers in it are in range and finite.
A single that is not finite is written null, and null is no number, so the reader gives nothing:
`ifFinite` says both at once, and `bind_ifFinite` joins it over the parts of a value.

A record is written with the fields it has, and `fields?_present` finds them again whatever is left
out. Each reader also bounds what it can give (`nat?_lt`, `int?_mem`), and the lemmas that end in
`mem` carry such a bound through lists, pairs and fields.
-/

namespace CanvasFusion

open List Option

/-- The value, unless one of the numbers is not finite. -/
def ifFinite {α : Type} (xs : List Single) (a : α) : Option α :=
  if xs.all Single.isFinite then some a else none

section IfFinite

variable {α β : Type} (xs ys : List Single) (a : α)

@[simp] theorem ifFinite_nil : ifFinite [] a = some a := rfl

@[simp] theorem map_ifFinite (f : α → β) : (ifFinite xs a).map f = ifFinite xs (f a) := by
  unfold ifFinite
  split_ifs <;> rfl

/-- Two values that are read one after the other. -/
@[simp] theorem bind_ifFinite (f : α → β) :
    ((ifFinite xs a).bind fun a => ifFinite ys (f a)) = ifFinite (xs ++ ys) (f a) := by
  grind [ifFinite]

@[simp] theorem bind_ifFinite_some (f : α → β) :
    ((ifFinite xs a).bind fun a => some (f a)) = ifFinite xs (f a) := by
  unfold ifFinite
  split_ifs <;> rfl

end IfFinite

namespace Numeral

theorem lt_of_mem_digitsOf {n d : Nat} (h : d ∈ digitsOf n) : d < 10 := by
  obtain ⟨c, hc, rfl⟩ := mem_map.1 h
  have hdigit := Json.Reader.isDigit_of_mem_toDigits hc
  simp only [Char.isDigit, Bool.and_eq_true, decide_eq_true_eq] at hdigit
  have hle : c.toNat ≤ '9'.toNat := hdigit.2
  grind

theorem printable_ofDecimal (layout : Numeral.Layout) (negative : Bool) (d : Decimal) :
    (ofDecimal layout negative d).Printable := by
  unfold ofDecimal
  simp only
  split_ifs
  · cases d.power with
    | ofNat k => simp [Printable]
    | negSucc k =>
      intro e he
      rcases mem_append.1 he with he | he
      · grind
      · exact lt_of_mem_digitsOf he
  · intro e he
    exact lt_of_mem_digitsOf (mem_of_mem_tail he)

theorem printable_ofSingle (layout : Layout) (x : Single) : (ofSingle layout x).Printable := by
  unfold ofSingle
  split_ifs
  · simp [Printable]
  · exact printable_ofDecimal layout _ _

end Numeral

namespace Json

open Numeral

variable {α β : Type} {n : Nat} {j : Json} {f : Json → Option α} {as : List α} {P : α → Prop}
  {names : List String} {write : α → Json} {fields : List (Option Json)}

/-! ## Numbers -/

/-- An integer is read from a numeral without point and exponent. -/
theorem toInt?_whole (negative : Bool) (n : Nat) :
    toInt? ⟨negative, n, [], none⟩ =
      if negative then (if n = 0 ∨ 0x8000000000000000 < n then none else some (-n : Int))
      else if n < wordSize then some (n : Int) else none :=
  if_neg (by simp)

theorem toInt?_ofNat (h : n < wordSize) : (Numeral.ofNat n).toInt? = some n := by
  rw [Numeral.ofNat, toInt?_whole]
  simp [h]

theorem nat?_ofNat (h : n < wordSize) : nat? (.ofNat n) = some n := by
  simp [nat?, Json.ofNat, toInt?_ofNat h]

theorem nat?_lt (h : nat? j = some n) : n < wordSize := by
  unfold nat? at h
  split at h
  · grind [toInt?]
  · cases h

theorem int?_ofInt {lo hi i : Int} (hlo : lo ≤ i) (hhi : i ≤ hi) (hleast : -0x80000000 ≤ lo)
    (hmost : hi ≤ 0x7fffffff) : int? lo hi (.ofInt i) = some i := by
  have hint : (Numeral.ofInt i).toInt? = some i := by
    rw [Numeral.ofInt, toInt?_whole, wordSize]
    grind
  simp [int?, Json.ofInt, hint, hlo, hhi]

theorem int?_mem {lo hi i : Int} (h : int? lo hi j = some i) : lo ≤ i ∧ i ≤ hi := by
  unfold int? at h
  grind [bind_eq_some_iff]

/-! ## Codecs -/

/-- A codec reads its own documents back, writes a finite single as a numeral that is read as the
same single and any other single as null, reads no single from null, and reads a number past every
single as infinity. -/
structure Codec.Lawful (c : Codec) : Prop where
  parse_pretty : ∀ {j : Json}, j.Printable → c.parse (c.pretty j).toList = some j
  finite : ∀ {x : Single}, x.isFinite = true →
    ∃ n : Numeral, n.Printable ∧ c.ofSingle x = .num n ∧ c.single? (.num n) = some x
  notFinite : ∀ {x : Single}, x.isFinite = false → c.ofSingle x = .null
  null : c.single? .null = none
  overflow : c.single? (.num ⟨false, 1, [], some 39⟩) = some .infinity

namespace Codec.Lawful

variable {c : Codec} (hc : c.Lawful)

include hc

/-- A single is read back if it is finite; another is written null and cannot be read. -/
theorem single?_ofSingle (x : Single) : c.single? (c.ofSingle x) = ifFinite [x] x := by
  cases hx : x.isFinite with
  | false => simp [hc.notFinite hx, hc.null, ifFinite, hx]
  | true =>
    obtain ⟨n, -, hn, hread⟩ := hc.finite hx
    simp [hn, hread, ifFinite, hx]

theorem printable_ofSingle (x : Single) : (c.ofSingle x).Printable := by
  cases hx : x.isFinite with
  | false =>
    rw [hc.notFinite hx]
    trivial
  | true =>
    obtain ⟨n, hn, heq, -⟩ := hc.finite hx
    rw [heq]
    exact hn

end Codec.Lawful

theorem standard_lawful : Codec.standard.Lawful where
  parse_pretty := Json.parse_pretty
  finite {x} hx :=
    ⟨_, Numeral.printable_ofSingle singleLayout x, if_pos hx, Single.toSingle?_ofSingle hx⟩
  notFinite hx := if_neg (Bool.eq_false_iff.1 hx)
  null := rfl
  overflow := by decide +kernel

/-! ## Lists, pairs and absent values -/

/-- A reader takes `a` back from what was written for it, unless one of its numbers is not
finite. -/
def Recovers (f : Json → Option α) (write : α → Json) (singles : α → List Single) (a : α) : Prop :=
  f (write a) = ifFinite (singles a) a

theorem list?_map {singles : α → List Single} (h : ∀ a ∈ as, Recovers f write singles a) :
    Recovers (list? f) (fun as => .arr (as.map write)) (List.flatMap singles) as := by
  change (as.map write).mapM f = _
  induction as with
  | nil => rfl
  | cons a as ih =>
    have ha : f (write a) = ifFinite (singles a) a := h a mem_cons_self
    rw [map_cons, mapM_cons, ha, ih fun b hb => h b (mem_cons_of_mem a hb)]
    simp [flatMap_cons]

section

variable (hf : ∀ j a, f j = some a → P a) {field : Option Json}

include hf

theorem list?_mem (h : list? f j = some as) : ∀ a ∈ as, P a := by
  unfold list? at h
  split at h
  · rename_i items
    induction items generalizing as with
    | nil =>
      cases h
      simp
    | cons v items ih =>
      rw [mapM_cons] at h
      obtain ⟨a, ha, h⟩ := bind_eq_some_iff.1 h
      obtain ⟨bs, hbs, h⟩ := bind_eq_some_iff.1 h
      grind
  · cases h

theorem pair?_mem {p : Pair α} (h : pair? f j = some p) : ∀ a ∈ p.toList, P a := by
  unfold pair? at h
  grind [bind_eq_some_iff, Pair.toList]

/-- A field that was read holds what its reader gives, or its default. -/
theorem withDefault_mem {default : α} (hdefault : P default) {a : α}
    (h : withDefault default f field = some a) : P a := by
  cases field with
  | none =>
    cases h
    exact hdefault
  | some j => exact hf j a h

theorem required_mem {a : α} (h : required f field = some a) : P a := by
  cases field with
  | none => cases h
  | some j => exact hf j a h

theorem nullable?_mem {o : Option α} (h : nullable? f j = some o) : ∀ a ∈ o, P a := by
  grind [nullable?, map_eq_some_iff]

end

/-! ## Records -/

/-- The members of a record: the fields that are there, in the order of their names. -/
def present (names : List String) (fields : List (Option Json)) : List (String × Json) :=
  (names.zip fields).filterMap fun p => p.2.map fun v => (p.1, v)

/-- The members under a key, when all keys are readable. -/
def underKey (key : String) (members : List (String × Json)) : List Json :=
  (members.filter fun m => m.1 == key).map (·.2)

theorem under_object (key : String) (members : List (String × Json)) :
    under key (members.map fun (k, v) => (some k, v)) = underKey key members := by
  rw [under, underKey, List.filter_map, List.map_map]
  rfl

theorem present_cons (n : String) (v : Option Json) (names : List String)
    (fields : List (Option Json)) :
    present (n :: names) (v :: fields) =
      (v.toList.map fun j => (n, j)) ++ present names fields := by
  cases v <;> rfl

theorem underKey_append (key : String) (ms ns : List (String × Json)) :
    underKey key (ms ++ ns) = underKey key ms ++ underKey key ns := by
  simp [underKey]

theorem underKey_present_of_notMem {key : String} (h : key ∉ names) (fields : List (Option Json)) :
    underKey key (present names fields) = [] := by
  induction names generalizing fields with
  | nil => rfl
  | cons n names ih =>
    rw [mem_cons, not_or] at h
    cases fields with
    | nil => rfl
    | cons v fields =>
      rw [present_cons, underKey_append, ih h.2]
      cases v <;> simp [underKey, Ne.symm h.1]

theorem underKey_present (h : names.Nodup) :
    ∀ p ∈ names.zip fields, underKey p.1 (present names fields) = p.2.toList := by
  induction names generalizing fields with
  | nil => simp
  | cons n names ih =>
    rw [nodup_cons] at h
    cases fields with
    | nil => simp
    | cons v fields =>
      rw [zip_cons_cons, forall_mem_cons]
      constructor
      · rw [present_cons, underKey_append, underKey_present_of_notMem h.1]
        cases v <;> simp [underKey]
      · intro p hp
        have hne : n ≠ p.1 := fun heq => h.1 (heq ▸ (of_mem_zip hp).1)
        rw [present_cons, underKey_append, ih h.2 p hp]
        cases v <;> simp [underKey, hne]

theorem mapM_eq_some {γ : Type} {f : β → Option γ} {xs : List β} {ys : List γ}
    (hlen : xs.length = ys.length)
    (h : ∀ p ∈ xs.zip ys, f p.1 = some p.2) : xs.mapM f = some ys := by
  induction xs generalizing ys with
  | nil => grind
  | cons x xs ih =>
    cases ys with
    | nil => cases hlen
    | cons y ys =>
      rw [zip_cons_cons, forall_mem_cons] at h
      grind

/-- **The fields of a record are found again**, those that were left out as well. -/
theorem fields?_present (h : names.Nodup) (hlen : names.length = fields.length)
    (hj : j = object (present names fields)) : j.fields? names = some fields := by
  subst hj
  have hkeys : ((present names fields).map fun (k, v) => ((some k, v) : Option String × Json)).all
      (fun m => m.1.isSome) = true := by simp
  unfold object fields?
  simp only [hkeys, if_true, under_object]
  refine mapM_eq_some hlen fun p hp => ?_
  rw [underKey_present h p hp]
  cases p.2 <;> rfl

theorem fields?_object {ms : List (String × Json)} (h : (ms.map Prod.fst).Nodup) :
    (object ms).fields? (ms.map Prod.fst) = some (ms.map fun m => some m.2) := by
  refine fields?_present h (by simp) (congrArg object ?_)
  induction ms with
  | nil => rfl
  | cons m ms ih => exact congrArg (m :: ·) (ih (nodup_cons.1 h).2)

/-! ## Printing -/

theorem printable_ofNat (n : Nat) : (Json.ofNat n).Printable := forall_mem_nil _

theorem printable_ofInt (n : Int) : (Json.ofInt n).Printable := forall_mem_nil _

theorem printable_ofText (s : String) : (Json.ofText s).Printable := rfl

theorem printable_arr (h : ∀ a ∈ as, (write a).Printable) : Printable (.arr (as.map write)) :=
  printableItems_iff.2 fun v hv => by
    grind

theorem printable_ofNats (ns : List Nat) : (Json.ofNats ns).Printable :=
  printable_arr fun n _ => printable_ofNat n

theorem printable_object {members : List (String × Json)} (h : ∀ m ∈ members, m.2.Printable) :
    (object members).Printable :=
  printableMembers_iff.2 fun m hm => by
    grind

end Json

end CanvasFusion
