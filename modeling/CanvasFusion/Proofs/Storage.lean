import CanvasFusion.Proofs.Element
import CanvasFusion.Proofs.Number.Nearest

/-!
# Values stored twice

An element of an integer type holds the nearest integer of its range, and its value is that integer
rounded to a single. The integer that a single rounds to has few significant bits and is a single
again, unless it is an end of the range; the ends are found again all the same. So a value that was
stored before is stored as the same bytes (`encode_stored`), although `2^31 - 1` is not a single.

Other bytes may change when their values are stored again, since most integers of 32 bits are no
singles. Their values stay (`decode_encode_of_decode`).
-/

namespace CanvasFusion

open List Bool

theorem halfEven_mem {n k a b : Nat} (hlow : a * 2 ^ k ≤ n) (hhigh : n < b * 2 ^ k) :
    a ≤ halfEven n k ∧ halfEven n k ≤ b := by
  have ha : a ≤ n / 2 ^ k := (Nat.le_div_iff_mul_le (by positivity)).2 hlow
  have hb : n / 2 ^ k < b := Nat.div_lt_of_lt_mul (by rwa [Nat.mul_comm])
  have hunit : Nat.pow 2 k = 2 ^ k := rfl
  simp only [halfEven, hunit]
  split_ifs <;> omega

namespace Single

variable {n k : Nat} {x : Single}

/-- A number with at most 24 significant bits. -/
def IsWhole (n : Nat) : Prop := ∃ a k, a < 2 ^ 24 ∧ n = a * 2 ^ k

theorem IsWhole.exists_mul {j : Nat} (hn : IsWhole n) (h : 2 ^ (23 + j) ≤ n) :
    ∃ m, n = m * 2 ^ j := by
  obtain ⟨a, k, ha, rfl⟩ := hn
  have hlt : 2 ^ (23 + j) < 2 ^ (24 + k) := by
    calc 2 ^ (23 + j) ≤ a * 2 ^ k := h
      _ < 2 ^ 24 * 2 ^ k := by gcongr
      _ = 2 ^ (24 + k) := (pow_add 2 24 k).symm
  have hle := (Nat.pow_lt_pow_iff_right (by norm_num)).1 hlt
  refine ⟨a * 2 ^ (k - j), ?_⟩
  rw [mul_assoc, ← pow_add, Nat.sub_add_cancel (by omega)]

/-! ## The parts of a pattern -/

theorem bits_ofMagnitude (negative : Bool) {c : Nat} (h : c < 0x7f800000) :
    (ofMagnitude negative c).bits.toNat = c + if negative then 0x80000000 else 0 := by
  grind [ofMagnitude, UInt32.toNat_ofNat_of_lt']

/-- A pattern of normal parts has these parts. -/
theorem parts_ofMagnitude (negative : Bool) {m : Nat} {u : Nat} (hlow : 2 ^ 23 ≤ m)
    (hhigh : m < 2 ^ 24) (hu : u < 254) :
    (ofMagnitude negative (m + u * 0x800000)).significand = m ∧
      (ofMagnitude negative (m + u * 0x800000)).power = (u : Int) - 149 ∧
      (ofMagnitude negative (m + u * 0x800000)).isFinite = true ∧
      (ofMagnitude negative (m + u * 0x800000)).isNegative = negative := by
  have hbits := bits_ofMagnitude negative (by omega : m + u * 0x800000 < 0x7f800000)
  have hexp : (ofMagnitude negative (m + u * 0x800000)).exponentField = u + 1 := by
    unfold exponentField
    rw [hbits]
    split_ifs <;> omega
  have hfrac : (ofMagnitude negative (m + u * 0x800000)).fractionField = m - 2 ^ 23 := by
    unfold fractionField
    rw [hbits]
    split_ifs <;> omega
  refine ⟨?_, ?_, ?_, ?_⟩
  · rw [significand, hexp, hfrac, if_neg (by omega)]
    omega
  · rw [power, hexp, if_neg (by omega)]
    push_cast
    omega
  · rw [isFinite, hexp]
    exact decide_eq_true (by omega)
  · rw [isNegative, hbits]
    grind

/-! ## Integers of few bits -/

theorem halfEven_mul (c k : Nat) : halfEven (c * 2 ^ k) k = c := by
  refine halfEven_eq (.inl ?_)
  rw [Nat.cast_mul, Nat.cast_pow, Nat.cast_ofNat, mul_div_cancel_right₀ _ (by positivity), sub_self]
  norm_num

/-- The significand and the power of an integer: `count · 2^(log2 n - 23)`. -/
theorem nearest_whole (negative : Bool) (hpos : n ≠ 0) (hn : IsWhole n) :
    ∃ m, 2 ^ 23 ≤ m ∧ m < 2 ^ 24 ∧ m * 2 ^ (n.log2 - 23) = n * 2 ^ (23 - n.log2) ∧
      nearest negative n 0 = ofMagnitude negative (m + (n.log2 + 126) * 0x800000) := by
  have hlow : 2 ^ n.log2 ≤ n := Nat.log2_self_le hpos
  have hhigh : n < 2 ^ (n.log2 + 1) := Nat.lt_log2_self
  generalize hL : n.log2 = L at *
  have hu : max ((L : Int) + 0 - 23) (-149) = (L : Int) - 23 := by omega
  have hexp : ((L : Int) - 23 + 149).toNat = L + 126 := by omega
  unfold nearest
  simp only [hpos, if_false, hL, hu, hexp]
  by_cases hle : L ≤ 23
  · obtain ⟨j, hj⟩ : ∃ j, 23 = L + j := ⟨23 - L, by omega⟩
    have hsub : 23 - L = j := by omega
    refine ⟨n * 2 ^ j, ?_, ?_, ?_, ?_⟩
    · calc 2 ^ 23 = 2 ^ L * 2 ^ j := by rw [← pow_add, ← hj]
        _ ≤ n * 2 ^ j := by gcongr
    · calc n * 2 ^ j < 2 ^ (L + 1) * 2 ^ j := by gcongr
        _ = 2 ^ 24 := by rw [← pow_add]; congr 1; omega
    · rw [hsub, Nat.sub_eq_zero_of_le hle, pow_zero, mul_one]
    · rw [if_pos (by omega)]
      congr 3
      have : (0 - ((L : Int) - 23)).toNat = j := by omega
      rw [this]
      rfl
  · obtain ⟨j, rfl⟩ : ∃ j, L = 23 + j := ⟨L - 23, by omega⟩
    obtain ⟨m, rfl⟩ := hn.exists_mul hlow
    have hsub : 23 + j - 23 = j := by omega
    rw [pow_add] at hlow
    rw [show 23 + j + 1 = 24 + j by omega, pow_add] at hhigh
    refine ⟨m, Nat.le_of_mul_le_mul_right hlow (by positivity), lt_of_mul_lt_mul_right hhigh
      (by positivity), ?_, ?_⟩
    · rw [hsub, Nat.sub_eq_zero_of_le (by omega), pow_zero, mul_one]
    · have hshift : (((23 + j : Nat) : Int) - 23 - 0).toNat = j := by omega
      rw [if_neg (by omega), hshift, halfEven_mul]

theorem roundedMagnitude_of_le (hpower : x.power = k) (hvalue : x.significand * 2 ^ k = n) :
    x.roundedMagnitude = n := by
  rw [roundedMagnitude, hpower]
  exact hvalue

theorem roundedMagnitude_of_lt (hpower : x.power = Int.negSucc k)
    (hvalue : x.significand = n * 2 ^ (k + 1)) : x.roundedMagnitude = n := by
  rw [roundedMagnitude, hpower, hvalue]
  have hunit : Nat.pow 2 (k + 2) = 2 * Nat.pow 2 (k + 1) := Nat.pow_succ'
  have hpow : 2 ^ (k + 1) = Nat.pow 2 (k + 1) := rfl
  have hp : 0 < Nat.pow 2 (k + 1) := Nat.pow_pos (by norm_num)
  simp only [hunit, hpow]
  generalize Nat.pow 2 (k + 1) = p at *
  exact Nat.div_eq_of_lt_le (by nlinarith) (by nlinarith)

/-- An integer of few bits is a single. -/
theorem roundedMagnitude_nearest (negative : Bool) (hpos : n ≠ 0) (hn : IsWhole n)
    (hlog : n.log2 < 128) : (nearest negative n 0).isFinite = true ∧
      (nearest negative n 0).isNegative = negative ∧
      (nearest negative n 0).roundedMagnitude = n := by
  obtain ⟨m, hlow, hhigh, hvalue, heq⟩ := nearest_whole negative hpos hn
  obtain ⟨hsig, hpower, hfinite, hneg⟩ :=
    parts_ofMagnitude negative hlow hhigh (by omega : n.log2 + 126 < 254)
  rw [heq]
  refine ⟨hfinite, hneg, ?_⟩
  by_cases hle : 23 ≤ n.log2
  · refine roundedMagnitude_of_le (k := n.log2 - 23) ?_ ?_
    · rw [hpower]
      omega
    · rw [hsig, hvalue, Nat.sub_eq_zero_of_le hle, pow_zero, mul_one]
  · obtain ⟨k, hk⟩ : ∃ k, 23 - n.log2 = k + 1 := ⟨22 - n.log2, by omega⟩
    refine roundedMagnitude_of_lt (k := k) ?_ ?_
    · rw [hpower, Int.negSucc_eq]
      omega
    · grind

/-- A finite single rounds to an integer of few bits. -/
theorem isWhole_roundedMagnitude (h : x.isFinite = true) : IsWhole x.roundedMagnitude := by
  have hhigh := (isParts h).high
  unfold roundedMagnitude
  cases x.power with
  | ofNat k => exact ⟨x.significand, k, hhigh, rfl⟩
  | negSucc k =>
    refine ⟨(2 * x.significand + 2 ^ (k + 1)) / 2 ^ (k + 2), 0, ?_, by simp⟩
    have hpow : (2 : Nat) ^ (k + 2) = 2 * 2 ^ (k + 1) := by ring
    have hp : 2 ≤ 2 ^ (k + 1) := by
      calc 2 = 2 ^ 1 := rfl
        _ ≤ 2 ^ (k + 1) := Nat.pow_le_pow_right (by norm_num) (by omega)
    rw [hpow]
    generalize 2 ^ (k + 1) = p at *
    rw [Nat.div_lt_iff_lt_mul (by omega)]
    nlinarith

theorem not_isNaN (h : x.isFinite = true) : x.isNaN = false := by
  rw [isFinite, decide_eq_true_eq] at h
  rw [isNaN, beq_eq_false_iff_ne.2 h.ne, Bool.false_and]

theorem log2_lt_of_le (h : n ≤ 2 ^ 31) : n.log2 < 128 := by
  by_cases hzero : n = 0
  · rw [hzero]
    decide
  · exact (Nat.log2_lt hzero).2 (lt_of_le_of_lt h (by norm_num))

theorem toIntIn_ofInt {lo hi n : Int} (hn : IsWhole n.natAbs) (hlog : n.natAbs.log2 < 128)
    (hlo : lo ≤ n) (hhi : n ≤ hi) : (ofInt n).toIntIn lo hi = n := by
  by_cases hzero : n = 0
  · subst hzero
    have hparts : (ofInt 0).isNaN = false ∧ (ofInt 0).isFinite = true ∧
      (ofInt 0).isNegative = false ∧ (ofInt 0).roundedMagnitude = 0 := by decide
    simp [toIntIn, hparts]
    omega
  · obtain ⟨hfinite, hneg, hmag⟩ := roundedMagnitude_nearest (decide (n < 0))
      (Int.natAbs_ne_zero.2 hzero) hn hlog
    simp only [toIntIn, ofInt, not_isNaN hfinite, hfinite, hneg, hmag, Bool.not_true,
      false_eq_true, if_false, decide_eq_true_eq]
    split_ifs <;> omega

/-- The range of an integer type: it holds zero, and its ends are found again after they were
rounded to a single. -/
structure IsRange (lo hi : Int) : Prop where
  least : -2 ^ 31 ≤ lo
  low : lo ≤ 0
  high : 0 ≤ hi
  most : hi ≤ 2 ^ 31
  first : (ofInt lo).toIntIn lo hi = lo
  last : (ofInt hi).toIntIn lo hi = hi

theorem isRange_u8 : IsRange 0 255 := by
  constructor <;> decide

theorem isRange_i8 : IsRange (-128) 127 := by
  constructor <;> decide

theorem isRange_i32 : IsRange (-0x80000000) 0x7fffffff := by
  constructor <;> decide +kernel

variable {lo hi : Int}

/-- A single is rounded into the range, to one of its ends or to an integer of few bits. -/
theorem IsRange.toIntIn_cases (h : IsRange lo hi) (x : Single) :
    lo ≤ x.toIntIn lo hi ∧ x.toIntIn lo hi ≤ hi ∧
      (x.toIntIn lo hi = lo ∨ x.toIntIn lo hi = hi ∨ IsWhole (x.toIntIn lo hi).natAbs) := by
  have hlow := h.low
  have hhigh := h.high
  by_cases hfinite : x.isFinite = true
  · have hwhole := isWhole_roundedMagnitude hfinite
    obtain ⟨n, hn, heq⟩ : ∃ n : Int, n.natAbs = x.roundedMagnitude ∧
        x.toIntIn lo hi = max lo (min hi n) := by
      simp only [toIntIn, not_isNaN hfinite, hfinite, Bool.not_true, false_eq_true, if_false]
      exact ⟨_, by split_ifs <;> omega, rfl⟩
    grind
  · simp only [toIntIn, not_eq_true] at hfinite ⊢
    simp only [hfinite]
    split_ifs
    · exact ⟨hlow, hhigh, .inr (.inr ⟨0, 0, by norm_num, rfl⟩)⟩
    · exact ⟨le_rfl, hlow.trans hhigh, .inl rfl⟩
    · exact ⟨hlow.trans hhigh, le_rfl, .inr (.inl rfl)⟩
    all_goals simp_all

/-- Rounding to the range a second time changes nothing. -/
theorem IsRange.toIntIn_toIntIn (h : IsRange lo hi) (x : Single) :
    (ofInt (x.toIntIn lo hi)).toIntIn lo hi = x.toIntIn lo hi := by
  have hleast := h.least
  have hmost := h.most
  grind [toIntIn_ofInt, log2_lt_of_le, toIntIn_cases, first, last]

/-! ## Integers of many bits -/

/-- The pattern of `c · 2^k`, for a significand `c` that may have been rounded up to the next
binade. -/
theorem nearest_mul_two_pow (negative : Bool) {c : Nat} (hlow : 2 ^ 23 ≤ c) (hhigh : c ≤ 2 ^ 24) :
    IsWhole (c * 2 ^ k) ∧ nearest negative (c * 2 ^ k) 0 =
      ofMagnitude negative (c + (k + 149) * 0x800000) := by
  by_cases hlast : c = 2 ^ 24
  · have hv : c * 2 ^ k = 2 ^ (24 + k) := by rw [hlast, ← pow_add]
    have hwhole : IsWhole (2 ^ (24 + k)) := ⟨1, 24 + k, by norm_num, by simp⟩
    obtain ⟨m, -, -, hvalue, heq⟩ := nearest_whole negative (by positivity) hwhole
    rw [Nat.log2_two_pow, show 24 + k - 23 = k + 1 by omega, show 23 - (24 + k) = 0 by omega]
      at hvalue
    have hm : m = 2 ^ 23 := by
      have hpos : 0 < 2 ^ (k + 1) := by positivity
      apply Nat.eq_of_mul_eq_mul_right hpos
      rw [hvalue]
      ring
    grind [Nat.log2_two_pow]
  · have hwhole : IsWhole (c * 2 ^ k) := ⟨c, k, by omega, rfl⟩
    have hpos : c * 2 ^ k ≠ 0 := by positivity
    have hlog : (c * 2 ^ k).log2 = 23 + k := by
      rw [Nat.log2_eq_iff hpos]
      constructor
      · rw [pow_add]
        gcongr
      · rw [show 23 + k + 1 = 24 + k by omega, pow_add]
        have hlt : c < 2 ^ 24 := by omega
        gcongr
    obtain ⟨m, -, -, hvalue, heq⟩ := nearest_whole negative hpos hwhole
    rw [hlog, show 23 + k - 23 = k by omega, show 23 - (23 + k) = 0 by omega, pow_zero, mul_one]
      at hvalue
    grind [Nat.eq_of_mul_eq_mul_right]

/-- An integer of many bits is rounded to one of few bits, which is a single. -/
theorem exists_whole_nearest (h : 2 ^ 24 ≤ n) (negative : Bool) :
    ∃ v, IsWhole v ∧ v ≠ 0 ∧ v ≤ 2 ^ (n.log2 + 1) ∧ nearest negative n 0 =
      nearest negative v 0 := by
  have hpos : n ≠ 0 := by omega
  have hlow : 2 ^ n.log2 ≤ n := Nat.log2_self_le hpos
  have hhigh : n < 2 ^ (n.log2 + 1) := Nat.lt_log2_self
  have hlog : 24 ≤ n.log2 := (Nat.le_log2 hpos).2 h
  obtain ⟨k, hk⟩ : ∃ k, n.log2 = 23 + k := ⟨n.log2 - 23, by omega⟩
  have hpow : (2 : Nat) ^ (23 + k + 1) = 2 ^ 24 * 2 ^ k := by ring
  rw [hk] at hlow hhigh ⊢
  obtain ⟨hc, hc'⟩ := halfEven_mem (a := 2 ^ 23) (b := 2 ^ 24) (n := n) (k := k)
    (by rwa [← pow_add]) (by rwa [← hpow])
  have hn : nearest negative n 0 = ofMagnitude negative (halfEven n k + (k + 149) * 0x800000) := by
    have hu : max ((n.log2 : Int) + 0 - 23) (-149) = k := by omega
    have hexp : ((k : Int) + 149).toNat = k + 149 := by omega
    simp only [nearest, hpos, if_false, hu, hexp]
    rw [if_neg (by omega)]
    rfl
  obtain ⟨hwhole, heq⟩ := nearest_mul_two_pow negative (k := k) hc hc'
  refine ⟨halfEven n k * 2 ^ k, hwhole, by positivity, ?_, hn.trans heq.symm⟩
  rw [hpow]
  gcongr

/-- An integer of 32 bits is rounded to an integer of few bits. -/
theorem exists_whole_ofInt {n : Int} (h : n.natAbs ≤ 2 ^ 31) :
    ∃ v : Int, IsWhole v.natAbs ∧ v.natAbs ≤ 2 ^ 31 ∧ ofInt n = ofInt v := by
  by_cases hfew : n.natAbs < 2 ^ 24
  · exact ⟨n, ⟨n.natAbs, 0, hfew, by simp⟩, h, rfl⟩
  by_cases hend : n.natAbs = 2 ^ 31
  · exact ⟨n, ⟨1, 31, by norm_num, by simp [hend]⟩, h, rfl⟩
  obtain ⟨v, hwhole, hpos, hle, heq⟩ :=
    exists_whole_nearest (Nat.le_of_not_lt hfew) (decide (n < 0))
  have hlog : n.natAbs.log2 < 31 := (Nat.log2_lt (by omega)).2 (by omega)
  have hv : v ≤ 2 ^ 31 := hle.trans (Nat.pow_le_pow_right (by norm_num) hlog)
  by_cases hneg : n < 0
  · have habs : (-(v : Int)).natAbs = v := by simp
    have hneg' : -(v : Int) < 0 := by omega
    refine ⟨-(v : Int), by rw [habs]; exact hwhole, by rw [habs]; exact hv, ?_⟩
    rw [ofInt, ofInt, habs, heq, decide_eq_true hneg, decide_eq_true hneg']
  · have hneg' : ¬ (v : Int) < 0 := by omega
    refine ⟨v, hwhole, hv, ?_⟩
    rw [ofInt, ofInt, Int.natAbs_natCast, heq, decide_eq_false hneg, decide_eq_false hneg']

/-- What an integer of 32 bits is rounded to is found again after it was rounded back, although
`2^31` is cut off. -/
theorem ofInt_toIntIn_ofInt {n : Int} (hlo : -0x80000000 ≤ n) (hhi : n ≤ 0x7fffffff) :
    ofInt ((ofInt n).toIntIn (-0x80000000) 0x7fffffff) = ofInt n := by
  obtain ⟨v, hwhole, hv, heq⟩ := exists_whole_ofInt (n := n) (by omega)
  rw [heq]
  by_cases hcut : v = 2 ^ 31
  · subst hcut
    decide +kernel
  · rw [toIntIn_ofInt hwhole (log2_lt_of_le hv) (by omega) (by omega)]

end Single

/-! ## Elements -/

theorem wordOfBytes_wordBytes {n : Nat} (h : n < 2 ^ 32) :
    wordOfBytes (UInt8.ofNat n) (UInt8.ofNat (n / 0x100)) (UInt8.ofNat (n / 0x10000))
      (UInt8.ofNat (n / 0x1000000)) = n := by
  simp only [wordOfBytes, UInt8.toNat_ofNat']
  omega

namespace ElementType

open Single

variable {bytes : List UInt8} {t : ElementType} {xs : List Single}

/-- The value an element holds after a value was stored in it. -/
def stored : ElementType → Single → Single
  | .f32, x => x
  | .u8, x => .ofInt (x.toIntIn 0 255)
  | .i8, x => .ofInt (x.toIntIn (-128) 127)
  | .i32, x => .ofInt (x.toIntIn (-0x80000000) 0x7fffffff)

theorem signed_byte {n : Int} (hlo : -128 ≤ n) (hhi : n ≤ 127) :
    signed 8 (UInt8.ofNat (n % 0x100).toNat).toNat = n := by
  have hpow : Nat.pow 2 8 = 0x100 ∧ Nat.pow 2 (8 - 1) = 0x80 := by decide
  rw [UInt8.toNat_ofNat', signed, hpow.1, hpow.2]
  split_ifs <;> omega

/-- A word of two's complement is kept with its integer. -/
theorem toNat_emod_eq_iff {n : Int} {w : Nat} (hlo : -0x80000000 ≤ n) (hhi : n ≤ 0x7fffffff)
    (hw : w < 2 ^ 32) : (n % 0x100000000).toNat = w ↔ n = signed 32 w := by
  have hpow : Nat.pow 2 32 = 0x100000000 ∧ Nat.pow 2 (32 - 1) = 0x80000000 := by decide
  rw [signed, hpow.1, hpow.2]
  split_ifs <;> omega

/-- A buffer of stored values is decoded to what the elements hold. -/
theorem decode_encode_eq (t : ElementType) (xs : List Single) :
    t.decode (t.encode xs) = .ok (xs.map t.stored) := by
  unfold decode
  rw [if_neg (by rw [length_encode, Nat.mul_mod_left]; exact fun hne => hne rfl)]
  refine congrArg Except.ok ?_
  induction xs with
  | nil => cases t <;> rfl
  | cons x xs ih =>
    cases t with
    | f32 =>
      refine congrArg₂ cons ?_ ih
      rw [wordOfBytes_wordBytes x.bits.toNat_lt]
      exact congrArg mk UInt32.ofNat_toNat
    | i32 =>
      refine congrArg₂ cons ?_ ih
      obtain ⟨hlo, hhi, -⟩ := isRange_i32.toIntIn_cases x
      rw [wordOfBytes_wordBytes (by omega)]
      exact congrArg ofInt ((toNat_emod_eq_iff hlo hhi (by omega)).1 rfl).symm
    | u8 =>
      refine congrArg₂ cons ?_ ih
      obtain ⟨hlo, hhi, -⟩ := isRange_u8.toIntIn_cases x
      refine congrArg ofInt ?_
      rw [UInt8.toNat_ofNat']
      omega
    | i8 =>
      refine congrArg₂ cons ?_ ih
      obtain ⟨hlo, hhi, -⟩ := isRange_i8.toIntIn_cases x
      exact congrArg ofInt (signed_byte hlo hhi)

theorem decode_encode_of_stored (h : ∀ x ∈ xs, t.stored x = x) :
    t.decode (t.encode xs) = .ok xs := by
  rw [decode_encode_eq]
  exact congrArg Except.ok ((map_congr_left h).trans (map_id xs))

/-- A list of zeros and ones, such as a mask, is decoded as it was encoded. -/
theorem decode_encode (t : ElementType) (h : ∀ x ∈ xs, x = .zero ∨ x = .one) :
    t.decode (t.encode xs) = .ok xs := by
  refine decode_encode_of_stored fun x hx => ?_
  rcases h x hx with rfl | rfl <;> cases t <;> decide +kernel

/-- Storing what an element holds changes nothing. -/
theorem encode_stored (t : ElementType) (xs : List Single) :
    t.encode (xs.map t.stored) = t.encode xs := by
  rw [encode, encode, flatMap_map]
  congr 1
  funext x
  cases t with
  | f32 => rfl
  | u8 => simp only [stored, encodeOne, isRange_u8.toIntIn_toIntIn]
  | i8 => simp only [stored, encodeOne, isRange_i8.toIntIn_toIntIn]
  | i32 => simp only [stored, encodeOne, isRange_i32.toIntIn_toIntIn]

/-- The words of a buffer; a shorter rest is left out. -/
def words : List UInt8 → List Nat
  | a :: b :: c :: d :: rest => wordOfBytes a b c d :: words rest
  | _ => []

theorem decodeWords_eq_map (f : Nat → Single) (bytes : List UInt8) :
    decodeWords f bytes = (words bytes).map f := by
  fun_induction words bytes with
  | case1 a b c d rest ih => rw [decodeWords, ih, map_cons]
  | case2 bytes hshort => exact decodeWords.eq_2 f bytes hshort

theorem word_lt {w : Nat} (h : w ∈ words bytes) : w < 2 ^ 32 := by
  fun_induction words bytes with
  | case1 a b c d rest ih =>
    rcases mem_cons.1 h with rfl | h
    · have ha := a.toNat_lt
      have hb := b.toNat_lt
      have hc := c.toNat_lt
      have hd := d.toNat_lt
      simp only [wordOfBytes]
      omega
    · exact ih h
  | case2 => cases h

theorem signed_mem {bits n : Nat} (hbits : 0 < bits) (h : n < 2 ^ bits) :
    -2 ^ (bits - 1) ≤ signed bits n ∧ signed bits n < 2 ^ (bits - 1) := by
  obtain ⟨k, rfl⟩ : ∃ k, bits = k + 1 := ⟨bits - 1, by omega⟩
  have hpow : ∀ j, Nat.pow 2 j = 2 ^ j := fun _ => rfl
  grind [signed]

/-- An element holds a value that was read from one. -/
theorem stored_of_mem_decode {x : Single} (h : t.decode bytes = .ok xs)
    (hx : x ∈ xs) : t.stored x = x := by
  -- An integer of one byte is a single.
  have hbyte : ∀ {lo hi n : Int}, lo ≤ n → n ≤ hi → n.natAbs < 2 ^ 24 →
      ofInt ((ofInt n).toIntIn lo hi) = ofInt n := fun hlo hhi hn => by
    rw [toIntIn_ofInt ⟨_, 0, hn, by simp⟩ (log2_lt_of_le (by omega)) hlo hhi]
  simp only [decode] at h
  split_ifs at h
  cases t with
  | f32 => rfl
  | u8 =>
    obtain ⟨b, -, rfl⟩ := mem_map.1 (Except.ok.inj h ▸ hx)
    have hb := b.toNat_lt
    exact hbyte (by omega) (by omega) (by omega)
  | i8 =>
    obtain ⟨b, -, rfl⟩ := mem_map.1 (Except.ok.inj h ▸ hx)
    obtain ⟨hlo, hhi⟩ : -2 ^ (8 - 1) ≤ signed 8 b.toNat ∧ signed 8 b.toNat < 2 ^ (8 - 1) :=
      signed_mem (by norm_num) b.toNat_lt
    exact hbyte (by omega) (by omega) (by omega)
  | i32 =>
    have hmem : x ∈ decodeWords _ bytes := Except.ok.inj h ▸ hx
    rw [decodeWords_eq_map] at hmem
    obtain ⟨w, hw, rfl⟩ := mem_map.1 hmem
    obtain ⟨hlo, hhi⟩ := signed_mem (by norm_num) (word_lt hw)
    exact ofInt_toIntIn_ofInt (by omega) (by omega)

/-- **Values that were read from a buffer are read from the buffer they are stored in.** -/
theorem decode_encode_of_decode (h : t.decode bytes = .ok xs) : t.decode (t.encode xs) = .ok xs :=
  decode_encode_of_stored fun _ hx => stored_of_mem_decode h hx

end ElementType

end CanvasFusion
