import LittleBigtable.Bttest.MutationEffect
import LittleBigtable.Gsql.KeyCodec
import LittleBigtable.Lib.OrderedCode

/-!
# Fields of a row key

What the encodings of the single fields guarantee, whatever the struct encoding:

* ordered-code integers differ in order before either ends, and are read back from
  the start of any longer byte string;
* the encoding of a value is decoded to the value, a string if it is text in UTF-8;
* a variable-length field is decoded from no other bytes than its own.
-/

namespace LittleBigtable
namespace Gsql
namespace KeyCodec

open Bttest List OrderedCode
open Lexicographic

section OrderedIntegers

variable {v w : Int} {x y : Nat}

theorem orderedLength_spec (hx : x < 2 ^ 63) :
    0 < orderedLength x ∧ orderedLength x ≤ 10 ∧ x < 2 ^ (7 * orderedLength x - 1) ∧
      ∀ m, 0 < m → m < orderedLength x → 2 ^ (7 * m - 1) ≤ x := by
  unfold orderedLength
  cases hfind : (List.range' 1 10).find? (fun n => decide (x < 2 ^ (7 * n - 1))) with
  | none =>
    have hten := List.find?_eq_none.mp hfind 10 (by decide)
    simp only [decide_eq_true_eq] at hten
    omega
  | some n =>
    obtain ⟨hn, hmem, hleast⟩ := List.find?_range'_eq_some.mp hfind
    rw [mem_range'_1] at hmem
    refine ⟨hmem.1, by simp only [Option.getD_some]; omega, by simpa using hn, ?_⟩
    intro m hm hlt
    simpa using hleast m hm hlt

theorem orderedLength_mono (h : x ≤ y) (hy : y < 2 ^ 63) :
    orderedLength x ≤ orderedLength y := by
  obtain ⟨hpos, _, hlt, _⟩ := orderedLength_spec hy
  obtain ⟨_, _, _, hleast⟩ := orderedLength_spec (Nat.lt_of_le_of_lt h hy)
  by_contra hlonger
  have hge := hleast (orderedLength y) hpos (by omega)
  omega

theorem lt_two_pow_seven_mul (hx : x < 2 ^ 63) :
    x < 2 ^ (7 * orderedLength x) := by
  obtain ⟨_, _, hlt, _⟩ := orderedLength_spec hx
  exact hlt.trans_le (Nat.pow_le_pow_right (by omega) (by omega))

/-- The encoding of a magnitude. -/
def orderedMagnitude (x : Nat) : Bytes :=
  OrderedCode.number (orderedLength x) x

theorem bigEndian_or (hx : x < 2 ^ 63) :
    bigEndian (orderedLength x)
        (x ||| (2 ^ orderedLength x - 1) * 2 ^ (7 * orderedLength x)) =
      orderedMagnitude x := by
  have hor := Nat.two_pow_add_eq_or_of_lt (lt_two_pow_seven_mul hx) (2 ^ orderedLength x - 1)
  rw [Nat.or_comm, Nat.mul_comm, ← hor, Nat.add_comm, Nat.mul_comm]
  rfl

theorem appendOrderedInt64_of_nonneg (h : 0 ≤ v) (hhi : v < 2 ^ 63) :
    appendOrderedInt64 v = orderedMagnitude v.toNat := by
  unfold appendOrderedInt64
  rw [if_neg (by omega), if_neg (by omega)]
  exact bigEndian_or (by omega)

theorem appendOrderedInt64_of_neg (h : v < 0) (hlo : -2 ^ 63 ≤ v) :
    appendOrderedInt64 v = (orderedMagnitude (-v - 1).toNat).map (fun c => ~~~c) := by
  unfold appendOrderedInt64
  rw [if_pos h, if_pos h]
  exact congrArg _ (bigEndian_or (by omega))

theorem orderedMagnitude_before (h : x < y) (hy : y < 2 ^ 63) :
    Before (orderedMagnitude x) (orderedMagnitude y) := by
  unfold orderedMagnitude
  have hx : x < 2 ^ 63 := h.trans hy
  rcases Nat.lt_or_eq_of_le (orderedLength_mono (Nat.le_of_lt h) hy) with hlt | heq
  · obtain ⟨hpos, _, hbound, _⟩ := orderedLength_spec hx
    exact number_before_of_length_lt hpos hlt hbound (lt_two_pow_seven_mul hy)
  · rw [heq]
    exact number_before h (lt_two_pow_seven_mul hy)

/-- The first bit of a magnitude is a one. -/
theorem orderedMagnitude_eq_cons (hx : x < 2 ^ 63) :
    ∃ c rest, orderedMagnitude x = c :: rest ∧ c.toNat.testBit 7 = true := by
  obtain ⟨hpos, _, hbound, _⟩ := orderedLength_spec hx
  have hbit := bit_number hpos hbound (Nat.zero_le _) []
  rw [append_nil] at hbit
  unfold orderedMagnitude
  cases henc : number (orderedLength x) x with
  | nil =>
    rw [henc] at hbit
    simp [bit] at hbit
  | cons c rest =>
    rw [henc] at hbit
    refine ⟨c, rest, rfl, ?_⟩
    simpa [bit, hpos] using hbit

variable (c : UInt8)

theorem testBit_seven_iff :
    c.toNat.testBit 7 = true ↔ 128 ≤ c.toNat := by
  have hlt := c.toNat_lt
  rw [Nat.testBit_eq_decide_div_mod_eq, decide_eq_true_eq]
  omega

theorem toNat_complement :
    (~~~c).toNat = 255 - c.toNat := by
  rw [UInt8.toNat_not]
  rfl

theorem complement_lt_complement (d : UInt8) (h : c < d) :
    ~~~d < ~~~c := by
  rw [UInt8.lt_iff_toNat_lt] at h ⊢
  have hd := d.toNat_lt
  rw [toNat_complement, toNat_complement]
  omega

/-- **Ordered-code integers differ in order before either ends.** -/
theorem appendOrderedInt64_before (h : v < w) (hlo : -2 ^ 63 ≤ v) (hhi : w < 2 ^ 63) :
    Before (appendOrderedInt64 v) (appendOrderedInt64 w) := by
  by_cases hv : v < 0
  · rw [appendOrderedInt64_of_neg hv hlo]
    by_cases hw : w < 0
    · rw [appendOrderedInt64_of_neg hw (by omega)]
      refine Before.map_antitone complement_lt_complement ?_
      exact orderedMagnitude_before (by omega) (by omega)
    -- the sign decides in the first bit
    rw [appendOrderedInt64_of_nonneg (by omega) hhi]
    obtain ⟨c, u, hc, hcbit⟩ := orderedMagnitude_eq_cons (show (-v - 1).toNat < 2 ^ 63 by omega)
    obtain ⟨d, u', hd, hdbit⟩ := orderedMagnitude_eq_cons (show w.toNat < 2 ^ 63 by omega)
    rw [hc, hd]
    refine ⟨[], ~~~c, d, u.map (fun c => ~~~c), u', rfl, rfl, ?_⟩
    rw [testBit_seven_iff] at hcbit hdbit
    rw [UInt8.lt_iff_toNat_lt, toNat_complement]
    omega
  · rw [appendOrderedInt64_of_nonneg (by omega) (by omega),
      appendOrderedInt64_of_nonneg (by omega) hhi]
    exact orderedMagnitude_before (by omega) (by omega)

/-- The loop stops at the first zero. -/
theorem leadingOnes_eq {b : Bytes} {n : Nat} (hn : n ≤ 10)
    (hbits : ∀ i ≤ n, OrderedCode.bit b i = some (decide (i < n))) {fuel i : Nat} (hi : i ≤ n)
    (hfuel : n < i + fuel) :
    leadingOnes b fuel i = .ok n := by
  induction fuel generalizing i with
  | zero => omega
  | succ fuel ih =>
    obtain ⟨c, hc, hbit⟩ := Option.map_eq_some_iff.mp (hbits i hi)
    unfold leadingOnes
    rw [hc]
    simp only [hbit, decide_eq_false_iff_not, Nat.not_lt]
    rcases Nat.lt_or_eq_of_le hi with hlt | rfl
    · rw [if_neg (by omega), if_neg (by omega)]
      exact ih hlt (by omega)
    · rw [if_pos (Nat.le_refl _)]

theorem length_appendOrderedInt64 (hlo : -2 ^ 63 ≤ v) (hhi : v < 2 ^ 63) :
    (appendOrderedInt64 v).length = orderedLength (if v < 0 then (-v - 1).toNat else v.toNat) := by
  by_cases hv : v < 0
  · rw [appendOrderedInt64_of_neg hv hlo, if_pos hv]
    simp [orderedMagnitude]
  · rw [appendOrderedInt64_of_nonneg (by omega) hhi, if_neg hv]
    simp [orderedMagnitude]

/-- An encoding is recognised by its bits, with the sign removed. -/
theorem decodeOrderedInt64_of_bits {first : UInt8} {b : Bytes} (rest : Bytes) (hlo : -2 ^ 63 ≤ v)
    (hhi : v < 2 ^ 63) (hx : x = if v < 0 then (-v - 1).toNat else v.toNat)
    (hneg : (!first.toNat.testBit 7) = decide (v < 0))
    (hbits : (if v < 0 then (first :: b).map (fun c => ~~~c) else first :: b) =
      orderedMagnitude x ++ rest) :
    decodeOrderedInt64 (first :: b) = .ok (v, orderedLength x) := by
  have hx63 : x < 2 ^ 63 := by
    rw [hx]
    split <;> omega
  obtain ⟨hpos, hten, hbound, _⟩ := orderedLength_spec hx63
  have hlength : (first :: b).length = orderedLength x + rest.length := by
    have hlen := congrArg List.length hbits
    rw [length_append, orderedMagnitude, length_number] at hlen
    rw [← hlen]
    split <;> simp
  have hones : leadingOnes (orderedMagnitude x ++ rest) 11 0 = .ok (orderedLength x) :=
    leadingOnes_eq hten (fun i hi => bit_number hpos hbound hi rest)
      (Nat.zero_le _) (by omega)
  have htake : (orderedMagnitude x ++ rest).take (orderedLength x) =
      number (orderedLength x) x :=
    take_left' (by simp [orderedMagnitude])
  have hvalue : BigEndian.value ((orderedMagnitude x ++ rest).take (orderedLength x)) %
      2 ^ (7 * orderedLength x) = x := by
    rw [htake]
    exact value_number_mod (lt_two_pow_seven_mul hx63)
  have hback : (if v < 0 then -(x : Int) - 1 else (x : Int)) = v := by
    rw [hx]
    split <;> omega
  unfold decodeOrderedInt64
  simp only [hneg, decide_eq_true_eq, hbits, hones, hvalue, hback, hlength]
  rw [if_neg (by omega), if_neg (by omega),
    if_neg (by rw [length_appendOrderedInt64 hlo hhi, ← hx]; simp)]

/-- **An ordered-code integer is read back from the start of a byte string.** -/
theorem decodeOrderedInt64_append (hlo : -2 ^ 63 ≤ v) (hhi : v < 2 ^ 63) (rest : Bytes) :
    decodeOrderedInt64 (appendOrderedInt64 v ++ rest) = .ok (v, (appendOrderedInt64 v).length) := by
  rw [length_appendOrderedInt64 hlo hhi]
  by_cases hv : v < 0
  · obtain ⟨c, u, hc, hbit⟩ := orderedMagnitude_eq_cons (show (-v - 1).toNat < 2 ^ 63 by omega)
    rw [appendOrderedInt64_of_neg hv hlo, hc, map_cons, cons_append]
    refine decodeOrderedInt64_of_bits (rest.map (fun c => ~~~c)) hlo hhi rfl ?_ ?_
    · have hsign : (~~~c).toNat.testBit 7 = false := by
        rw [← Bool.not_eq_true, testBit_seven_iff, toNat_complement]
        rw [testBit_seven_iff] at hbit
        omega
      rw [hsign, decide_eq_true hv]
      rfl
    · rw [if_pos hv, if_pos hv, hc]
      simp [Function.comp_def]
  · obtain ⟨c, u, hc, hbit⟩ := orderedMagnitude_eq_cons (show v.toNat < 2 ^ 63 by omega)
    rw [appendOrderedInt64_of_nonneg (by omega) hhi, hc, cons_append]
    refine decodeOrderedInt64_of_bits rest hlo hhi rfl ?_ ?_
    · simp [hbit, hv]
    · rw [if_neg hv, if_neg hv, hc]
      rfl

theorem bit_of_leadingOnes {b : Bytes} {fuel i n : Nat} (h : leadingOnes b fuel i = .ok n) :
    ∀ j, i ≤ j → j < n → bit b j = some true := by
  induction fuel generalizing i with
  | zero => cases h
  | succ fuel ih =>
    unfold leadingOnes at h
    split at h
    · cases h
    rename_i c hc
    split_ifs at h with hbit
    · cases h
      intro j hij hjn
      omega
    · intro j hij hjn
      rcases Nat.lt_or_eq_of_le hij with hlt | rfl
      · exact ih h j hlt hjn
      · rw [bit, hc, Option.map_some, Bool.eq_true_of_not_eq_false hbit]

/-- **What is decoded is an encoding.** -/
theorem isPrefix_of_decodeOrderedInt64 {b : Bytes} {n : Nat}
    (h : decodeOrderedInt64 b = .ok (v, n)) :
    -2 ^ 63 ≤ v ∧ v < 2 ^ 63 ∧ appendOrderedInt64 v <+: b ∧ n = (appendOrderedInt64 v).length := by
  unfold decodeOrderedInt64 at h
  split at h
  · cases h
  rename_i first rest
  dsimp only at h
  generalize (!first.toNat.testBit 7) = neg at h
  generalize first :: rest = b at h ⊢
  generalize hbits : (if neg = true then b.map (fun c => ~~~c) else b) = bits at h
  split at h
  · cases h
  rename_i m hones
  generalize hx : BigEndian.value (bits.take m) % 2 ^ (7 * m) = x at h
  generalize hv : (if neg = true then -(x : Int) - 1 else (x : Int)) = u at h
  split_ifs at h with hm hlt hlen
  cases h
  rw [not_not] at hlen
  have htake : (bits.take n).length = n := by
    rw [length_take, ← hbits]
    split <;> simp <;> omega
  -- the bytes without the sign are the encoding of the magnitude
  have hnumber : bits.take n = number n x := by
    have hnumber := eq_number_of_ones (b := bits.take n) (fun i hi => ?_)
    · rwa [htake, hx] at hnumber
    · rw [htake] at hi
      rw [bit, getElem?_take, if_pos (by omega)]
      exact bit_of_leadingOnes hones i (Nat.zero_le i) hi
  have hrange : -2 ^ 63 ≤ v ∧ v < 2 ^ 63 := by
    rw [← hv]
    split <;> omega
  have hcode : appendOrderedInt64 v = b.take n := by
    have horder := length_appendOrderedInt64 hrange.1 hrange.2
    rw [hlen] at horder
    cases neg with
    | true =>
      obtain rfl : -(x : Int) - 1 = v := hv
      have hneg : -(x : Int) - 1 < 0 := by omega
      have hmag : (-(-(x : Int) - 1) - 1).toNat = x := by omega
      rw [if_pos hneg, hmag] at horder
      rw [appendOrderedInt64_of_neg hneg hrange.1, hmag, orderedMagnitude, ← horder, ← hnumber,
        ← hbits]
      simp [map_take, Function.comp_def]
    | false =>
      obtain rfl : (x : Int) = v := hv
      rw [if_neg (by omega), Int.toNat_natCast] at horder
      rw [appendOrderedInt64_of_nonneg (by omega) hrange.2, Int.toNat_natCast, orderedMagnitude,
        ← horder, ← hnumber, ← hbits]
      rfl
  exact ⟨hrange.1, hrange.2, hcode ▸ List.take_prefix n b, hlen.symm⟩

/-- **Ordered-code integers**: their lengths, their order, and what is decoded. -/
theorem orderedInt64_code :
    (∀ v : Int, -2 ^ 63 ≤ v ∧ v < 2 ^ 63 → 1 ≤ (appendOrderedInt64 v).length ∧
      (appendOrderedInt64 v).length ≤ 10 ∧
      ∀ rest, decodeOrderedInt64 (appendOrderedInt64 v ++ rest) =
        .ok (v, (appendOrderedInt64 v).length)) ∧
    (∀ v w : Int, -2 ^ 63 ≤ v ∧ v < 2 ^ 63 → -2 ^ 63 ≤ w ∧ w < 2 ^ 63 →
      (appendOrderedInt64 v < appendOrderedInt64 w ↔ v < w) ∧
      (appendOrderedInt64 v <+: appendOrderedInt64 w → v = w)) ∧
    ∀ (b : Bytes) (v : Int) (n : Nat), decodeOrderedInt64 b = .ok (v, n) →
      -2 ^ 63 ≤ v ∧ v < 2 ^ 63 ∧ appendOrderedInt64 v <+: b ∧
        n = (appendOrderedInt64 v).length := by
  refine ⟨fun v hv => ?_, fun v w hv hw => ⟨?_, ?_⟩, fun b v n => isPrefix_of_decodeOrderedInt64⟩
  · obtain ⟨hpos, hten, _⟩ := orderedLength_spec
      (show (if v < 0 then (-v - 1).toNat else v.toNat) < 2 ^ 63 by split <;> omega)
    rw [← length_appendOrderedInt64 hv.1 hv.2] at hpos hten
    exact ⟨hpos, hten, decodeOrderedInt64_append hv.1 hv.2⟩
  · refine ⟨fun h => ?_, fun h => (appendOrderedInt64_before h hv.1 hw.2).lt⟩
    rcases Int.lt_trichotomy v w with hlt | rfl | hgt
    · exact hlt
    · exact absurd h (List.lt_irrefl _)
    · exact absurd (appendOrderedInt64_before hgt hw.1 hv.2).lt (List.lt_asymm h)
  · intro h
    -- what is decoded from the longer encoding is the value of the shorter one
    obtain ⟨rest, hrest⟩ := h
    have hdecode := decodeOrderedInt64_append hv.1 hv.2 rest
    rw [hrest, ← append_nil (appendOrderedInt64 w), decodeOrderedInt64_append hw.1 hw.2] at hdecode
    exact congrArg Prod.fst (Except.ok.inj hdecode).symm

end OrderedIntegers

section Fields

variable {t : FieldType} {v : ScalarValue} {b : Bytes}

/-- Integers are 64-bit numbers and timestamps lie in the supported range. -/
def InRange : ScalarValue → Prop
  | .int64 n => -2 ^ 63 ≤ n ∧ n < 2 ^ 63
  | .timestamp us => minTimestampMicros ≤ us ∧ us ≤ maxTimestampMicros
  | _ => True

/-- Strings are text in UTF-8. -/
def IsText : ScalarValue → Prop
  | .string s => Utf8.valid s = true
  | _ => True

/-- If a string escapes nulls, it does so by a single character. -/
def EscapesByChar : FieldType → Prop
  | .stringType esc => esc = [] ∨ ∃ c, esc = String.utf8EncodeChar c
  | _ => True

/-- The encodings of the values of a field. -/
inductive FieldCode : FieldType → ScalarValue → Bytes → Prop
  | nullBytes : FieldCode (.bytesType true) .null []
  | zeroBytes
      {b : Bytes}
      (hzero : allBytesEqual b 0 = true) :
      FieldCode (.bytesType true) (.bytes b) (b ++ [0])
  | bytes
      {escape : Bool} {b : Bytes}
      (hzero : ¬ (escape = true ∧ allBytesEqual b 0 = true)) :
      FieldCode (.bytesType escape) (.bytes b) b
  | nullString {esc : Bytes} (hesc : esc ≠ []) : FieldCode (.stringType esc) .null []
  | blankString
      {esc s : Bytes}
      (hesc : esc ≠ [])
      (htrim : Utf8.trim s esc = []) :
      FieldCode (.stringType esc) (.string s) (s ++ esc)
  | string
      {esc s : Bytes}
      (htrim : ¬ (esc ≠ [] ∧ Utf8.trim s esc = [])) :
      FieldCode (.stringType esc) (.string s) s
  | int64
      (enc : Int64Encoding) (n : Int) :
      FieldCode (.int64Type enc) (.int64 n) (encodeInt64 enc n)
  | timestamp
      (enc : Int64Encoding) (us : Int) :
      FieldCode (.timestampType enc) (.timestamp us) (encodeInt64 enc us)

theorem encodeKeyField_eq_ok_iff (name : Bytes) :
    encodeKeyField t v name = .ok b ↔ FieldCode t v b := by
  constructor
  · intro h
    unfold encodeKeyField at h
    split at h
    · rename_i escape
      cases escape <;> cases h
      exact .nullBytes
    · rename_i escape b'
      split at h
      · rename_i hzero
        cases h
        rw [Bool.and_eq_true] at hzero
        obtain ⟨rfl, hzero⟩ := hzero
        exact .zeroBytes hzero
      · rename_i hzero
        cases h
        exact .bytes (by simpa using hzero)
    · split at h <;> cases h
      exact .nullString ‹_›
    · split at h <;> cases h
      · exact .blankString (And.left ‹_›) (And.right ‹_›)
      · exact .string ‹_›
    all_goals cases h
    · exact .int64 _ _
    · exact .timestamp _ _
  · intro h
    cases h with
    | nullBytes | int64 | timestamp => rfl
    | zeroBytes hzero | bytes hzero => simp [encodeKeyField, hzero]
    | nullString hesc => simp [encodeKeyField, hesc]
    | blankString hesc htrim => simp [encodeKeyField, hesc, htrim]
    | string htrim => simp only [encodeKeyField, if_neg htrim]

theorem FieldCode.unique {b' : Bytes} (h : FieldCode t v b) (h' : FieldCode t v b') :
    b = b' := by
  have hok := (encodeKeyField_eq_ok_iff []).mpr h
  rw [(encodeKeyField_eq_ok_iff []).mpr h'] at hok
  exact (Except.ok.inj hok).symm

theorem decodeInt64_encodeInt64_eq (enc : Int64Encoding) {n : Int} (hlo : -2 ^ 63 ≤ n)
    (hhi : n < 2 ^ 63) :
    decodeInt64 enc (encodeInt64 enc n) = .ok n := by
  cases enc with
  | bigEndianBytes => simp [decodeInt64, encodeInt64, decodeInt64_encodeInt64 hlo hhi]
  | orderedCodeBytes =>
    have happend := decodeOrderedInt64_append hlo hhi []
    rw [append_nil] at happend
    simp [decodeInt64, encodeInt64, happend]

theorem checkTimestamp_of_inRange {us : Int} (hlo : minTimestampMicros ≤ us)
    (hhi : us ≤ maxTimestampMicros) :
    checkTimestamp us = .ok (.timestamp us) := by
  unfold checkTimestamp
  rw [if_neg (by omega)]

theorem trimSuffix_append (s u : Bytes) :
    trimSuffix (s ++ u) u = s := by
  simp [trimSuffix]

theorem timestamp_int64 {us : Int} (hlo : minTimestampMicros ≤ us) (hhi : us ≤ maxTimestampMicros) :
    -2 ^ 63 ≤ us ∧ us < 2 ^ 63 := by
  unfold minTimestampMicros at hlo
  unfold maxTimestampMicros at hhi
  omega

theorem allBytesEqual_append_zero (b : Bytes) :
    allBytesEqual (b ++ [0]) 0 = true ↔ allBytesEqual b 0 = true := by
  simp [allBytesEqual]

/-- Whether a string is decoded depends on its being text only. -/
theorem decodeKeyField_string {esc s : Bytes} (hesc : EscapesByChar (.stringType esc))
    (h : FieldCode (.stringType esc) (.string s) b) :
    decodeKeyField (.stringType esc) b =
      if Utf8.valid s = false then
        .error (invalidf "invalid UTF-8 in STRING key field" [])
      else
        .ok (.string s) := by
  unfold decodeKeyField
  cases h with
  | blankString hne htrim =>
    rcases hesc with rfl | ⟨c, rfl⟩
    · exact absurd rfl hne
    have hb : ¬ (String.utf8EncodeChar c ≠ [] ∧ s ++ String.utf8EncodeChar c = []) := by
      simp [hne]
    have hblank : String.utf8EncodeChar c ≠ [] ∧
        Utf8.trim (s ++ String.utf8EncodeChar c) (String.utf8EncodeChar c) = [] :=
      ⟨hne, (Utf8.trim_append_char s c).mpr htrim⟩
    simp only [if_neg hb, Utf8.valid_append_char, if_pos hblank, trimSuffix_append]
  | string htrim =>
    have hb : ¬ (esc ≠ [] ∧ b = []) := by
      rintro ⟨hne, rfl⟩
      exact htrim ⟨hne, rfl⟩
    simp only [if_neg hb, if_neg htrim]

/-- **The encoding of a value is decoded to the value.** -/
theorem FieldCode.decode (h : FieldCode t v b) (hesc : EscapesByChar t) (hrange : InRange v)
    (htext : IsText v) :
    decodeKeyField t b = .ok v := by
  cases h with
  | nullBytes => rfl
  | zeroBytes hzero =>
    have hzero' := (allBytesEqual_append_zero _).mpr hzero
    simp [decodeKeyField, hzero']
  | @bytes escape _ hzero =>
    have hb : ¬ (escape = true ∧ b = []) := by
      rintro ⟨hescape, rfl⟩
      exact hzero ⟨hescape, rfl⟩
    simp only [decodeKeyField, if_neg hb, if_neg hzero]
  | nullString hne => simp [decodeKeyField, hne]
  | blankString hne htrim =>
    rw [decodeKeyField_string hesc (.blankString hne htrim)]
    exact if_neg (by simpa [IsText] using htext)
  | string htrim =>
    rw [decodeKeyField_string hesc (.string htrim)]
    exact if_neg (by simpa [IsText] using htext)
  | int64 enc n =>
    simp [decodeKeyField, decodeInt64_encodeInt64_eq enc hrange.1 hrange.2, Except.map]
  | timestamp enc us =>
    obtain ⟨hlo, hhi⟩ := timestamp_int64 hrange.1 hrange.2
    simp only [decodeKeyField, decodeInt64_encodeInt64_eq enc hlo hhi]
    exact checkTimestamp_of_inRange hrange.1 hrange.2

/-- A string that is not text is not decoded. -/
theorem FieldCode.decode_of_not_isText (h : FieldCode t v b) (hesc : EscapesByChar t)
    (htext : ¬ IsText v) :
    decodeKeyField t b ≠ .ok v := by
  cases v with
  | string s =>
    have hinvalid : Utf8.valid s = false := by
      simpa [IsText] using htext
    cases t with
    | stringType esc =>
      rw [decodeKeyField_string hesc h, if_pos hinvalid]
      simp
    | _ => cases h
  | _ => exact absurd trivial htext

theorem fieldCode_of_decode_bytes {escape : Bool}
    (h : decodeKeyField (.bytesType escape) b = .ok v) :
    FieldCode (.bytesType escape) v b := by
  simp only [decodeKeyField] at h
  by_cases hnull : escape = true ∧ b = []
  · rw [if_pos hnull] at h
    obtain ⟨rfl, rfl⟩ := hnull
    cases h
    exact .nullBytes
  rw [if_neg hnull] at h
  by_cases hzero : escape = true ∧ allBytesEqual b 0 = true
  · rw [if_pos hzero] at h
    obtain ⟨rfl, hzero⟩ := hzero
    cases h
    -- the last zero byte is the escape
    have hb : b ≠ [] := fun hnil => hnull ⟨rfl, hnil⟩
    have hlast : b.getLast hb = 0 := by
      unfold allBytesEqual at hzero
      simpa using all_eq_true.mp hzero _ (getLast_mem hb)
    have hsplit := dropLast_append_getLast hb
    rw [hlast] at hsplit
    rw [← hsplit, allBytesEqual_append_zero] at hzero
    have hcode := FieldCode.zeroBytes hzero
    rwa [hsplit] at hcode
  · rw [if_neg hzero] at h
    cases h
    exact .bytes hzero

theorem fieldCode_of_decode_string {esc : Bytes} (hesc : EscapesByChar (.stringType esc))
    (h : decodeKeyField (.stringType esc) b = .ok v) :
    FieldCode (.stringType esc) v b := by
  simp only [decodeKeyField] at h
  by_cases hnull : esc ≠ [] ∧ b = []
  · rw [if_pos hnull] at h
    obtain ⟨hne, rfl⟩ := hnull
    cases h
    exact .nullString hne
  rw [if_neg hnull] at h
  by_cases hvalid : Utf8.valid b = false
  · rw [if_pos hvalid] at h
    cases h
  rw [if_neg hvalid] at h
  by_cases hblank : esc ≠ [] ∧ Utf8.trim b esc = []
  · rw [if_pos hblank] at h
    obtain ⟨hne, htrim⟩ := hblank
    cases h
    rcases hesc with rfl | ⟨c, rfl⟩
    · exact absurd rfl hne
    obtain ⟨s, rfl⟩ := Utf8.exists_append_char
      (fun hnil => hnull ⟨hne, hnil⟩) (by simpa using hvalid) htrim
    rw [trimSuffix_append]
    exact .blankString hne ((Utf8.trim_append_char s c).mp htrim)
  · rw [if_neg hblank] at h
    cases h
    exact .string hblank

theorem fieldCode_of_decode (hwidth : fixedKeyWidth t = .variableLength) (hesc : EscapesByChar t)
    (h : decodeKeyField t b = .ok v) :
    FieldCode t v b := by
  cases t with
  | bytesType escape => exact fieldCode_of_decode_bytes h
  | stringType esc => exact fieldCode_of_decode_string hesc h
  | int64Type enc | timestampType enc => cases enc <;> cases hwidth
  | otherType text => cases h

end Fields

section Conversions

variable {w : WireValue} {t : ScalarType} {v : ScalarValue}

/-- The conversions of the values of a key. -/
inductive Converted : WireValue → ScalarType → ScalarValue → Prop
  | null (t : ScalarType) : Converted (.scalar .null) t .null
  | int64 (n : Int) : Converted (.scalar (.intValue n)) .int64 (.int64 n)
  | string (s : Bytes) : Converted (.scalar (.stringValue s)) .string (.string s)
  | bytes (b : Bytes) : Converted (.scalar (.bytesValue b)) .bytes (.bytes b)
  | timestamp
      {seconds nanos : Int}
      (hnanos : 0 ≤ nanos ∧ nanos < 1000000000)
      (hrange : minTimestampMicros ≤ seconds * 1000000 + nanos / 1000 ∧
        seconds * 1000000 + nanos / 1000 ≤ maxTimestampMicros) :
      Converted (.scalar (.timestampValue seconds nanos)) .timestamp
        (.timestamp (seconds * 1000000 + nanos / 1000))

theorem converted_of_fromProtoValue {f : Field} (ht : keySchemaType f = .ok t)
    (h : fromProtoValue w t = .ok v) :
    Converted w t v := by
  have htype : t = .bytes ∨ t = .string ∨ t = .int64 ∨ t = .timestamp := by
    unfold keySchemaType at ht
    split at ht <;> cases ht <;> simp
  cases w with
  | arrayValue values => cases h
  | scalar s =>
    cases s with
    | null => rcases htype with rfl | rfl | rfl | rfl <;> cases h <;> exact .null _
    | boolValue | floatValue => rcases htype with rfl | rfl | rfl | rfl <;> cases h
    | intValue n =>
      rcases htype with rfl | rfl | rfl | rfl <;> cases h
      exact .int64 n
    | stringValue s =>
      rcases htype with rfl | rfl | rfl | rfl <;> cases h
      exact .string s
    | bytesValue b =>
      rcases htype with rfl | rfl | rfl | rfl <;> cases h
      exact .bytes b
    | timestampValue seconds nanos =>
      rcases htype with rfl | rfl | rfl | rfl
      · cases h
      · cases h
      · cases h
      simp only [fromProtoValue, fromProtoScalar] at h
      split at h
      · cases h
      split at h
      · cases h
      · cases h
        exact .timestamp (by omega) (by omega)

end Conversions

section Tuples

/-- A loop that may fail succeeds when every step does. -/
theorem mapM_eq_ok_iff {α β : Type} {f : α → Except Status β} {xs : List α} {ys : List β} :
    xs.mapM f = .ok ys ↔ List.Forall₂ (fun x y => f x = .ok y) xs ys := by
  induction xs generalizing ys with
  | nil =>
    rw [forall₂_nil_left_iff, mapM_nil]
    exact ⟨fun h => (Except.ok.inj h).symm, fun h => congrArg Except.ok h.symm⟩
  | cons x xs ih =>
    rw [mapM_cons, forall₂_cons_left_iff]
    constructor
    · intro h
      cases hx : f x with
      | error st =>
        rw [hx] at h
        cases h
      | ok y =>
        cases hxs : xs.mapM f with
        | error st =>
          rw [hx, hxs] at h
          cases h
        | ok ys' =>
          rw [hx, hxs] at h
          cases h
          exact ⟨y, ys', rfl, ih.mp hxs, rfl⟩
    · rintro ⟨y, ys', hx, hxs, rfl⟩
      rw [hx, ih.mpr hxs]
      rfl

/-- A field of a key with its value and the encoding of the value. -/
structure CodedField where
  field : Field
  value : ScalarValue
  bytes : Bytes
  coded : FieldCode field.type value bytes

theorem mapM_encodeKeyField (cs : List CodedField) :
    ((cs.map CodedField.field).zip (cs.map CodedField.value)).mapM
      (fun fv => encodeKeyField fv.1.type fv.2 fv.1.fieldName) = .ok (cs.map CodedField.bytes) := by
  induction cs with
  | nil => rfl
  | cons c cs ih =>
    rw [map_cons, map_cons, zip_cons_cons, mapM_cons, ih,
      (encodeKeyField_eq_ok_iff _).mpr c.coded]
    rfl

end Tuples

end KeyCodec
end Gsql
end LittleBigtable
