import Mathlib.Data.Nat.Digits.Lemmas
import Mathlib.Tactic.NormNum

/-!
# Textual codecs over bytes

Base64 with the URL alphabet and without padding, and decimal 64-bit integers,
both as functions on byte lists.  The decoders accept more than the encoders
produce: line breaks inside base64 text are skipped and the unused low bits of a
last digit are ignored; a number may have a sign and leading zeros.

* `Base64.decode_encode`
* `Decimal.parse_format`
-/

namespace Base64

open List

/-- The digit with value `v < 64`. -/
def digit (v : Nat) : UInt8 :=
  if v < 26 then UInt8.ofNat (65 + v)
  else if v < 52 then UInt8.ofNat (71 + v)
  else if v < 62 then UInt8.ofNat (v - 4)
  else if v = 62 then 45
  else 95

/-- The value of a digit. -/
def digitValue (c : UInt8) : Option Nat :=
  if 65 ≤ c.toNat ∧ c.toNat ≤ 90 then some (c.toNat - 65)
  else if 97 ≤ c.toNat ∧ c.toNat ≤ 122 then some (c.toNat - 71)
  else if 48 ≤ c.toNat ∧ c.toNat ≤ 57 then some (c.toNat + 4)
  else if c.toNat = 45 then some 62
  else if c.toNat = 95 then some 63
  else none

theorem digitValue_digit :
    ∀ v < 64, digitValue (digit v) = some v := by
  decide

/-- Line breaks, which a decoder skips. -/
def isBreak (c : UInt8) : Bool :=
  decide (c = 10) || decide (c = 13)

theorem isBreak_digit :
    ∀ v < 64, isBreak (digit v) = false := by
  decide

/-- Three bytes give four digits; one or two last bytes give one digit more than
there are bytes. -/
def split : List UInt8 → List Nat
  | [] => []
  | [a] => [a.toNat / 4, a.toNat % 4 * 16]
  | [a, b] => [a.toNat / 4, a.toNat % 4 * 16 + b.toNat / 16, b.toNat % 16 * 4]
  | a :: b :: c :: rest =>
    a.toNat / 4 :: (a.toNat % 4 * 16 + b.toNat / 16) ::
      (b.toNat % 16 * 4 + c.toNat / 64) :: c.toNat % 64 :: split rest

/-- The bytes of a list of digit values.  A single last digit is an error. -/
def join : List Nat → Option (List UInt8)
  | [] => some []
  | [_] => none
  | [x, y] => some [UInt8.ofNat (x * 4 + y / 16)]
  | [x, y, z] => some [UInt8.ofNat (x * 4 + y / 16), UInt8.ofNat (y % 16 * 16 + z / 4)]
  | x :: y :: z :: w :: rest =>
    (join rest).map (fun bytes =>
      UInt8.ofNat (x * 4 + y / 16) :: UInt8.ofNat (y % 16 * 16 + z / 4) ::
        UInt8.ofNat (z % 4 * 64 + w) :: bytes)

def encode (bytes : List UInt8) : List UInt8 :=
  (split bytes).map digit

def decode (text : List UInt8) : Option (List UInt8) :=
  ((text.filter (fun c => !isBreak c)).mapM digitValue).bind join

variable (bytes : List UInt8)

theorem split_lt :
    ∀ v ∈ split bytes, v < 64 := by
  induction bytes using split.induct with
  | case1 => simp [split]
  | case2 a =>
    have ha := a.toNat_lt
    simp only [split, mem_cons, not_mem_nil, or_false, forall_eq_or_imp, forall_eq]
    omega
  | case3 a b =>
    have ha := a.toNat_lt
    have hb := b.toNat_lt
    simp only [split, mem_cons, not_mem_nil, or_false, forall_eq_or_imp, forall_eq]
    omega
  | case4 a b c rest ih =>
    have ha := a.toNat_lt
    have hb := b.toNat_lt
    have hc := c.toNat_lt
    simp only [split, mem_cons, forall_eq_or_imp]
    exact ⟨by omega, by omega, by omega, by omega, ih⟩

theorem ofNat_eq_of_toNat {a : UInt8} {n : Nat} (h : n = a.toNat) :
    UInt8.ofNat n = a := by
  rw [h, UInt8.ofNat_toNat]

theorem join_split :
    join (split bytes) = some bytes := by
  induction bytes using split.induct with
  | case1 => rfl
  | case2 a =>
    have ha : a.toNat / 4 * 4 + a.toNat % 4 * 16 / 16 = a.toNat := by omega
    simp only [split, join, ofNat_eq_of_toNat ha]
  | case3 a b =>
    have hb := b.toNat_lt
    have ha : a.toNat / 4 * 4 + (a.toNat % 4 * 16 + b.toNat / 16) / 16 = a.toNat := by omega
    have hb' : (a.toNat % 4 * 16 + b.toNat / 16) % 16 * 16 +
        b.toNat % 16 * 4 / 4 = b.toNat := by omega
    simp only [split, join, ofNat_eq_of_toNat ha, ofNat_eq_of_toNat hb']
  | case4 a b c rest ih =>
    have hb := b.toNat_lt
    have hc := c.toNat_lt
    have ha : a.toNat / 4 * 4 + (a.toNat % 4 * 16 + b.toNat / 16) / 16 = a.toNat := by omega
    have hb' : (a.toNat % 4 * 16 + b.toNat / 16) % 16 * 16 +
        (b.toNat % 16 * 4 + c.toNat / 64) / 4 = b.toNat := by omega
    have hc' : (b.toNat % 16 * 4 + c.toNat / 64) % 4 * 64 + c.toNat % 64 = c.toNat := by omega
    simp only [split, join, ih, Option.map_some, ofNat_eq_of_toNat ha,
      ofNat_eq_of_toNat hb', ofNat_eq_of_toNat hc']

theorem mapM_digitValue (vs : List Nat) (h : ∀ v ∈ vs, v < 64) :
    (vs.map digit).mapM digitValue = some vs := by
  induction vs with
  | nil => rfl
  | cons v vs ih =>
    have hv := digitValue_digit v (h v (by simp))
    have hvs := ih (fun w hw => h w (mem_cons_of_mem v hw))
    simp [mapM_cons, hv, hvs]

theorem decode_encode :
    decode (encode bytes) = some bytes := by
  have hkeep : (encode bytes).filter (fun c => !isBreak c) = encode bytes := by
    rw [filter_eq_self]
    intro c hc
    obtain ⟨v, hv, rfl⟩ := mem_map.mp hc
    rw [isBreak_digit v (split_lt bytes v hv)]
    rfl
  unfold decode
  rw [hkeep]
  unfold encode
  rw [mapM_digitValue _ (split_lt bytes), Option.bind_some, join_split]

end Base64

namespace Decimal

/-- The digits of a natural number, the most significant first. -/
def formatNat (n : Nat) : List UInt8 :=
  if n = 0 then
    [48]
  else
    (Nat.digits 10 n).reverse.map (fun d => UInt8.ofNat (48 + d))

def format (x : Int) : List UInt8 :=
  if x < 0 then 45 :: formatNat x.natAbs else formatNat x.natAbs

/-- The value of a digit string, starting from `acc`. -/
def parseDigits : Nat → List UInt8 → Option Nat
  | acc, [] => some acc
  | acc, c :: cs =>
    if 48 ≤ c.toNat ∧ c.toNat ≤ 57 then
      parseDigits (acc * 10 + (c.toNat - 48)) cs
    else
      none

/-- At least one digit is required. -/
def parseNat (text : List UInt8) : Option Nat :=
  if text = [] then none else parseDigits 0 text

/-- A number with an optional sign, if it fits in 64 bits. -/
def parse (text : List UInt8) : Option Int :=
  match text with
  | [] => none
  | c :: cs =>
    if c = 45 then
      (parseNat cs).bind (fun n => if n ≤ 2 ^ 63 then some (-n : Int) else none)
    else
      (parseNat (if c = 43 then cs else c :: cs)).bind (fun n =>
        if n < 2 ^ 63 then some (n : Int) else none)

theorem parseDigits_map (ds : List Nat) (h : ∀ d ∈ ds, d < 10) (acc : Nat) :
    parseDigits acc (ds.map (fun d => UInt8.ofNat (48 + d))) =
      some (ds.foldl (fun acc d => acc * 10 + d) acc) := by
  induction ds generalizing acc with
  | nil => rfl
  | cons d ds ih =>
    have hd := h d (by simp)
    have hval : (UInt8.ofNat (48 + d)).toNat = 48 + d := by
      simp only [UInt8.toNat_ofNat']
      omega
    simp only [List.map_cons, parseDigits, hval, List.foldl_cons]
    rw [if_pos ⟨by omega, by omega⟩, Nat.add_sub_cancel_left,
      ih (fun e he => h e (List.mem_cons_of_mem d he))]

variable (n : Nat) {x : Int}

theorem foldl_reverse_digits :
    (Nat.digits 10 n).reverse.foldl (fun acc d => acc * 10 + d) 0 = n := by
  have hvalue := Nat.ofDigits_digits 10 n
  rw [Nat.ofDigits_eq_foldr] at hvalue
  rw [List.foldl_reverse]
  calc (Nat.digits 10 n).foldr (fun d acc => acc * 10 + d) 0
      = (Nat.digits 10 n).foldr (fun d acc => ((d : Nat) : Nat) + 10 * acc) 0 := by
        congr 1
        funext d acc
        ring
    _ = n := hvalue

theorem formatNat_ne_nil :
    formatNat n ≠ [] := by
  unfold formatNat
  split_ifs with h
  · simp
  · simp [Nat.digits_ne_nil_iff_ne_zero, h]

theorem parseNat_formatNat :
    parseNat (formatNat n) = some n := by
  unfold parseNat
  rw [if_neg (formatNat_ne_nil n)]
  unfold formatNat
  split_ifs with h
  · rw [h]
    rfl
  · rw [parseDigits_map, foldl_reverse_digits]
    intro d hd
    exact Nat.digits_lt_base (by omega) (List.mem_reverse.mp hd)

theorem mem_formatNat {n : Nat} {c : UInt8} (h : c ∈ formatNat n) :
    48 ≤ c.toNat ∧ c.toNat < 58 := by
  unfold formatNat at h
  split_ifs at h with hn
  · simp only [List.mem_singleton] at h
    rw [h]
    decide
  obtain ⟨d, hd, rfl⟩ := List.mem_map.mp h
  have hlt := Nat.digits_lt_base (by omega : 1 < 10) (List.mem_reverse.mp hd)
  simp only [UInt8.toNat_ofNat']
  omega

theorem mem_format {c : UInt8} (h : c ∈ format x) :
    c = 45 ∨ (48 ≤ c.toNat ∧ c.toNat < 58) := by
  unfold format at h
  split_ifs at h
  · rcases List.mem_cons.mp h with rfl | h
    · exact .inl rfl
    · exact .inr (mem_formatNat h)
  · exact .inr (mem_formatNat h)

theorem formatNat_injective {n m : Nat} (h : formatNat n = formatNat m) :
    n = m := by
  have hparse := parseNat_formatNat n
  rw [h, parseNat_formatNat] at hparse
  exact (Option.some.inj hparse).symm

/-- Different numbers have different texts. -/
theorem format_injective {y : Int} (h : format x = format y) :
    x = y := by
  -- a text that starts with a digit has no sign
  have hsign : ∀ {n m : Nat}, (45 : UInt8) :: formatNat n ≠ formatNat m := by
    intro n m heq
    have hmem : (45 : UInt8) ∈ formatNat m := by
      rw [← heq]
      simp
    have hlo := (mem_formatNat hmem).1
    revert hlo
    decide
  unfold format at h
  split_ifs at h with hx hy hy
  · have habs := formatNat_injective (List.cons.inj h).2
    omega
  · exact absurd h hsign
  · exact absurd h.symm hsign
  · have habs := formatNat_injective h
    omega

theorem parse_format (h0 : 0 ≤ x) (h1 : x < 2 ^ 63) :
    parse (format x) = some x := by
  unfold format
  rw [if_neg (by omega)]
  have hparse := parseNat_formatNat x.natAbs
  cases htext : formatNat x.natAbs with
  | nil => exact absurd htext (formatNat_ne_nil _)
  | cons c cs =>
    have hc : 48 ≤ c.toNat := (mem_formatNat (n := x.natAbs) (by simp [htext])).1
    have hminus : c ≠ 45 := by
      rintro rfl
      revert hc
      decide
    have hplus : c ≠ 43 := by
      rintro rfl
      revert hc
      decide
    rw [htext] at hparse
    simp only [parse, if_neg hminus, if_neg hplus, hparse, Option.bind_some]
    rw [if_pos (by omega), Int.natAbs_of_nonneg h0]

theorem lt_of_parse {text : List UInt8} (h : parse text = some x) :
    x < 2 ^ 63 := by
  cases text with
  | nil => cases h
  | cons c cs =>
    simp only [parse] at h
    split_ifs at h <;>
      · obtain ⟨n, -, hn⟩ := Option.bind_eq_some_iff.mp h
        split_ifs at hn with hrange
        cases hn
        omega

end Decimal
