import LittleBigtable.Lib.BigEndian
import Mathlib.Data.List.DropRight
import Mathlib.Data.Nat.Bitwise

/-!
# OrderedCode

Encodings of tuples whose byte order is the order of the tuples.

* A tuple of byte strings is written with the byte `00` escaped as `00 FF`, the
  strings separated by `00 01` and an empty string marked by `00 00`; empty strings
  at the end are left out.  `join_lt` says that the encoding is strictly monotone.
* A number takes `n` bytes, the first `n` bits of which are ones followed by a zero.
  `number_before` and `number_before_of_length_lt` say that the encodings of two
  numbers differ in order before either ends.
-/

namespace LittleBigtable
namespace OrderedCode

open Lexicographic List BigEndian

section Tuples

/-- One byte of a string. -/
def escape (c : UInt8) : List UInt8 :=
  if c = 0 then [0, 0xFF] else [c]

/-- One string of a tuple. -/
def field (e : List UInt8) : List UInt8 :=
  if e = [] then [0, 0] else e.flatMap escape

/-- The strings behind the first one. -/
def tail : List (List UInt8) → List UInt8
  | [] => []
  | e :: es =>
    if (e :: es).all (fun e => decide (e = [])) then
      []
    else
      [0, 1] ++ field e ++ tail es

def join : List (List UInt8) → List UInt8
  | [] => [0, 0]
  | e :: es => field e ++ tail es

theorem zero_lt_of_lt {x y : UInt8} (h : x < y) :
    0 < y := by
  rw [UInt8.lt_iff_toNat_lt] at h ⊢
  exact Nat.lt_of_le_of_lt (Nat.zero_le _) h

theorem escape_before {x y : UInt8} (h : x < y) :
    Before (escape x) (escape y) := by
  have hy : y ≠ 0 := by
    rintro rfl
    exact absurd (UInt8.lt_iff_toNat_lt.mp h) (Nat.not_lt_zero _)
  by_cases hx : x = 0
  · exact ⟨[], 0, y, [0xFF], [], by simp [escape, hx], by simp [escape, hy], zero_lt_of_lt h⟩
  · exact ⟨[], x, y, [], [], by simp [escape, hx], by simp [escape, hy], h⟩

theorem field_ne_nil (e : List UInt8) :
    field e ≠ [] := by
  unfold field escape
  cases e with
  | nil => simp
  | cons c e =>
    by_cases hc : c = 0
    · simp [hc]
    · simp [hc]

theorem tail_eq_nil {es : List (List UInt8)} (h : es.all (fun e => decide (e = [])) = true) :
    tail es = [] := by
  cases es with
  | nil => rfl
  | cons e es => rw [tail, if_pos h]

variable (es : List (List UInt8)) {r s : List (List UInt8)}

theorem tail_cases :
    tail es = [] ∨ ∃ rest, tail es = 0 :: 1 :: rest := by
  cases es with
  | nil => exact .inl rfl
  | cons e es =>
    unfold tail
    by_cases hall : (e :: es).all (fun e => decide (e = [])) = true
    · exact .inl (if_pos hall)
    · exact .inr ⟨field e ++ tail es, by rw [if_neg hall]; rfl⟩

theorem tail_lt_escape (y : UInt8) (rest : List UInt8) :
    tail es < escape y ++ rest := by
  rcases tail_cases es with hnil | ⟨tl, htl⟩
  · rw [hnil]
    unfold escape
    split <;> simp
  rw [htl]
  by_cases hy : y = 0
  · exact Before.lt ⟨[0], 1, 0xFF, tl, rest, by simp, by simp [escape, hy], by decide⟩
  · refine Before.lt ⟨[], 0, y, 1 :: tl, rest, by simp, by simp [escape, hy], ?_⟩
    exact UInt8.pos_iff_ne_zero.mpr hy

/-- The first string that differs decides. -/
theorem field_lt {a b : List UInt8} (h : a < b) (r s : List (List UInt8)) :
    field a ++ tail r < field b ++ tail s := by
  have hb : b ≠ [] := by
    rintro rfl
    simp at h
  unfold field
  rw [if_neg hb]
  by_cases ha : a = []
  · -- the mark of an empty string comes before every byte
    subst ha
    obtain ⟨y, v, rfl⟩ := exists_cons_of_ne_nil hb
    by_cases hy : y = 0
    · exact Before.lt ⟨[0], 0, 0xFF, tail r, v.flatMap escape ++ tail s, by simp,
        by simp [escape, hy], by decide⟩
    · exact Before.lt ⟨[], 0, y, 0 :: tail r, v.flatMap escape ++ tail s, by simp,
        by simp [escape, hy], UInt8.pos_iff_ne_zero.mpr hy⟩
  · rw [if_neg ha]
    rcases before_or_append_of_lt h with ⟨p, x, y, u, v, rfl, rfl, hlt⟩ | ⟨y, v, rfl⟩
    · have hbefore := ((escape_before hlt).append
        (u.flatMap escape ++ tail r) (v.flatMap escape ++ tail s)).prepend (p.flatMap escape)
      simpa using hbefore.lt
    · have hlt := tail_lt_escape r y (v.flatMap escape ++ tail s)
      simpa using (append_lt_append_iff).mpr hlt

/-- A string of the larger tuple is not empty. -/
theorem not_all_nil_of_lt (hlen : r.length = s.length) (h : r < s) :
    ¬ s.all (fun e => decide (e = [])) = true := by
  induction r generalizing s with
  | nil =>
    have hs : s = [] := length_eq_zero_iff.mp hlen.symm
    simp [hs] at h
  | cons a r ih =>
    cases s with
    | nil => simp at h
    | cons b s =>
      intro hall
      rw [all_cons, Bool.and_eq_true, decide_eq_true_eq] at hall
      obtain ⟨rfl, hall⟩ := hall
      rcases cons_lt_cons_iff.mp h with hlt | ⟨_, hlt⟩
      · simp at hlt
      · exact ih (by simpa using hlen) hlt hall

theorem tail_lt (hlen : r.length = s.length) (h : r < s) :
    tail r < tail s := by
  induction r generalizing s with
  | nil =>
    have hs : s = [] := length_eq_zero_iff.mp hlen.symm
    simp [hs] at h
  | cons a r ih =>
    cases s with
    | nil => simp at h
    | cons b s =>
      have hlen' : r.length = s.length := by
        simpa using hlen
      unfold tail
      rw [if_neg (not_all_nil_of_lt hlen h)]
      by_cases hr : (a :: r).all (fun e => decide (e = [])) = true
      · rw [if_pos hr]
        simp
      rw [if_neg hr, append_assoc, append_assoc, append_lt_append_iff]
      rcases cons_lt_cons_iff.mp h with hlt | ⟨rfl, hlt⟩
      · exact field_lt hlt r s
      · exact (append_lt_append_iff).mpr (ih hlen' hlt)

/-- The strings without the empty ones at the end. -/
def trimmed (es : List (List UInt8)) : List (List UInt8) :=
  (es.reverse.dropWhile (fun e => decide (e = []))).reverse

theorem trimmed_cons (e : List UInt8) (es : List (List UInt8)) :
    trimmed (e :: es) =
      if (e :: es).all (fun e => decide (e = [])) then [] else e :: trimmed es := by
  unfold trimmed
  rw [reverse_cons, dropWhile_append]
  by_cases hes : es.all (fun e => decide (e = [])) = true
  · have hnil : es.reverse.dropWhile (fun e => decide (e = [])) = [] := by
      rw [dropWhile_eq_nil_iff]
      intro x hx
      exact all_eq_true.mp hes x (mem_reverse.mp hx)
    rw [hnil, all_cons, hes, Bool.and_true]
    by_cases he : e = []
    · simp [he]
    · simp [he]
  · have hne : es.reverse.dropWhile (fun e => decide (e = [])) ≠ [] := by
      intro hnil
      rw [dropWhile_eq_nil_iff] at hnil
      exact hes (all_eq_true.mpr (fun x hx => hnil x (mem_reverse.mpr hx)))
    have hall : ¬ (e :: es).all (fun e => decide (e = [])) = true := by
      rw [all_cons, Bool.and_eq_true]
      exact fun h => hes h.2
    rw [if_neg hall, if_neg (by simpa using hne), reverse_append]
    rfl

/-- The strings that are left out are empty. -/
theorem trimmed_append_replicate :
    trimmed es ++ List.replicate (es.length - (trimmed es).length) [] = es := by
  induction es with
  | nil => rfl
  | cons e es ih =>
    rw [trimmed_cons]
    split
    · rename_i hall
      rw [nil_append, length_nil, Nat.sub_zero]
      refine (eq_replicate_of_mem ?_).symm
      intro x hx
      simpa using all_eq_true.mp hall x hx
    · rw [cons_append, length_cons, length_cons, Nat.add_sub_add_right, ih]

theorem length_trimmed_le :
    (trimmed es).length ≤ es.length := by
  have hlen := (dropWhile_sublist (l := es.reverse) (fun e => decide (e = []))).length_le
  simpa [trimmed] using hlen

theorem tail_eq_flatMap :
    tail es = (trimmed es).flatMap (fun e => [0, 1] ++ field e) := by
  induction es with
  | nil => rfl
  | cons e es ih =>
    rw [tail, trimmed_cons]
    split
    · rfl
    · rw [flatMap_cons, ih]

/-- **The encoding of a tuple is strictly monotone.** -/
theorem join_lt (hlen : r.length = s.length) (h : r < s) :
    join r < join s := by
  cases r with
  | nil =>
    have hs : s = [] := length_eq_zero_iff.mp hlen.symm
    simp [hs] at h
  | cons a r =>
    cases s with
    | nil => simp at h
    | cons b s =>
      have hlen' : r.length = s.length := by
        simpa using hlen
      rcases cons_lt_cons_iff.mp h with hlt | ⟨rfl, hlt⟩
      · exact field_lt hlt r s
      · exact (append_lt_append_iff).mpr (tail_lt hlen' hlt)

end Tuples

section Numbers

/-- The `n` bytes of a number below `2 ^ (7 * n - 1)`: the first `n` bits are ones,
and a zero follows. -/
def number (n x : Nat) : List UInt8 :=
  BigEndian.digits n (x + (2 ^ n - 1) * 2 ^ (7 * n))

/-- A bit of a byte list, the most significant one first. -/
def bit (b : List UInt8) (i : Nat) : Option Bool :=
  b[i / 8]?.map (fun c => c.toNat.testBit (7 - i % 8))

@[simp] theorem length_number (n x : Nat) :
    (number n x).length = n := by
  simp [number]

theorem pow_byte (n : Nat) :
    256 ^ n = 2 ^ n * 2 ^ (7 * n) := by
  rw [← Nat.pow_add, show n + 7 * n = 8 * n by omega, Nat.pow_mul]

theorem ones_add (n : Nat) :
    2 ^ (7 * n) + (2 ^ n - 1) * 2 ^ (7 * n) = 256 ^ n := by
  have hpos : 0 < 2 ^ n := Nat.two_pow_pos n
  rw [pow_byte, Nat.add_comm, ← Nat.succ_mul]
  congr 1
  omega

variable {n x : Nat}

theorem value_number (hx : x < 2 ^ (7 * n)) :
    BigEndian.value (number n x) = x + (2 ^ n - 1) * 2 ^ (7 * n) := by
  have hfill := ones_add n
  rw [number, value_digits, Nat.mod_eq_of_lt (by omega)]

theorem value_number_mod (hx : x < 2 ^ (7 * n)) :
    BigEndian.value (number n x) % 2 ^ (7 * n) = x := by
  rw [value_number hx, Nat.add_mul_mod_self_right, Nat.mod_eq_of_lt hx]

theorem number_before {y : Nat} (h : x < y) (hy : y < 2 ^ (7 * n)) :
    Before (number n x) (number n y) := by
  refine before_of_value_lt (by simp) ?_
  rw [value_number (h.trans hy), value_number hy]
  omega

/-- A number of fewer bytes comes first: its first zero stands where the longer one
has a one. -/
theorem number_before_of_length_lt {m y : Nat} (hm : 0 < m) (hmn : m < n) (hx : x < 2 ^ (7 * m - 1))
    (hy : y < 2 ^ (7 * n)) :
    Before (number m x) (number n y) := by
  obtain ⟨k, rfl⟩ : ∃ k, n = m + k := ⟨n - m, by omega⟩
  have hhalf : 2 ^ (7 * m) = 2 * 2 ^ (7 * m - 1) := by
    rw [← Nat.pow_succ']
    congr 1
    omega
  have hfillm := ones_add m
  have hfilln := ones_add (m + k)
  -- compare the first `m` bytes of both
  have hlt : x + (2 ^ m - 1) * 2 ^ (7 * m) <
      (y + (2 ^ (m + k) - 1) * 2 ^ (7 * (m + k))) / 256 ^ k := by
    rw [Nat.lt_iff_add_one_le, Nat.le_div_iff_mul_le (Nat.pow_pos (by omega))]
    have hzero : 2 ^ (7 * (m + k)) ≤ 2 ^ (7 * m - 1) * 256 ^ k := by
      rw [show 256 ^ k = 2 ^ (8 * k) by rw [Nat.pow_mul], ← Nat.pow_add]
      exact Nat.pow_le_pow_right (by omega) (by omega)
    have hscale : (2 ^ (7 * m - 1) + (2 ^ m - 1) * 2 ^ (7 * m)) * 256 ^ k +
        2 ^ (7 * m - 1) * 256 ^ k = 256 ^ (m + k) := by
      rw [← Nat.add_mul, Nat.pow_add, ← hfillm]
      congr 1
      omega
    have hbound : (x + (2 ^ m - 1) * 2 ^ (7 * m) + 1) * 256 ^ k ≤
        (2 ^ (7 * m - 1) + (2 ^ m - 1) * 2 ^ (7 * m)) * 256 ^ k :=
      Nat.mul_le_mul_right _ (by omega)
    omega
  have hfirst : Before (number m x)
      (BigEndian.digits m ((y + (2 ^ (m + k) - 1) * 2 ^ (7 * (m + k))) / 256 ^ k)) := by
    refine before_of_value_lt (by simp) ?_
    rw [value_number (by omega), value_digits, Nat.mod_eq_of_lt]
    · exact hlt
    · rw [Nat.div_lt_iff_lt_mul (Nat.pow_pos (by omega)), ← Nat.pow_add]
      omega
  have happend := hfirst.append [] (BigEndian.digits k (y + (2 ^ (m + k) - 1) * 2 ^ (7 * (m + k))))
  rwa [append_nil, ← digits_add] at happend

/-- A bit of a byte list is a bit of the number that it denotes. -/
theorem bit_append {b : List UInt8} {i : Nat} (hi : i / 8 < b.length) (rest : List UInt8) :
    bit (b ++ rest) i = some ((value b).testBit (8 * b.length - 1 - i)) := by
  have hdigits : digits b.length (value b) = b :=
    value_injective (by simp) (by rw [value_digits, Nat.mod_eq_of_lt (value_lt b)])
  have hbyte : (b ++ rest)[i / 8]? =
      some (UInt8.ofNat (value b / 256 ^ (b.length - 1 - i / 8))) := by
    rw [getElem?_append_left hi, ← getElem?_digits hi, hdigits]
  have hshift : 256 ^ (b.length - 1 - i / 8) = 2 ^ (8 * (b.length - 1 - i / 8)) := by
    rw [Nat.pow_mul]
  have hplace : 7 - i % 8 + 8 * (b.length - 1 - i / 8) = 8 * b.length - 1 - i := by omega
  have hlow : decide (7 - i % 8 < 8) = true := decide_eq_true (by omega)
  rw [bit, hbyte, Option.map_some, UInt8.toNat_ofNat', Nat.testBit_mod_two_pow, hshift,
    Nat.testBit_div_two_pow, hplace, hlow, Bool.true_and]

/-- The first bits of a number are ones, then a zero. -/
theorem bit_number {i : Nat} (hn : 0 < n) (hx : x < 2 ^ (7 * n - 1)) (hi : i ≤ n)
    (rest : List UInt8) :
    bit (number n x ++ rest) i = some (decide (i < n)) := by
  have hlow : x < 2 ^ (7 * n) := hx.trans_le (Nat.pow_le_pow_right (by omega) (by omega))
  rw [bit_append (by rw [length_number]; omega), length_number, value_number hlow,
    Nat.add_comm x, Nat.mul_comm (2 ^ n - 1), Nat.testBit_two_pow_mul_add _ hlow]
  rcases Nat.lt_or_eq_of_le hi with hlt | rfl
  · rw [if_neg (by omega), Nat.testBit_two_pow_sub_one]
    congr 2
    rw [eq_iff_iff]
    omega
  · rw [if_pos (by omega), Nat.testBit_lt_two_pow
      (hx.trans_le (Nat.pow_le_pow_right (by omega) (by omega)))]
    simp

/-- As many bytes as they have ones in front are a number. -/
theorem eq_number_of_ones {b : List UInt8} (h : ∀ i < b.length, bit b i = some true) :
    b = number b.length (value b % 2 ^ (7 * b.length)) := by
  have hhigh : value b / 2 ^ (7 * b.length) = 2 ^ b.length - 1 := by
    refine Nat.eq_of_testBit_eq fun j => ?_
    rw [Nat.testBit_div_two_pow, Nat.testBit_two_pow_sub_one]
    by_cases hj : j < b.length
    · have hbit := bit_append (b := b) (i := b.length - 1 - j) (by omega) []
      rw [append_nil, h _ (by omega)] at hbit
      rw [decide_eq_true hj, Option.some.inj hbit]
      congr 1
      omega
    · rw [decide_eq_false hj, Nat.testBit_lt_two_pow]
      refine (value_lt b).trans_le ?_
      rw [show 256 = 2 ^ 8 from rfl, ← Nat.pow_mul]
      exact Nat.pow_le_pow_right (by omega) (by omega)
  refine value_injective (by simp) ?_
  rw [value_number (Nat.mod_lt _ (Nat.two_pow_pos _)), ← hhigh]
  exact (Nat.mod_add_div' _ _).symm

end Numbers

end OrderedCode
end LittleBigtable
