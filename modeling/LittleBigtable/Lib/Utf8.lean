import Mathlib.Data.List.DropRight
import Mathlib.Data.List.Infix

/-!
# UTF-8 text in byte lists

A byte list is read as characters in UTF-8 and stray bytes, which begin no character.
A stray byte counts as the replacement character `U+FFFD`.  The main rule is
`runes_append_char`: a character at the end is read as such, whatever stands before
it.
-/

namespace LittleBigtable
namespace Utf8

open List

/-- The character at the start. -/
def decode (s : List UInt8) : Option Char :=
  s.toByteArray.utf8DecodeChar? 0

inductive Rune
  | char (c : Char)
  | stray (b : UInt8)
deriving DecidableEq

def Rune.value : Rune → Char
  | .char c => c
  | .stray _ => '�'

def Rune.bytes : Rune → List UInt8
  | .char c => String.utf8EncodeChar c
  | .stray b => [b]

def Rune.isChar : Rune → Bool
  | .char _ => true
  | .stray _ => false

/-- The first runes of a byte list. -/
def runesFrom : Nat → List UInt8 → List Rune
  | 0, _ => []
  | _ + 1, [] => []
  | fuel + 1, b :: s =>
    match decode (b :: s) with
    | some c => .char c :: runesFrom fuel ((b :: s).drop c.utf8Size)
    | none => .stray b :: runesFrom fuel s

/-- A byte list has at most as many runes as bytes. -/
def runes (s : List UInt8) : List Rune :=
  runesFrom s.length s

def valid (s : List UInt8) : Bool :=
  (runes s).all Rune.isChar

/-- The characters of `cutset` are removed at both ends. -/
def trim (s cutset : List UInt8) : List UInt8 :=
  let cut := fun r : Rune => decide (r.value ∈ (runes cutset).map Rune.value)
  (((runes s).dropWhile cut).rdropWhile cut).flatMap Rune.bytes

section Runes

variable {s : List UInt8} {c : Char}

theorem decode_eq_some_iff :
    decode s = some c ↔ ∃ rest, s = String.utf8EncodeChar c ++ rest := by
  constructor
  · intro h
    obtain ⟨l, hl⟩ := ByteArray.exists_of_utf8DecodeChar?_eq_some h
    have hdata := congrArg (fun b => b.data.toList) hl
    simp only [ByteArray.data_append, data_toByteArray, Array.toList_append] at hdata
    exact ⟨_, hdata⟩
  · rintro ⟨rest, rfl⟩
    unfold decode
    rw [toByteArray_append]
    exact ByteArray.utf8DecodeChar?_utf8EncodeChar_append

theorem utf8Size_pos (c : Char) :
    0 < c.utf8Size := by
  rw [← String.length_utf8EncodeChar]
  exact length_pos_of_ne_nil String.utf8EncodeChar_ne_nil

/-- More fuel than bytes changes nothing. -/
theorem runesFrom_eq {m n : Nat} (hm : s.length ≤ m) (hn : s.length ≤ n) :
    runesFrom m s = runesFrom n s := by
  induction m generalizing s n with
  | zero =>
    have hs : s = [] := length_eq_zero_iff.mp (Nat.le_zero.mp hm)
    subst hs
    cases n <;> rfl
  | succ m ih =>
    cases s with
    | nil => cases n <;> rfl
    | cons b s =>
      obtain ⟨n, rfl⟩ : ∃ k, n = k + 1 := ⟨n - 1, by simp at hn; omega⟩
      simp only [length_cons] at hm hn
      unfold runesFrom
      cases hdec : decode (b :: s) with
      | none =>
        simp only [List.cons.injEq, true_and]
        exact ih (by omega) (by omega)
      | some c =>
        have hpos := utf8Size_pos c
        simp only [List.cons.injEq, true_and]
        exact ih (by rw [length_drop, length_cons]; omega)
          (by rw [length_drop, length_cons]; omega)

@[simp] theorem runes_nil :
    runes [] = [] := by
  rfl

theorem runes_char_append (c : Char) (s : List UInt8) :
    runes (String.utf8EncodeChar c ++ s) = .char c :: runes s := by
  have hdec : decode (String.utf8EncodeChar c ++ s) = some c := decode_eq_some_iff.mpr ⟨s, rfl⟩
  have hdrop : (String.utf8EncodeChar c ++ s).drop c.utf8Size = s := by
    rw [← String.length_utf8EncodeChar, drop_left]
  have hpos := utf8Size_pos c
  have hlen : (String.utf8EncodeChar c ++ s).length = c.utf8Size + s.length := by
    rw [length_append, String.length_utf8EncodeChar]
  obtain ⟨b, t, hbt⟩ := exists_cons_of_ne_nil
    (l := String.utf8EncodeChar c ++ s) (by simp [String.utf8EncodeChar_ne_nil])
  rw [hbt] at hdec hdrop hlen ⊢
  unfold runes
  rw [length_cons, runesFrom, hdec]
  simp only [hdrop, List.cons.injEq, true_and]
  exact runesFrom_eq (by simp at hlen; omega) (Nat.le_refl _)

theorem runes_stray {b : UInt8} (h : decode (b :: s) = none) :
    runes (b :: s) = .stray b :: runes s := by
  unfold runes
  rw [length_cons, runesFrom, h]

/-- A byte list is empty, begins with a character, or with a stray byte. -/
theorem runes_induction {P : List UInt8 → Prop} (nil : P [])
    (char : ∀ c s, P s → P (String.utf8EncodeChar c ++ s))
    (stray : ∀ b s, decode (b :: s) = none → P s → P (b :: s)) (s : List UInt8) :
    P s := by
  induction hn : s.length using Nat.strong_induction_on generalizing s with
  | h n ih =>
    cases s with
    | nil => exact nil
    | cons b s =>
      cases hdec : decode (b :: s) with
      | none => exact stray b s hdec (ih s.length (by simp at hn; omega) s rfl)
      | some c =>
        obtain ⟨rest, hrest⟩ := decode_eq_some_iff.mp hdec
        have hpos := utf8Size_pos c
        have hlen := congrArg List.length hrest
        rw [length_append, String.length_utf8EncodeChar, hn] at hlen
        rw [hrest]
        exact char c rest (ih rest.length (by omega) rest rfl)

theorem flatMap_bytes_runes (s : List UInt8) :
    (runes s).flatMap Rune.bytes = s := by
  induction s using runes_induction with
  | nil => rfl
  | char c s ih =>
    rw [runes_char_append, flatMap_cons, ih]
    rfl
  | stray b s hdec ih =>
    rw [runes_stray hdec, flatMap_cons, ih]
    rfl

/-- A character behind a stray byte does not complete it: its first byte is no
continuation byte. -/
theorem decode_append_char {b : UInt8} (h : decode (b :: s) = none) (c : Char) :
    decode (b :: s ++ String.utf8EncodeChar c) = none := by
  cases hdec : decode (b :: s ++ String.utf8EncodeChar c) with
  | none => rfl
  | some d =>
    obtain ⟨rest, hrest⟩ := decode_eq_some_iff.mp hdec
    exfalso
    rcases append_eq_append_iff.mp hrest with ⟨t, hd, hc⟩ | ⟨t, hs, _⟩
    · cases t with
      | nil =>
        rw [append_nil] at hd
        rw [decode_eq_some_iff.mpr ⟨[], by rw [append_nil, hd]⟩] at h
        cases h
      | cons x t =>
        have hi : (b :: s).length < (String.utf8EncodeChar d).length := by
          rw [hd]
          simp
        have hx : (String.utf8EncodeChar d)[(b :: s).length] = x := by
          simp [hd]
        have hfirst : (String.utf8EncodeChar c)[0]? = some x := by
          simp [hc]
        have hpos : 0 < (String.utf8EncodeChar c).length := by
          rw [String.length_utf8EncodeChar]
          exact utf8Size_pos c
        rw [getElem?_eq_getElem hpos, Option.some.injEq] at hfirst
        have hbyte : (String.utf8EncodeChar c)[0].IsUTF8FirstByte :=
          UInt8.isUTF8FirstByte_getElem_utf8EncodeChar.mpr rfl
        rw [hfirst, ← hx, UInt8.isUTF8FirstByte_getElem_utf8EncodeChar] at hbyte
        simp at hbyte
    · rw [decode_eq_some_iff.mpr ⟨t, hs⟩] at h
      cases h

/-- **A character at the end is read as such.** -/
theorem runes_append_char (s : List UInt8) (c : Char) :
    runes (s ++ String.utf8EncodeChar c) = runes s ++ [.char c] := by
  induction s using runes_induction with
  | nil => simpa using runes_char_append c []
  | char d s ih =>
    rw [append_assoc, runes_char_append, runes_char_append, ih]
    rfl
  | stray b s hdec ih =>
    have happend := decode_append_char hdec c
    rw [cons_append] at happend ⊢
    rw [runes_stray happend, runes_stray hdec, ih]
    rfl

@[simp] theorem runes_char (c : Char) :
    runes (String.utf8EncodeChar c) = [.char c] := by
  simpa using runes_append_char [] c

end Runes

section Texts

variable {s : List UInt8} {c : Char}

@[simp] theorem valid_append_char (s : List UInt8) (c : Char) :
    valid (s ++ String.utf8EncodeChar c) = valid s := by
  simp [valid, runes_append_char, Rune.isChar]

theorem Rune.bytes_ne_nil (r : Rune) :
    r.bytes ≠ [] := by
  cases r with
  | char c => exact String.utf8EncodeChar_ne_nil
  | stray b => simp [Rune.bytes]

/-- Removing the elements of a set at both ends leaves nothing only of a list of such
elements. -/
theorem rdropWhile_dropWhile_eq_nil_iff {α : Type} {p : α → Bool} {l : List α} :
    (l.dropWhile p).rdropWhile p = [] ↔ ∀ x ∈ l, p x = true := by
  rw [rdropWhile_eq_nil_iff]
  constructor
  · intro h
    rw [← dropWhile_eq_nil_iff]
    by_contra hne
    have hhead := List.head_dropWhile_not p hne
    rw [h _ (List.head_mem hne)] at hhead
    cases hhead
  · intro h x hx
    exact h x ((dropWhile_sublist p).subset hx)

theorem trim_eq_nil_iff {cutset : List UInt8} :
    trim s cutset = [] ↔ ∀ r ∈ runes s, r.value ∈ (runes cutset).map Rune.value := by
  have hempty : ∀ l : List Rune, l.flatMap Rune.bytes = [] ↔ l = [] := by
    intro l
    cases l with
    | nil => simp
    | cons r l => simp [Rune.bytes_ne_nil]
  unfold trim
  rw [hempty, rdropWhile_dropWhile_eq_nil_iff]
  simp only [decide_eq_true_eq]

theorem trim_append_char (s : List UInt8) (c : Char) :
    trim (s ++ String.utf8EncodeChar c) (String.utf8EncodeChar c) = [] ↔
      trim s (String.utf8EncodeChar c) = [] := by
  simp [trim_eq_nil_iff, runes_append_char, Rune.value, or_imp, forall_and]

/-- A text of one character only ends with it. -/
theorem exists_append_char (hs : s ≠ []) (hvalid : valid s = true)
    (htrim : trim s (String.utf8EncodeChar c) = []) :
    ∃ t, s = t ++ String.utf8EncodeChar c := by
  have hne : runes s ≠ [] := by
    intro hnil
    have hbytes := flatMap_bytes_runes s
    rw [hnil] at hbytes
    exact hs hbytes.symm
  have hlast : (runes s).getLast hne = .char c := by
    have hmem := getLast_mem hne
    have hchar := all_eq_true.mp hvalid _ hmem
    have hvalue := trim_eq_nil_iff.mp htrim _ hmem
    generalize (runes s).getLast hne = r at hchar hvalue
    cases r with
    | char d => simpa [Rune.value] using hvalue
    | stray b => simp [Rune.isChar] at hchar
  refine ⟨(runes s).dropLast.flatMap Rune.bytes, ?_⟩
  have hsplit := dropLast_append_getLast hne
  rw [hlast] at hsplit
  calc s = (runes s).flatMap Rune.bytes := (flatMap_bytes_runes s).symm
    _ = ((runes s).dropLast ++ [Rune.char c]).flatMap Rune.bytes := by rw [hsplit]
    _ = (runes s).dropLast.flatMap Rune.bytes ++ String.utf8EncodeChar c := by
      simp [Rune.bytes]

end Texts

end Utf8
end LittleBigtable
