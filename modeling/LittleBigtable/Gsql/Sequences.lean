import LittleBigtable.Gsql.DateArrays
import LittleBigtable.Lib.Utf8

/-!
# Sizes of strings and arrays

`REPEAT`, `LPAD` and `RPAD` on `STRING` and `BYTES`, and the generators of arrays, with the
guards on the sizes of their results.  The guards are computed with `int64`.

A Go panic is a result of its own (`CallError`); indexing and slicing outside of an operand
panic, and so does `bytes.Repeat` if the length of its result is no `int`.
-/

namespace LittleBigtable
namespace Gsql

open Bttest List

section Values

/-- Why there is no value: an error of the query, or a panic. -/
inductive CallError
  | status (st : Status)
  | panic

abbrev Eval (α : Type) :=
  Except CallError α

def evalFail {α : Type} (format : String) : Eval α :=
  .error (.status (evalErrorf format []))

/-- A value of type `STRING` or `BYTES`. -/
inductive Text
  | string (s : Bytes)
  | bytes (b : Bytes)

def Text.isStr : Text → Bool
  | .string _ => true
  | .bytes _ => false

def asBytes : Text → Bytes
  | .string s => s
  | .bytes b => b

def asStringOrBytes (b : Bytes) (isStr : Bool) : Text :=
  if isStr then .string b else .bytes b

/-- The code points of a `STRING`, or the bytes of `BYTES`. -/
def toSeq : Text → List Char
  | .string s => (Utf8.runes s).map Utf8.Rune.value
  | .bytes b => b.map (fun c => Char.ofNat c.toNat)

def fromSeq (s : List Char) (isStr : Bool) : Text :=
  if isStr then
    .string (s.flatMap String.utf8EncodeChar)
  else
    .bytes (s.map (fun r => UInt8.ofNat r.toNat))

/-- The number of code points or bytes. -/
def Text.length (v : Text) : Nat :=
  (toSeq v).length

theorem length_fromSeq (s : List Char) (isStr : Bool) :
    (fromSeq s isStr).length = s.length := by
  cases isStr with
  | true =>
    have hrunes : Utf8.runes (s.flatMap String.utf8EncodeChar) = s.map Utf8.Rune.char := by
      induction s with
      | nil => rfl
      | cons c s ih => rw [flatMap_cons, Utf8.runes_char_append, ih, map_cons]
    simp [fromSeq, Text.length, toSeq, hrunes]
  | false => simp [fromSeq, Text.length, toSeq]

/-- `s[lo:hi]`. -/
def slice {α : Type} (s : List α) (lo hi : Int) : Eval (List α) :=
  if 0 ≤ lo ∧ lo ≤ hi ∧ hi ≤ s.length then
    .ok ((s.take hi.toNat).drop lo.toNat)
  else
    .error .panic

theorem slice_eq_ok {α : Type} {s : List α} {a b : Int} (h : 0 ≤ a ∧ a ≤ b ∧ b ≤ s.length) :
    ∃ r, slice s a b = .ok r ∧ (r.length : Int) = b - a := by
  refine ⟨_, if_pos h, ?_⟩
  rw [length_drop, length_take]
  omega

end Values

section Code

/-- `bytes.Repeat`. -/
def bytesRepeat (b : Bytes) (count : Int) : Eval Bytes :=
  if count < 0 ∨ 2 ^ 63 ≤ b.length * count then
    .error .panic
  else
    .ok (List.replicate count.toNat b).flatten

/-- `REPEAT`. -/
def repeatText (v : Text) (n : Int) : Eval Text :=
  if n < 0 then
    evalFail "Second argument in REPEAT() cannot be negative"
  else
    let b := asBytes v
    if wrap64 (b.length * n) > 64 * 2 ^ 20 then
      evalFail "REPEAT result is too large"
    else
      (bytesRepeat b n).map (asStringOrBytes · v.isStr)

/-- The pattern `p` again and again, up to `k` elements. -/
def fillFrom (p : List Char) (k : Nat) : List Char :=
  (List.range k).map (fun i => p.getD (i % p.length) ' ')

/-- `LPAD` and `RPAD`. -/
def padText (left : Bool) (v : Text) (n : Int) (pattern : Option Text) : Eval Text :=
  let s := toSeq v
  let p := pattern.elim [' '] toSeq
  if n < 0 then
    evalFail "return_length must not be negative"
  else if n > 64 * 2 ^ 20 then
    evalFail "return_length is too large"
  else if p.length = 0 then
    evalFail "pattern must not be empty"
  else if n ≤ s.length then
    (slice s 0 n).map (fromSeq · v.isStr)
  else
    let fill := fillFrom p (n - s.length).toNat
    .ok (fromSeq (if left then fill ++ s else s ++ fill) v.isStr)

/-- The loop of `GENERATE_ARRAY` of integers; it has no number any more after an overflow. -/
def nextInt (e step : Int) : Option Int → Option (Int × Option Int)
  | none => none
  | some cur =>
    if (step > 0 ∧ cur ≤ e) ∨ (step < 0 ∧ cur ≥ e) then
      let next := wrap64 (cur + step)
      some (cur, if (step > 0 ∧ next < cur) ∨ (step < 0 ∧ next > cur) then none else some next)
    else
      none

/-- `GENERATE_ARRAY` of integers. -/
def generateArray (s e step : Int) : Except Status (List Int) :=
  if step = 0 then
    .error (evalErrorf "Sequence step cannot be 0." [])
  else
    generate (evalErrorf "GENERATE_ARRAY produced too many elements" []) (nextInt e step) 1000000
      (some s)

inductive TimeUnit
  | microsecond
  | millisecond
  | second
  | minute
  | hour
  | day

def unitMicros : TimeUnit → Int
  | .microsecond => 1
  | .millisecond => 1000
  | .second => 1000000
  | .minute => 60000000
  | .hour => 3600000000
  | .day => 86400000000

/-- `mulInt64`; `none` is an overflow. -/
def mulInt64 (a b : Int) : Option Int :=
  if a = 0 ∨ b = 0 then
    some 0
  else
    let c := wrap64 (a * b)
    if wrap64 (c.tdiv b) ≠ a ∨ (a = -1 ∧ b = -2 ^ 63) ∨ (b = -1 ∧ a = -2 ^ 63) then none else some c

def checkTimestamp (us : Int) : Except Status Int :=
  if us < minTimestampMicros ∨ us > maxTimestampMicros then
    .error (evalErrorf "timestamp value is out of the supported range" [])
  else
    .ok us

def addTimestamp (ts n : Int) (unit : TimeUnit) : Except Status Int :=
  match mulInt64 n (unitMicros unit) with
  | none => .error (evalErrorf "TIMESTAMP arithmetic overflow" [])
  | some d =>
    match addInt64 ts d with
    | none => .error (evalErrorf "TIMESTAMP arithmetic overflow" [])
    | some s => checkTimestamp s

/-- The loop of `GENERATE_TIMESTAMP_ARRAY`; it has no time any more behind an error. -/
def nextTimestamp (e step : Int) (unit : TimeUnit) : Option Int → Option (Int × Option Int)
  | none => none
  | some cur =>
    if (step > 0 ∧ cur ≤ e) ∨ (step < 0 ∧ cur ≥ e) then
      some (cur, (addTimestamp cur step unit).toOption)
    else
      none

/-- `GENERATE_TIMESTAMP_ARRAY`. -/
def generateTimestampArray (s e step : Int) (unit : TimeUnit) : Except Status (List Int) :=
  if step = 0 then
    .error (evalErrorf "GENERATE_TIMESTAMP_ARRAY step cannot be 0" [])
  else
    generate (evalErrorf "GENERATE_TIMESTAMP_ARRAY produced too many elements" [])
      (nextTimestamp e step unit) 1000000 (some s)

end Code

section Guards

/-- The product is at most 64 MiB, or its 64 low bits are a positive number above it; the
guard of `REPEAT` is right then. -/
def RepeatGuarded (v : Text) (n : Int) : Prop :=
  n < 0 ∨ (asBytes v).length * n ≤ 64 * 2 ^ 20 ∨
    (64 * 2 ^ 20 < (asBytes v).length * n % 2 ^ 64 ∧ (asBytes v).length * n % 2 ^ 64 < 2 ^ 63)

/-- `REPEAT` gives all repetitions if they fit, and an error of the query otherwise. -/
def RepeatSound (v : Text) (n : Int) : Prop :=
  if 0 ≤ n ∧ (asBytes v).length * n ≤ 64 * 2 ^ 20 then
    ∃ r, repeatText v n = .ok r ∧ ((asBytes r).length : Int) = (asBytes v).length * n
  else
    ∃ st, repeatText v n = .error (.status st)

theorem asBytes_asStringOrBytes (b : Bytes) (isStr : Bool) :
    asBytes (asStringOrBytes b isStr) = b := by
  cases isStr <;> rfl

theorem repeatSound_iff (v : Text) (n : Int) :
    RepeatSound v n ↔ RepeatGuarded v n := by
  have hpos : 0 ≤ n → 0 ≤ ((asBytes v).length : Int) * n := Int.mul_nonneg (Int.natCast_nonneg _)
  have hlen : 0 ≤ n → ((List.replicate n.toNat (asBytes v)).flatten.length : Int) =
      (asBytes v).length * n := by
    intro hn
    rw [length_flatten, map_replicate, sum_replicate_nat, Nat.cast_mul,
      Int.toNat_of_nonneg hn, mul_comm]
  unfold RepeatSound RepeatGuarded repeatText bytesRepeat evalFail
  generalize hm : ((asBytes v).length : Int) * n = m at hpos hlen
  by_cases hn : n < 0
  · rw [if_pos hn, if_neg (by omega)]
    exact iff_of_true ⟨_, rfl⟩ (.inl hn)
  rw [if_neg hn]
  simp only [hm]
  by_cases hguard : wrap64 m > 64 * 2 ^ 20
  · rw [if_pos hguard]
    unfold wrap64 at hguard
    rw [if_neg (by omega)]
    exact iff_of_true ⟨_, rfl⟩ (by omega)
  rw [if_neg hguard]
  unfold wrap64 at hguard
  by_cases hfits : m ≤ 64 * 2 ^ 20
  · rw [if_pos ⟨by omega, hfits⟩, if_neg (by omega)]
    refine iff_of_true ⟨_, rfl, ?_⟩ (.inr (.inl hfits))
    rw [asBytes_asStringOrBytes]
    exact hlen (by omega)
  · -- the product is one of the numbers that wrap, and `bytes.Repeat` panics
    rw [if_neg (by omega), if_pos (by omega)]
    exact iff_of_false nofun (by omega)

theorem padText_sound (left : Bool) (v : Text) (n : Int) (pattern : Option Text) :
    (∃ r, padText left v n pattern = .ok r ∧ (r.length : Int) = n) ∨
      ∃ st, padText left v n pattern = .error (.status st) := by
  unfold padText evalFail
  dsimp only
  split_ifs with hneg hbig hempty hshort hleft
  · exact .inr ⟨_, rfl⟩
  · exact .inr ⟨_, rfl⟩
  · exact .inr ⟨_, rfl⟩
  · obtain ⟨r, hr, hlen⟩ := slice_eq_ok (s := toSeq v) (a := 0) (b := n)
      ⟨le_refl 0, by omega, hshort⟩
    rw [hr]
    refine .inl ⟨_, rfl, ?_⟩
    rw [length_fromSeq]
    omega
  · refine .inl ⟨_, rfl, ?_⟩
    rw [length_fromSeq, length_append, fillFrom, length_map, length_range]
    omega
  · refine .inl ⟨_, rfl, ?_⟩
    rw [length_fromSeq, length_append, fillFrom, length_map, length_range]
    omega

/-- The elements, as many as are allowed at most, or an error. -/
def Bounded {α : Type} (r : Except Status (List α)) : Prop :=
  (∃ out, r = .ok out ∧ out.length ≤ 1000000) ∨ ∃ st, r = .error st

variable {σ α : Type} {st : Status} {next : σ → Option (α × σ)}

theorem generate_bounded (st : Status) (next : σ → Option (α × σ)) (left : Nat) (s : σ) :
    (∃ out, generate st next left s = .ok out ∧ out.length ≤ left) ∨
      generate st next left s = .error st := by
  induction left generalizing s with
  | zero =>
    rw [generate]
    cases next s with
    | none => exact .inl ⟨[], rfl, le_refl 0⟩
    | some p => exact .inr rfl
  | succ left ih =>
    rw [generate]
    cases next s with
    | none => exact .inl ⟨[], rfl, Nat.zero_le _⟩
    | some p =>
      rcases ih p.2 with ⟨out, hout, hle⟩ | herror
      · dsimp only
        rw [hout]
        exact .inl ⟨p.1 :: out, rfl, Nat.succ_le_succ hle⟩
      · dsimp only
        rw [herror]
        exact .inr rfl

theorem bounded_generate {c : Prop} [Decidable c] (st' : Status) (s : σ) :
    Bounded (if c then .error st' else generate st next 1000000 s) := by
  split_ifs
  · exact .inr ⟨_, rfl⟩
  · rcases generate_bounded st next 1000000 s with hok | herror
    · exact .inl hok
    · exact .inr ⟨_, herror⟩

/-- **The guards hold for all arguments exactly where that of `REPEAT` does not wrap.** -/
theorem sizes_guarded_iff (v : Text) (n : Int) :
    (RepeatSound v n ∧
      (∀ left pattern, (∃ r, padText left v n pattern = .ok r ∧ (r.length : Int) = n) ∨
        ∃ st, padText left v n pattern = .error (.status st)) ∧
      (∀ s e, Bounded (generateArray s e n)) ∧
      (∀ s e unit, Bounded (generateDateArray s e n unit)) ∧
      ∀ s e unit, Bounded (generateTimestampArray s e n unit)) ↔ RepeatGuarded v n := by
  rw [repeatSound_iff]
  refine and_iff_left ⟨fun left pattern => padText_sound left v n pattern, fun s e => ?_,
    fun s e unit => ?_, fun s e unit => ?_⟩
  · exact bounded_generate _ _
  · exact bounded_generate _ _
  · exact bounded_generate _ _

/-- The length of two bytes, 2 ^ 62 times, wraps to a negative number. -/
theorem repeatText_panics :
    repeatText (.bytes [0x61, 0x61]) (2 ^ 62) = .error .panic ∧
      ¬ RepeatSound (.bytes [0x61, 0x61]) (2 ^ 62) := by
  refine ⟨rfl, ?_⟩
  rw [repeatSound_iff]
  simp [RepeatGuarded, asBytes]

end Guards

end Gsql
end LittleBigtable
