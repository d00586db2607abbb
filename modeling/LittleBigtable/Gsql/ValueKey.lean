import LittleBigtable.Gsql.HllCodec
import LittleBigtable.Gsql.ValueOrder
import LittleBigtable.Lib.PrefixCode

/-!
# The keys of nested values

The key of a value starts with a tag, and what has no fixed length starts with its length.
So a key can be read back from the front of any word (`readKey`), and keys that follow each
other without separators, as those of the columns of a group do, determine the values.

`values_agree` puts this together with the order and with `=`.
-/

namespace LittleBigtable
namespace Gsql

open Bttest List BigEndian
open PrefixCode
open ThreeWay

section Read

/-- A signed integer of `w` bits. -/
def signedValue (w : Nat) (b : Bytes) : Int :=
  Int.bmod (BigEndian.value b) (2 ^ w)

/-- Read a word behind its length. -/
def readSized (s : Bytes) : Option (Bytes × Bytes) :=
  (uvarint s).bind (fun n => readWord n.1.toNat n.2)

/-- Read a number of parts behind that number. -/
def readParts {γ : Type} (read : Bytes → Option (γ × Bytes))
    (s : Bytes) : Option (List γ × Bytes) :=
  (uvarint s).bind (fun n => readMany read n.1.toNat n.2)

/-- The value of a key, and what follows the key. -/
def readKey : Nat → Bytes → Option (NestedValue × Bytes)
  | 0, _ => none
  | _, [] => none
  | fuel + 1, tag :: s =>
    if tag = 0x4E then
      some (.scalar .null, s)
    else if tag = 0x62 then
      (readWord 1 s).map (fun x => (.scalar (.bool (decide (x.1 = [1]))), x.2))
    else if tag = 0x69 then
      (readWord 8 s).map (fun x => (.scalar (.int64 (signedValue 64 x.1)), x.2))
    else if tag = 0x66 then
      (readWord 8 s).map (fun x => (.scalar (.float (UInt64.ofNat (BigEndian.value x.1))), x.2))
    else if tag = 0x73 then
      (readSized s).map (fun x => (.scalar (.string x.1), x.2))
    else if tag = 0x79 then
      (readSized s).map (fun x => (.scalar (.bytes x.1), x.2))
    else if tag = 0x74 then
      (readWord 8 s).map (fun x => (.scalar (.timestamp (signedValue 64 x.1)), x.2))
    else if tag = 0x64 then
      (readWord 4 s).map (fun x => (.date (signedValue 32 x.1), x.2))
    else if tag = 0x61 then
      (readParts (readKey fuel) s).map (fun x => (.array x.1, x.2))
    else if tag = 0x72 then
      (readParts (readKey fuel) s).map (fun x => (.struct x.1, x.2))
    else if tag = 0x6D then
      (readParts (readPair (readKey fuel)) s).map (fun x => (.map x.1, x.2))
    else
      none

theorem signedValue_digits {w k : Nat} (hw : 2 ^ w = 256 ^ k) {n : Int}
    (hn : -(2 ^ w / 2) ≤ n ∧ n < (2 ^ w + 1) / 2) :
    signedValue w (BigEndian.digits k (n % 2 ^ w).toNat) = n := by
  have hpos : (0 : Int) < 2 ^ w := by positivity
  have hmod : ((n % 2 ^ w).toNat : Int) = n % 2 ^ w :=
    Int.toNat_of_nonneg (Int.emod_nonneg n hpos.ne')
  have hlt : (n % 2 ^ w).toNat < 256 ^ k := by
    have := Int.emod_lt_of_pos n hpos
    rw [← hw]
    zify
    rw [hmod]
    exact this
  unfold signedValue
  rw [value_digits, Nat.mod_eq_of_lt hlt, hmod]
  have hcast : (2 : Int) ^ w = ((2 ^ w : Nat) : Int) := by
    push_cast
    rfl
  rw [hcast, Int.emod_bmod]
  refine Int.bmod_eq_of_le ?_ ?_
  · rw [← hcast]
    exact hn.1
  · rw [← hcast]
    exact hn.2

theorem readSized_append {word : Bytes} (hlen : word.length < 2 ^ 63) (rest : Bytes) :
    readSized ((lengthBytes word.length ++ word) ++ rest) = some (word, rest) := by
  have hn : (UInt64.ofNat word.length).toNat = word.length := by
    rw [UInt64.toNat_ofNat']
    omega
  unfold readSized lengthBytes
  rw [append_assoc, uvarint_appendUvarint, Option.bind_some, hn, readWord_append]

theorem readParts_append {α γ : Type} {read : Bytes → Option (γ × Bytes)} {code : α → Bytes}
    {f : α → γ} {xs : List α} (hlen : xs.length < 2 ^ 63) (h : ∀ x ∈ xs, Reads read code f x)
    (rest : Bytes) :
    readParts read ((lengthBytes xs.length ++ xs.flatMap code) ++ rest) =
      some (xs.map f, rest) := by
  have hn : (UInt64.ofNat xs.length).toNat = xs.length := by
    rw [UInt64.toNat_ofNat']
    omega
  unfold readParts lengthBytes
  rw [append_assoc, uvarint_appendUvarint, Option.bind_some, hn, readMany_flatMap h]

theorem elemKeys_eq (vs : List NestedValue) :
    NestedValue.elemKeys vs = vs.flatMap NestedValue.valueKey := by
  induction vs with
  | nil => rfl
  | cons v vs ih => rw [NestedValue.elemKeys, ih, flatMap_cons]

theorem entryKeys_eq (es : List (NestedValue × NestedValue)) :
    NestedValue.entryKeys es = es.flatMap (fun e => e.1.valueKey ++ e.2.valueKey) := by
  induction es with
  | nil => rfl
  | cons e es ih => rw [NestedValue.entryKeys, ih, flatMap_cons]

theorem readWord_int64Bytes {n : Int} (hn : -2 ^ 63 ≤ n ∧ n < 2 ^ 63) (make : Int → NestedValue)
    (rest : Bytes) :
    (readWord 8 (int64Bytes n ++ rest)).map (fun x => (make (signedValue 64 x.1), x.2)) =
      some (make n, rest) := by
  have hword := readWord_append (int64Bytes n) rest
  rw [show (int64Bytes n).length = 8 from length_digits 8 _] at hword
  have hsigned : signedValue 64 (int64Bytes n) = n :=
    signedValue_digits (by norm_num) ⟨by omega, by omega⟩
  rw [hword, Option.map_some, hsigned]

theorem readWord_floatBytes {bits : UInt64} {rest : Bytes} :
    (readWord 8 (BigEndian.digits 8 bits.toNat ++ rest)).map
        (fun x => (NestedValue.scalar (.float (UInt64.ofNat (BigEndian.value x.1))), x.2)) =
      some (.scalar (.float bits), rest) := by
  have hword := readWord_append (BigEndian.digits 8 bits.toNat) rest
  rw [length_digits] at hword
  have hpow : 256 ^ 8 = 2 ^ 64 := by norm_num
  rw [hword, Option.map_some, value_digits, hpow, Nat.mod_eq_of_lt bits.toNat_lt,
    UInt64.ofNat_toNat]

theorem ScalarValue.InRange.reads {x : ScalarValue} (hx : x.InRange) (fuel : Nat) :
    Reads (readKey (fuel + 1)) NestedValue.valueKey NestedValue.canon (.scalar x) := by
  intro rest
  cases x with
  | null => rfl
  | bool b => cases b <;> rfl
  | int64 n => exact readWord_int64Bytes hx (fun n => .scalar (.int64 n)) rest
  | float bits => exact readWord_floatBytes
  | string | bytes => exact congrArg (Option.map _) (readSized_append hx rest)
  | timestamp us => exact readWord_int64Bytes hx (fun n => .scalar (.timestamp n)) rest

theorem readKey_date {days : Int} (hdays : -2 ^ 31 ≤ days ∧ days < 2 ^ 31) (fuel : Nat) :
    Reads (readKey (fuel + 1)) NestedValue.valueKey NestedValue.canon (.date days) := by
  intro rest
  have hword := readWord_append (int32Bytes days) rest
  rw [show (int32Bytes days).length = 4 from length_digits 4 _] at hword
  have hsigned : signedValue 32 (int32Bytes days) = days :=
    signedValue_digits (by norm_num) ⟨by omega, by omega⟩
  change (readWord 4 (int32Bytes days ++ rest)).map
    (fun x => (NestedValue.date (signedValue 32 x.1), x.2)) = _
  rw [hword, Option.map_some, hsigned]
  rfl

theorem exists_reads_succ {v : NestedValue} {P : Nat → Prop}
    (hparts : ∃ depth, ∀ fuel, depth ≤ fuel → P fuel)
    (h : ∀ fuel, P fuel → Reads (readKey (fuel + 1)) NestedValue.valueKey NestedValue.canon v) :
    ∃ depth, ∀ fuel, depth ≤ fuel →
      Reads (readKey fuel) NestedValue.valueKey NestedValue.canon v := by
  obtain ⟨depth, hdepth⟩ := hparts
  refine ⟨depth + 1, fun fuel hfuel => ?_⟩
  obtain ⟨fuel, rfl⟩ := Nat.exists_eq_add_of_le' (show 1 ≤ fuel by omega)
  exact h fuel (hdepth fuel (by omega))

mutual

/-- **A key is read back from the front of any word**, with as much fuel as the value is
deep. -/
theorem exists_reads :
    ∀ v : NestedValue, v.InRange → ∃ depth, ∀ fuel, depth ≤ fuel →
      Reads (readKey fuel) NestedValue.valueKey NestedValue.canon v
  | .scalar _, hv => exists_reads_succ ⟨0, fun _ _ => trivial⟩ (fun fuel _ => hv.reads fuel)
  | .date _, hv => exists_reads_succ ⟨0, fun _ _ => trivial⟩ (fun fuel _ => readKey_date hv fuel)
  | .array elems, hv => by
    refine exists_reads_succ (exists_reads_elems elems hv.2) (fun fuel hfuel rest => ?_)
    rw [NestedValue.valueKey, elemKeys_eq, NestedValue.canon, canonElems_eq]
    exact congrArg (Option.map _) (readParts_append hv.1 hfuel rest)
  | .struct fields, hv => by
    refine exists_reads_succ (exists_reads_elems fields hv.2) (fun fuel hfuel rest => ?_)
    rw [NestedValue.valueKey, elemKeys_eq, NestedValue.canon, canonElems_eq]
    exact congrArg (Option.map _) (readParts_append hv.1 hfuel rest)
  | .map entries, hv => by
    refine exists_reads_succ (exists_reads_entries entries hv.2) (fun fuel hfuel rest => ?_)
    rw [NestedValue.valueKey, entryKeys_eq, NestedValue.canon, canonEntries_eq]
    exact congrArg (Option.map _) (readParts_append hv.1 hfuel rest)

theorem exists_reads_elems :
    ∀ vs : List NestedValue, NestedValue.AllInRange vs → ∃ depth, ∀ fuel, depth ≤ fuel →
      ∀ v ∈ vs, Reads (readKey fuel) NestedValue.valueKey NestedValue.canon v
  | [], _ => ⟨0, fun _ _ => nofun⟩
  | v :: vs, h => by
    obtain ⟨d, hd⟩ := exists_reads v h.1
    obtain ⟨d', hd'⟩ := exists_reads_elems vs h.2
    refine ⟨max d d', fun fuel hfuel w hw => ?_⟩
    rcases List.mem_cons.mp hw with rfl | hw
    · exact hd fuel (by omega)
    · exact hd' fuel (by omega) w hw

theorem exists_reads_entries :
    ∀ es : List (NestedValue × NestedValue), NestedValue.EntriesInRange es →
      ∃ depth, ∀ fuel, depth ≤ fuel → ∀ e ∈ es, Reads (readPair (readKey fuel))
        (fun e : NestedValue × NestedValue => e.1.valueKey ++ e.2.valueKey)
        (Prod.map NestedValue.canon NestedValue.canon) e
  | [], _ => ⟨0, fun _ _ => nofun⟩
  | (k, v) :: es, h => by
    obtain ⟨d, hd⟩ := exists_reads k h.1.1
    obtain ⟨d', hd'⟩ := exists_reads v h.1.2
    obtain ⟨d'', hd''⟩ := exists_reads_entries es h.2
    refine ⟨max d (max d' d''), fun fuel hfuel e he => ?_⟩
    rcases List.mem_cons.mp he with rfl | he
    · exact reads_pair (hd fuel (by omega)) (hd' fuel (by omega))
    · exact hd'' fuel (by omega) e he

end

end Read

section Key

theorem canonicalFloat_canonicalFloat (bits : UInt64) :
    canonicalFloat (canonicalFloat bits) = canonicalFloat bits :=
  floatRank_eq_iff.mp (floatRank_canonicalFloat bits)

mutual

/-- The key does not tell floats apart that are the same value. -/
theorem valueKey_canon :
    ∀ v : NestedValue, v.canon.valueKey = v.valueKey
  | .scalar v => by
    cases v with
    | float bits =>
      simp only [NestedValue.canon, canonScalar, NestedValue.valueKey, scalarKey,
        canonicalFloat_canonicalFloat]
    | _ => rfl
  | .date _ => rfl
  | .array elems => by
    rw [NestedValue.canon, NestedValue.valueKey, NestedValue.valueKey, elemKeys_canon elems,
      canonElems_eq, List.length_map]
  | .struct fields => by
    rw [NestedValue.canon, NestedValue.valueKey, NestedValue.valueKey,
      elemKeys_canon fields, canonElems_eq, List.length_map]
  | .map entries => by
    rw [NestedValue.canon, NestedValue.valueKey, NestedValue.valueKey,
      entryKeys_canon entries, canonEntries_eq, List.length_map]

theorem elemKeys_canon :
    ∀ vs : List NestedValue,
      NestedValue.elemKeys (NestedValue.canonElems vs) = NestedValue.elemKeys vs
  | [] => rfl
  | v :: vs => by
    rw [NestedValue.canonElems, NestedValue.elemKeys, NestedValue.elemKeys,
      valueKey_canon v, elemKeys_canon vs]

theorem entryKeys_canon :
    ∀ es : List (NestedValue × NestedValue),
      NestedValue.entryKeys (NestedValue.canonEntries es) = NestedValue.entryKeys es
  | [] => rfl
  | (k, v) :: es => by
    rw [NestedValue.canonEntries, NestedValue.entryKeys, NestedValue.entryKeys,
      valueKey_canon k, valueKey_canon v, entryKeys_canon es]

end

theorem tupleKey_eq_flatMap (vs : List NestedValue) :
    tupleKey vs = vs.flatMap NestedValue.valueKey := by
  have hfold : ∀ (vs : List NestedValue) (buf : Bytes),
      vs.foldl appendValueKey buf = buf ++ vs.flatMap NestedValue.valueKey := by
    intro vs
    induction vs with
    | nil =>
      intro buf
      simp
    | cons v vs ih =>
      intro buf
      rw [foldl_cons, ih, appendValueKey, flatMap_cons, append_assoc]
  exact hfold vs []

variable {vs : List NestedValue}

theorem allInRange_iff :
    NestedValue.AllInRange vs ↔ ∀ v ∈ vs, v.InRange := by
  induction vs with
  | nil => simp [NestedValue.AllInRange]
  | cons v vs ih => simp [NestedValue.AllInRange, ih]

theorem entriesInRange_iff {es : List (NestedValue × NestedValue)} :
    NestedValue.EntriesInRange es ↔ ∀ e ∈ es, e.1.InRange ∧ e.2.InRange := by
  induction es with
  | nil => simp [NestedValue.EntriesInRange]
  | cons e es ih =>
    obtain ⟨k, v⟩ := e
    simp only [NestedValue.EntriesInRange, ih, forall_mem_cons]

/-- The keys of tuples of one length, one behind the other, determine the values. -/
theorem tupleKey_eq_iff {ws : List NestedValue} (hvs : ∀ v ∈ vs, v.InRange)
    (hws : ∀ w ∈ ws, w.InRange) (hlen : vs.length = ws.length) :
    tupleKey vs = tupleKey ws ↔ vs.map NestedValue.canon = ws.map NestedValue.canon := by
  rw [tupleKey_eq_flatMap, tupleKey_eq_flatMap]
  constructor
  · intro h
    obtain ⟨d, hd⟩ := exists_reads_elems vs (allInRange_iff.mpr hvs)
    obtain ⟨d', hd'⟩ := exists_reads_elems ws (allInRange_iff.mpr hws)
    have happend : vs.flatMap NestedValue.valueKey ++ [] =
        ws.flatMap NestedValue.valueKey ++ [] := by
      rw [h]
    exact (flatMap_append_inj (hd (max d d') (le_max_left d d'))
      (hd' (max d d') (le_max_right d d')) hlen happend).1
  · intro h
    have hcanon : ∀ us : List NestedValue, us.flatMap NestedValue.valueKey =
        (us.map NestedValue.canon).flatMap NestedValue.valueKey := by
      intro us
      rw [flatMap_map]
      exact flatMap_congr fun u _ => (valueKey_canon u).symm
    rw [hcanon vs, h, ← hcanon ws]

theorem valueKey_eq_iff {a b : NestedValue} (ha : a.InRange) (hb : b.InRange) :
    a.valueKey = b.valueKey ↔ a.canon = b.canon := by
  have h : tupleKey [a] = tupleKey [b] ↔ _ :=
    tupleKey_eq_iff (by simpa using ha) (by simpa using hb) rfl
  simpa [tupleKey_eq_flatMap] using h

end Key

section Typed

theorem ScalarValue.HasType.inRange {x : ScalarValue} {t : ScalarType} (h : x.HasType t) :
    x.InRange := by
  cases h with
  | null | bool | float32 | float64 => trivial
  | int64 hn => exact hn
  | string hs => exact hs
  | bytes hb => exact hb
  | timestamp hus => exact hus

variable {v : NestedValue} {ts : List NestedType}

theorem inRange_of_nonNull (h : v.isNull = false → v.InRange) :
    v.InRange := by
  cases hnull : v.isNull with
  | true =>
    rw [eq_null_of_isNull hnull]
    trivial
  | false => exact h hnull

theorem NestedValue.HasType.inRange {t : NestedType} (hv : v.HasType t) :
    v.InRange := by
  induction t using NestedType.induct generalizing v with refine inRange_of_nonNull fun hnull => ?_
  | scalar t =>
    obtain ⟨x, rfl, hx⟩ := hv.eq_scalar
    exact hx.inRange
  | date =>
    obtain ⟨days, rfl, hdays⟩ := hv.eq_date hnull
    exact hdays
  | array t ih =>
    obtain ⟨es, rfl, hlen, hes⟩ := hv.eq_array hnull
    exact ⟨hlen, allInRange_iff.mpr fun e he => ih (hes e he)⟩
  | struct fields ih =>
    obtain ⟨vs, rfl, hlen, _, hvs⟩ := hv.eq_struct hnull
    refine ⟨hlen, allInRange_iff.mpr fun w hw => ?_⟩
    obtain ⟨i, hi⟩ := mem_iff_getElem?.mp hw
    obtain ⟨f, hf, htyped⟩ := hvs i w hi
    exact ih f (mem_of_getElem? hf) htyped
  | map k v ihk ihv =>
    obtain ⟨es, rfl, hlen, hes⟩ := hv.eq_map hnull
    refine ⟨hlen, entriesInRange_iff.mpr fun e he => ?_⟩
    exact ⟨ihk (hes e he).1, ihv (hes e he).2⟩

/-- The values of a tuple have the types of its columns. -/
def TupleHasType (vs : List NestedValue) (ts : List NestedType) : Prop :=
  List.Forall₂ NestedValue.HasType vs ts

variable {vs : List NestedValue}

theorem TupleHasType.exists_type (h : TupleHasType vs ts) (hv : v ∈ vs) :
    ∃ t ∈ ts, v.HasType t := by
  induction h with
  | nil => cases hv
  | cons hhead _ ih =>
    rcases mem_cons.mp hv with rfl | hv
    · exact ⟨_, mem_cons_self, hhead⟩
    · obtain ⟨t, ht, htyped⟩ := ih hv
      exact ⟨t, mem_cons_of_mem _ ht, htyped⟩

theorem TupleHasType.inRange (h : TupleHasType vs ts) :
    ∀ v ∈ vs, v.InRange := by
  intro v hv
  obtain ⟨t, _, htyped⟩ := h.exists_type hv
  exact htyped.inRange

end Typed

section Equality

theorem fieldsFloatFree_iff {fields : List (String × NestedType)} :
    NestedType.fieldsFloatFree fields = true ↔ ∀ f ∈ fields, f.2.floatFree = true := by
  induction fields with
  | nil => simp [NestedType.fieldsFloatFree]
  | cons f fields ih =>
    obtain ⟨name, t⟩ := f
    simp [NestedType.fieldsFloatFree, ih]

theorem ScalarValue.HasType.canonScalar_eq {x : ScalarValue} {t : ScalarType} (hx : x.HasType t)
    (ht : t.isFloat = false) :
    canonScalar x = x := by
  cases hx with
  | float32 | float64 => cases ht
  | _ => rfl

theorem map_eq_self {α : Type} {f : α → α} {xs : List α} (h : ∀ x ∈ xs, f x = x) :
    xs.map f = xs := by
  rw [map_congr_left h, map_id']

theorem canon_eq_of_nonNull {v : NestedValue} (h : v.isNull = false → v.canon = v) :
    v.canon = v := by
  cases hnull : v.isNull with
  | true =>
    rw [eq_null_of_isNull hnull]
    rfl
  | false => exact h hnull

/-- Without floats every value is in canonical form. -/
theorem canon_eq_self {t : NestedType} (ht : t.floatFree = true) {v : NestedValue}
    (hv : v.HasType t) :
    v.canon = v := by
  induction t using NestedType.induct generalizing v with refine canon_eq_of_nonNull fun hnull => ?_
  | scalar t =>
    obtain ⟨x, rfl, hx⟩ := hv.eq_scalar
    rw [NestedValue.canon, hx.canonScalar_eq (by simpa [NestedType.floatFree] using ht)]
  | date =>
    obtain ⟨days, rfl, _⟩ := hv.eq_date hnull
    rfl
  | array t ih =>
    obtain ⟨es, rfl, _, hes⟩ := hv.eq_array hnull
    rw [NestedValue.canon, canonElems_eq, map_eq_self fun e he => ih ht (hes e he)]
  | struct fields ih =>
    obtain ⟨vs, rfl, _, _, hvs⟩ := hv.eq_struct hnull
    have hfields := fieldsFloatFree_iff.mp ht
    have hself : ∀ w ∈ vs, w.canon = w := by
      intro w hw
      obtain ⟨i, hi⟩ := mem_iff_getElem?.mp hw
      obtain ⟨f, hf, htyped⟩ := hvs i w hi
      have hmem := mem_of_getElem? hf
      exact ih f hmem (hfields f hmem) htyped
    rw [NestedValue.canon, canonElems_eq, map_eq_self hself]
  | map k v ihk ihv =>
    obtain ⟨es, rfl, _, hes⟩ := hv.eq_map hnull
    obtain ⟨hk, hv⟩ := Bool.and_eq_true_iff.mp ht
    rw [NestedValue.canon, canonEntries_eq, map_eq_self fun e he => Prod.ext
      (ihk hk (hes e he).1) (ihv hv (hes e he).2)]

/-- The result of `=` says what the comparison says, unless it is `NULL`. -/
def Agrees (res : Option Bool) (ord : Ordering) : Prop :=
  ∀ b, res = some b → (ord = .eq ↔ b = true)

theorem Agrees.andThen {res res' : Option Bool} {ord ord' : Ordering} (h : Agrees res ord)
    (h' : Agrees res' ord') :
    Agrees (Gsql.andThen res res') (ord.then ord') := by
  intro b hb
  rw [Ordering.then_eq_eq]
  cases res with
  | none =>
    cases res' with
    | none => cases hb
    | some b' =>
      cases b' with
      | false =>
        cases hb
        simp [h' false rfl]
      | true => cases hb
  | some c =>
    cases c with
    | false =>
      cases hb
      simp [h false rfl]
    | true =>
      cases res' with
      | none => cases hb
      | some b' =>
        cases b' with
        | false =>
          cases hb
          simp [h' false rfl]
        | true =>
          cases hb
          simp [h true rfl, h' true rfl]

variable {T : Nat → NestedValue → Prop}

theorem agrees_equalElems (h : ∀ i x y, T i x → T i y → Agrees (x.sqlEquals y) (x.compareValues y))
    {xs ys : List NestedValue} (hxs : Placed T xs) (hys : Placed T ys)
    (hlen : xs.length = ys.length) :
    Agrees (NestedValue.equalElems xs ys) (List.compareLex NestedValue.compareValues xs ys) := by
  induction xs generalizing ys T with
  | nil =>
    cases ys with
    | nil =>
      intro b hb
      cases hb
      exact ⟨fun _ => rfl, fun _ => rfl⟩
    | cons y ys => cases hlen
  | cons x xs ih =>
    cases ys with
    | nil => cases hlen
    | cons y ys =>
      obtain ⟨hx, hxs⟩ := placed_cons_iff.mp hxs
      obtain ⟨hy, hys⟩ := placed_cons_iff.mp hys
      rw [NestedValue.equalElems, List.compareLex_cons_cons]
      exact (h 0 x y hx hy).andThen (ih (fun i => h (i + 1)) hxs hys (Nat.succ.inj hlen))

theorem agrees_equalEntries {P : NestedValue → Prop}
    (h : ∀ x y, P x → P y → Agrees (x.sqlEquals y) (x.compareValues y))
    {xs ys : List (NestedValue × NestedValue)} (hxs : ∀ e ∈ xs, P e.2) (hys : ∀ e ∈ ys, P e.2)
    (hlen : xs.length = ys.length) :
    Agrees (NestedValue.equalEntries xs ys) (List.compareLex compareEntry xs ys) := by
  induction xs generalizing ys with
  | nil =>
    cases ys with
    | nil =>
      intro b hb
      cases hb
      exact ⟨fun _ => rfl, fun _ => rfl⟩
    | cons y ys => cases hlen
  | cons e xs ih =>
    obtain ⟨k, x⟩ := e
    cases ys with
    | nil => cases hlen
    | cons e' ys =>
      obtain ⟨l, y⟩ := e'
      rw [forall_mem_cons] at hxs hys
      have hrest := ih hxs.2 hys.2 (Nat.succ.inj hlen)
      rw [NestedValue.equalEntries, List.compareLex_cons_cons]
      unfold compareEntry
      split_ifs with hkey
      · dsimp only
        rw [hkey]
        exact (h x y hxs.1 hys.1).andThen hrest
      · intro b hb
        cases hb
        simp [Ordering.then_eq_eq, hkey]

theorem agrees_of_length {α : Type} {xs ys : List α} {cmp : α → α → Ordering} {res : Option Bool}
    (h : xs.length = ys.length → Agrees res (List.compareLex cmp xs ys)) :
    Agrees (if xs.length = ys.length then res else some false) (List.compareLex cmp xs ys) := by
  split_ifs with hlen
  · exact h hlen
  · intro b hb
    cases hb
    exact ⟨fun heq => absurd (length_eq_of_compareLex heq) hlen, nofun⟩

/-- `=` is `NULL` if one side is. -/
theorem agrees_of_nonNull {a b : NestedValue}
    (h : a.isNull = false → b.isNull = false → Agrees (a.sqlEquals b) (a.compareValues b)) :
    Agrees (a.sqlEquals b) (a.compareValues b) := by
  have hnone : ∀ {a b : NestedValue}, a.isNull = true ∨ b.isNull = true → a.sqlEquals b = none := by
    rintro a b (hnull | hnull)
    · rw [eq_null_of_isNull hnull]
      cases b <;> rfl
    rw [eq_null_of_isNull hnull]
    cases a with
    | scalar x => cases x <;> rfl
    | _ => rfl
  by_cases hnull : a.isNull = true ∨ b.isNull = true
  · intro r hr
    rw [hnone hnull] at hr
    cases hr
  · push Not at hnull
    exact h (Bool.eq_false_of_not_eq_true hnull.1) (Bool.eq_false_of_not_eq_true hnull.2)

theorem ScalarValue.HasType.sqlEquals_eq {x y : ScalarValue} {t : ScalarType} (hx : x.HasType t)
    (hy : y.HasType t) (ht : t.isFloat = false) (hnx : x ≠ .null) (hny : y ≠ .null) :
    sqlEquals x y = some (decide (x = y)) := by
  cases hx with
  | null => exact absurd rfl hnx
  | float32 | float64 => cases ht
  | _ =>
    cases hy with
    | null => exact absurd rfl hny
    | _ => rfl

/-- `=` agrees with the order on values without floats. -/
theorem sqlEquals_agrees {t : NestedType} (ht : t.floatFree = true) {a b : NestedValue}
    (ha : a.HasType t) (hb : b.HasType t) :
    Agrees (a.sqlEquals b) (a.compareValues b) := by
  induction t using NestedType.induct generalizing a b with
    refine agrees_of_nonNull fun hna hnb => ?_
  | scalar t =>
    obtain ⟨x, rfl, hx⟩ := ha.eq_scalar
    obtain ⟨y, rfl, hy⟩ := hb.eq_scalar
    have ht : t.isFloat = false := by
      simpa [NestedType.floatFree] using ht
    have hnx := scalar_ne_null hna
    have hny := scalar_ne_null hnb
    intro r hr
    rw [NestedValue.sqlEquals, hx.sqlEquals_eq hy ht hnx hny] at hr
    rw [compareValues_scalar, hx.compareValues_eq_iff hy hnx hny, hx.canonScalar_eq ht,
      hy.canonScalar_eq ht, ← Option.some.inj hr, decide_eq_true_iff]
  | date =>
    obtain ⟨x, rfl, _⟩ := ha.eq_date hna
    obtain ⟨y, rfl, _⟩ := hb.eq_date hnb
    intro r hr
    rw [← Option.some.inj hr, decide_eq_true_iff]
  | array t ih =>
    obtain ⟨xs, rfl, _, hxs⟩ := ha.eq_array hna
    obtain ⟨ys, rfl, _, hys⟩ := hb.eq_array hnb
    rw [compareValues_array]
    exact agrees_of_length (agrees_equalElems (fun _ _ _ hx hy => ih ht hx hy)
      (placed_of_forall_mem hxs) (placed_of_forall_mem hys))
  | struct fields ih =>
    obtain ⟨xs, rfl, _, _, hxs⟩ := ha.eq_struct hna
    obtain ⟨ys, rfl, _, _, hys⟩ := hb.eq_struct hnb
    have hfields := fieldsFloatFree_iff.mp ht
    rw [compareValues_struct]
    refine agrees_of_length (agrees_equalElems (fun i x y hx hy => ?_) hxs hys)
    obtain ⟨f, hf, hx, hy⟩ := hx.same hy
    exact ih f hf (hfields f hf) hx hy
  | map k v _ ihv =>
    obtain ⟨xs, rfl, _, hxs⟩ := ha.eq_map hna
    obtain ⟨ys, rfl, _, hys⟩ := hb.eq_map hnb
    have hv := (Bool.and_eq_true_iff.mp ht).2
    rw [compareValues_map]
    exact agrees_of_length (agrees_equalEntries (fun _ _ hx hy => ihv hv hx hy)
      (fun e he => (hxs e he).2) (fun e he => (hys e he).2))

end Equality

section Agreement

variable {t : NestedType} {a b c : NestedValue}

/-- **Order, grouping and equality agree.**  On the values of a type without floats the
comparison is a total order that tells apart what the keys tell apart; the keys of tuples of
the same types are equal exactly for equal tuples; and `=` agrees with the comparison
wherever it is not `NULL`. -/
theorem values_agree (ht : t.floatFree = true) (ha : a.HasType t) (hb : b.HasType t)
    (hc : c.HasType t) :
    (a.compareValues a = .eq ∧
      b.compareValues a = (a.compareValues b).swap ∧
      (a.compareValues b = .eq ↔ a = b) ∧
      (a.compareValues b ≠ .gt → b.compareValues c ≠ .gt → a.compareValues c ≠ .gt) ∧
      (a.compareValues b ≠ .gt ∨ b.compareValues a ≠ .gt)) ∧
    (a.compareValues b = .eq ↔ a.valueKey = b.valueKey) ∧
    (∀ ts : List NestedType, (∀ t ∈ ts, t.floatFree = true) →
      ∀ vs ws : List NestedValue, TupleHasType vs ts → TupleHasType ws ts →
        (tupleKey vs = tupleKey ws ↔ vs = ws)) ∧
    (a.sqlEquals b = some true → a.compareValues b = .eq) ∧
    (a.sqlEquals b = some false → a.compareValues b ≠ .eq) := by
  have hself : ∀ {v : NestedValue}, v.HasType t → v.canon = v := canon_eq_self ht
  have heq : a.compareValues b = .eq ↔ a = b := by
    rw [compareValues_eq_iff ha hb, hself ha, hself hb]
  have hswap := compareValues_swap a b
  refine ⟨⟨(compareValues_eq_iff ha ha).mpr rfl, hswap, heq,
    (compareValues_chain ha hb hc).ne_gt, ?_⟩, ?_, ?_, ?_, ?_⟩
  · rw [hswap]
    cases a.compareValues b <;> simp
  · rw [heq, valueKey_eq_iff ha.inRange hb.inRange, hself ha, hself hb]
  · intro ts hts vs ws hvs hws
    have htuple : ∀ {us : List NestedValue}, TupleHasType us ts →
        us.map NestedValue.canon = us := by
      intro us hus
      refine map_eq_self fun u hu => ?_
      obtain ⟨t, htmem, htyped⟩ := hus.exists_type hu
      exact canon_eq_self (hts t htmem) htyped
    rw [tupleKey_eq_iff hvs.inRange hws.inRange (hvs.length_eq.trans hws.length_eq.symm),
      htuple hvs, htuple hws]
  · intro h
    exact (sqlEquals_agrees ht ha hb true h).mpr rfl
  · intro h heq
    exact Bool.noConfusion ((sqlEquals_agrees ht ha hb false h).mp heq)

/-- An array of maps, with a `NULL` in a map and one in the array. -/
theorem values_agree_maps :
    NestedValue.HasType
        (.array [.map [(.scalar (.bytes [97]), .scalar .null)], .scalar .null])
        (.array (.map (.scalar .bytes) (.scalar .int64))) ∧
      NestedValue.valueKey
          (.array [.map [(.scalar (.bytes [97]), .scalar .null)], .scalar .null]) ≠
        NestedValue.valueKey (.array [.scalar .null, .scalar .null]) := by
  have ha : NestedValue.HasType
      (.array [.map [(.scalar (.bytes [97]), .scalar .null)], .scalar .null])
      (.array (.map (.scalar .bytes) (.scalar .int64))) :=
    ⟨by decide, ⟨by decide, ⟨.bytes (by decide), trivial⟩, trivial⟩, trivial, trivial⟩
  have hb : NestedValue.HasType (.array [.scalar .null, .scalar .null])
      (.array (.map (.scalar .bytes) (.scalar .int64))) :=
    ⟨by decide, trivial, trivial, trivial⟩
  obtain ⟨_, hkey, _⟩ := values_agree (by decide) ha hb hb
  refine ⟨ha, fun h => ?_⟩
  exact absurd (hkey.mpr h) (by decide)

end Agreement

end Gsql
end LittleBigtable
