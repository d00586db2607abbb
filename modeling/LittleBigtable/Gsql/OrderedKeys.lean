import LittleBigtable.Gsql.KeyFields

/-!
# Ordered-code row keys

The keys of the rows of a materialized view.  The byte order of the keys is the order
of the key columns, and a key is decoded to the tuple it was made of, so that two tuples
never share a key.

The order of a key is that of the list of its encoded fields (`OrderedCode.join_lt`), and
the order of an encoded field is that of its value (`compareValues_eq_compare`).
-/

namespace LittleBigtable
namespace Gsql
namespace KeyCodec

open Bttest List OrderedCode
open Lexicographic

section Split

theorem orderedCodeJoin_eq (encs : List Bytes) :
    orderedCodeJoin encs = OrderedCode.join encs := by
  cases encs with
  | nil => rfl
  | cons e es =>
    have htrimmed : ((e :: es).reverse.dropWhile (fun e => decide (e = []))).reverse =
        trimmed (e :: es) := rfl
    rw [orderedCodeJoin, htrimmed, trimmed_cons, join]
    by_cases hall : (e :: es).all (fun e => decide (e = [])) = true
    · rw [if_pos hall]
      rw [all_cons, Bool.and_eq_true, decide_eq_true_eq] at hall
      rw [hall.1, tail_eq_nil hall.2]
      rfl
    · rw [if_neg hall, tail_eq_flatMap]
      rfl

theorem splitLoop_of_ne_zero {c : UInt8} (hc : c ≠ 0) (rest : Bytes) (segs : List Bytes)
    (cur : Bytes) :
    splitLoop (c :: rest) segs cur = splitLoop rest segs (cur ++ [c]) := by
  cases rest with
  | nil | cons => simp [splitLoop, hc]

variable (e : Bytes)

theorem splitLoop_escape (rest : Bytes) (segs : List Bytes) (cur : Bytes) :
    splitLoop (e.flatMap OrderedCode.escape ++ rest) segs cur = splitLoop rest segs (cur ++ e) := by
  induction e generalizing cur with
  | nil => simp
  | cons c e ih =>
    by_cases hc : c = 0
    · simp [hc, escape, splitLoop, ih]
    · simp [hc, escape, splitLoop_of_ne_zero hc, ih]

theorem splitLoop_field (es segs : List Bytes) :
    splitLoop (OrderedCode.field e ++ OrderedCode.tail es) segs [] =
      splitLoop (OrderedCode.tail es) segs e := by
  unfold field
  by_cases he : e = []
  · subst he
    rcases tail_cases es with hnil | ⟨rest, hrest⟩
    · simp [hnil, splitLoop]
    · simp [hrest, splitLoop]
  · rw [if_neg he, splitLoop_escape]
    rfl

/-- The loop returns the fields up to the last one that is not empty. -/
theorem splitLoop_tail (es segs : List Bytes) :
    splitLoop (OrderedCode.tail es) segs e = .ok (segs ++ e :: OrderedCode.trimmed es) := by
  induction es generalizing e segs with
  | nil => simp [OrderedCode.tail, OrderedCode.trimmed, splitLoop]
  | cons e' es ih =>
    rw [OrderedCode.tail, OrderedCode.trimmed_cons]
    split
    · simp [splitLoop]
    rw [append_assoc]
    have hsep : splitLoop ([0, 1] ++ (OrderedCode.field e' ++ OrderedCode.tail es))
        segs e = splitLoop (OrderedCode.field e' ++ OrderedCode.tail es) (segs ++ [e]) [] := by
      simp [splitLoop]
    rw [hsep, splitLoop_field, ih]
    simp

/-- **An ordered-code key is split into its fields.** -/
theorem orderedCodeSplit_join {encs : List Bytes} (hencs : encs ≠ []) :
    orderedCodeSplit (orderedCodeJoin encs) encs.length = .ok encs := by
  obtain ⟨e, es, rfl⟩ := exists_cons_of_ne_nil hencs
  have hlen := length_trimmed_le es
  have hrest := OrderedCode.trimmed_append_replicate es
  have hnonempty : OrderedCode.field e ++ OrderedCode.tail es ≠ [] := by
    simp [OrderedCode.field_ne_nil]
  rw [orderedCodeJoin_eq, join, orderedCodeSplit, if_neg hnonempty,
    splitLoop_field, splitLoop_tail]
  dsimp only
  rw [if_neg (by simpa using hlen)]
  simpa using hrest

end Split

section Order

/-- The values that a key column of a type takes: not `NULL`, strings that are text in
UTF-8, 64-bit integers and timestamps in the supported range. -/
inductive Fits : ScalarType → ScalarValue → Prop
  | string {s : Bytes} (hvalid : Utf8.valid s = true) : Fits .string (.string s)
  | bytes (b : Bytes) : Fits .bytes (.bytes b)
  | int64 {n : Int} (hrange : -2 ^ 63 ≤ n ∧ n < 2 ^ 63) : Fits .int64 (.int64 n)
  | timestamp
      {us : Int}
      (hrange : minTimestampMicros ≤ us ∧ us ≤ maxTimestampMicros) :
      Fits .timestamp (.timestamp us)

/-- The comparison of two tuples, field by field. -/
def compareTuples : List ScalarValue → List ScalarValue → Ordering
  | x :: a, y :: b => (compareValues x y).then (compareTuples a b)
  | _, _ => .eq

theorem compare_appendOrderedInt64 {v w : Int} (hv : -2 ^ 63 ≤ v ∧ v < 2 ^ 63)
    (hw : -2 ^ 63 ≤ w ∧ w < 2 ^ 63) :
    compare (appendOrderedInt64 v) (appendOrderedInt64 w) = compare v w := by
  refine compare_congr ?_ ?_ ?_
  · intro h
    exact (appendOrderedInt64_before h hv.1 hw.2).lt
  · intro h
    rw [h]
  · intro h
    exact (appendOrderedInt64_before h hw.1 hv.2).lt

/-- The encoding of the value of a key column. -/
def columnBytes : ScalarValue → Bytes
  | .string s => s
  | .bytes b => b
  | .int64 n => appendOrderedInt64 n
  | .timestamp us => appendOrderedInt64 us
  | _ => []

theorem Fits.fieldCode {t : ScalarType} {v : ScalarValue} (h : Fits t v) :
    FieldCode (keyFieldProto t) v (columnBytes v) := by
  cases h with
  | string hvalid => exact .string (by simp)
  | bytes b => exact .bytes (by simp)
  | int64 hrange => exact .int64 _ _
  | timestamp hrange => exact .timestamp _ _

/-- The order of a key column is that of its encodings. -/
theorem compareValues_eq_compare {t : ScalarType} {v w : ScalarValue} (hv : Fits t v)
    (hw : Fits t w) :
    compareValues v w = compare (columnBytes v) (columnBytes w) := by
  cases hv with
  | string | bytes =>
    cases hw
    rfl
  | int64 hrange =>
    cases hw with
    | int64 hrange' => exact (compare_appendOrderedInt64 hrange hrange').symm
  | timestamp hrange =>
    cases hw with
    | timestamp hrange' =>
      exact (compare_appendOrderedInt64 (timestamp_int64 hrange.1 hrange.2)
        (timestamp_int64 hrange'.1 hrange'.2)).symm

variable {types : List ScalarType} {a b : List ScalarValue}

theorem compareTuples_eq_compare (ha : List.Forall₂ Fits types a) (hb : List.Forall₂ Fits types b) :
    compareTuples a b = compare (a.map columnBytes) (b.map columnBytes) := by
  induction ha generalizing b with
  | nil =>
    cases hb
    rfl
  | cons hv _ ih =>
    cases hb with
    | cons hw hb =>
      rw [compareTuples, ih hb, compareValues_eq_compare hv hw, List.map_cons,
        List.map_cons, List.compare_cons_cons]

/-- **The byte order of ordered-code keys is the order of the tuples.** -/
theorem compare_orderedCodeJoin (ha : List.Forall₂ Fits types a) (hb : List.Forall₂ Fits types b) :
    compare (orderedCodeJoin (a.map columnBytes)) (orderedCodeJoin (b.map columnBytes)) =
      compareTuples a b := by
  have hlen : (a.map columnBytes).length = (b.map columnBytes).length := by
    rw [length_map, length_map, ← ha.length_eq, hb.length_eq]
  rw [compareTuples_eq_compare ha hb, orderedCodeJoin_eq, orderedCodeJoin_eq]
  -- lists of byte strings have more than one order in the library
  let _ : LT (List Bytes) := instLT
  let _ : LE (List Bytes) := instLE
  refine compare_congr ?_ ?_ ?_
  · exact join_lt hlen
  · intro h
    rw [h]
  · exact join_lt hlen.symm

end Order

section Keys

variable {columns : List KeyField} {a b : List ScalarValue}

/-- The values of the key columns, on the wire. -/
def wireTuple (a : List ScalarValue) : List WireValue :=
  a.map (fun v => .scalar (toProtoScalar v))

/-- The key of a tuple, as the query and the storage of a view compute it, and what is
read of it. -/
structure ViewKey (columns : List KeyField) (a : List ScalarValue) (key : Bytes) : Prop where
  computed : encodeKeyInternal (keySchemaForView columns) a = .ok key
  stored : encodeKey (some (keySchemaForView columns)) (wireTuple a) = .ok key
  decoded : decodeKeyInternal (keySchemaForView columns) key = .ok a
  returned : decodeKey (some (keySchemaForView columns)) key = .ok (wireTuple a)

/-- A tuple of key columns as coded fields. -/
theorem exists_columnFields (h : List.Forall₂ (fun c v => Fits c.type v) columns a) :
    ∃ cs : List CodedField,
      cs.map CodedField.field = (keySchemaForView columns).fields ∧
        cs.map CodedField.value = a ∧ cs.map CodedField.bytes = a.map columnBytes ∧
          ∀ c ∈ cs, EscapesByChar c.field.type ∧ InRange c.value ∧ IsText c.value := by
  induction h with
  | nil => exact ⟨[], rfl, rfl, rfl, by simp⟩
  | @cons column v columns a hv _ ih =>
    obtain ⟨cs, hfields, rfl, hbytes, hcs⟩ := ih
    refine ⟨⟨⟨column.fieldName, keyFieldProto column.type⟩, v, columnBytes v,
      hv.fieldCode⟩ :: cs, ?_, rfl, ?_, ?_⟩
    · rw [map_cons, hfields]
      rfl
    · rw [map_cons, hbytes]
      rfl
    intro c hc
    rcases mem_cons.mp hc with rfl | hc
    · generalize column.type = t at hv
      cases hv with
      | string hvalid => exact ⟨.inl rfl, trivial, hvalid⟩
      | bytes b => exact ⟨trivial, trivial, trivial⟩
      | int64 hrange | timestamp hrange => exact ⟨trivial, hrange, trivial⟩
    · exact hcs c hc

theorem decodeSegments_eq_ok {cs : List CodedField} (key : Bytes)
    (h : ∀ c ∈ cs, EscapesByChar c.field.type ∧ InRange c.value ∧ IsText c.value) :
    decodeSegments key ((cs.map CodedField.field).zip (cs.map CodedField.bytes)) =
      .ok (cs.map CodedField.value) := by
  induction cs with
  | nil => rfl
  | cons c cs ih =>
    obtain ⟨hesc, hrange, htext⟩ := h c mem_cons_self
    rw [map_cons, map_cons, zip_cons_cons, decodeSegments,
      c.coded.decode hesc hrange htext,
      ih (fun c' hc' => h c' (mem_cons_of_mem c hc'))]
    rfl

/-- The types of the columns that the analyzer accepts in a key. -/
def isKeyType : ScalarType → Bool
  | .string | .bytes | .int64 | .timestamp => true
  | _ => false

variable {v : ScalarValue}

theorem Fits.isKeyType {t : ScalarType} (h : Fits t v) :
    isKeyType t = true := by
  cases h <;> rfl

theorem isKeyType_of_fits (h : List.Forall₂ (fun c v => Fits c.type v) columns a) :
    ∀ c ∈ columns, isKeyType c.type = true := by
  induction h with
  | nil => simp
  | cons hv _ ih =>
    rw [forall_mem_cons]
    exact ⟨hv.isKeyType, ih⟩

theorem keySchemaType_view {c : KeyField} (h : isKeyType c.type = true) :
    keySchemaType ⟨c.fieldName, keyFieldProto c.type⟩ = .ok c.type := by
  cases ht : c.type <;> first
    | rfl
    | (rw [ht] at h; cases h)

theorem keySchemaTypes_view (h : ∀ c ∈ columns, isKeyType c.type = true) :
    keySchemaTypes (some (keySchemaForView columns)) = .ok (columns.map KeyField.type) := by
  have hmap : (keySchemaForView columns).fields.mapM keySchemaType =
      .ok (columns.map KeyField.type) := by
    rw [mapM_eq_ok_iff]
    unfold keySchemaForView
    rw [forall₂_map_left_iff, forall₂_map_right_iff, forall₂_same]
    exact fun c hc => keySchemaType_view (h c hc)
  unfold keySchemaTypes
  dsimp only
  rw [hmap]
  rfl

theorem Fits.fromProtoValue_wire {t : ScalarType} (h : Fits t v) :
    fromProtoValue (.scalar (toProtoScalar v)) t = .ok v := by
  cases h with
  | @timestamp us hrange =>
    unfold minTimestampMicros maxTimestampMicros at hrange
    simp only [toProtoScalar, fromProtoValue, fromProtoScalar]
    have hback : us / 1000000 * 1000000 + us % 1000000 * 1000 / 1000 = us := by omega
    rw [if_neg (by omega), hback, if_neg (by unfold minTimestampMicros maxTimestampMicros; omega)]
  | _ => rfl

theorem fromProtoValue_wireTuple (h : List.Forall₂ (fun c v => Fits c.type v) columns a) :
    ((wireTuple a).zip (columns.map KeyField.type)).mapM
      (fun vt => fromProtoValue vt.1 vt.2) = .ok a := by
  rw [mapM_eq_ok_iff]
  induction h with
  | nil => exact .nil
  | cons hv _ ih => exact .cons hv.fromProtoValue_wire ih

/-- Every tuple of values that fit the key columns has a key. -/
theorem viewKey_orderedCodeJoin (hcols : columns ≠ [])
    (h : List.Forall₂ (fun c v => Fits c.type v) columns a) :
    ViewKey columns a (orderedCodeJoin (a.map columnBytes)) := by
  obtain ⟨cs, hfields, rfl, hbytes, hcs⟩ := exists_columnFields h
  have htypes := keySchemaTypes_view (isKeyType_of_fits h)
  have hcomputed : encodeKeyInternal (keySchemaForView columns) (cs.map CodedField.value) =
      .ok (orderedCodeJoin ((cs.map CodedField.value).map columnBytes)) := by
    unfold encodeKeyInternal
    rw [← hfields, mapM_encodeKeyField, hbytes]
    rfl
  have hdecoded : decodeKeyInternal (keySchemaForView columns)
      (orderedCodeJoin ((cs.map CodedField.value).map columnBytes)) =
        .ok (cs.map CodedField.value) := by
    have hne : cs.map CodedField.bytes ≠ [] := by
      intro hnil
      have hempty := h.length_eq
      rw [map_eq_nil_iff.mp hnil] at hempty
      exact hcols (length_eq_zero_iff.mp hempty)
    have hlen : (keySchemaForView columns).fields.length = (cs.map CodedField.bytes).length := by
      rw [← hfields, length_map, length_map]
    have henc : (keySchemaForView columns).encoding = .orderedCodeBytes := rfl
    unfold decodeKeyInternal
    rw [henc, ← hbytes]
    dsimp only
    rw [hlen, orderedCodeSplit_join hne]
    dsimp only
    rw [← hfields]
    exact decodeSegments_eq_ok _ hcs
  refine ⟨hcomputed, ?_, hdecoded, ?_⟩
  · unfold encodeKey
    rw [htypes]
    dsimp only
    rw [if_neg (by simp [wireTuple, h.length_eq]), fromProtoValue_wireTuple h]
    exact hcomputed
  · unfold decodeKey
    rw [htypes]
    dsimp only
    rw [hdecoded]
    rfl

theorem find?_compareValues {α : Type} (f g : α → ScalarValue) (l : List α) :
    ((l.map (fun i => compareValues (f i) (g i))).find? (fun c => c != .eq)).getD .eq =
      compareTuples (l.map f) (l.map g) := by
  induction l with
  | nil => rfl
  | cons i l ih =>
    rw [map_cons, List.find?_cons, map_cons, map_cons, compareTuples, ← ih]
    cases compareValues (f i) (g i) <;> rfl

/-- The first row has the later timestamp. -/
def Later (m : MvPlan) (r s : List SqlValue) : Prop :=
  ∃ i, m.tsIdx = some i ∧ compareValues (scalarAt r i) (scalarAt s i) = .gt

/-- Rows are ordered by their key columns, then by their timestamps. -/
theorem less_iff (m : MvPlan) (r s : List SqlValue) :
    m.less r s = true ↔
      compareTuples (m.keyIdx.map (scalarAt r)) (m.keyIdx.map (scalarAt s)) = .lt ∨
        compareTuples (m.keyIdx.map (scalarAt r)) (m.keyIdx.map (scalarAt s)) = .eq ∧
          Later m r s := by
  have hfind := find?_compareValues (scalarAt r) (scalarAt s) m.keyIdx
  unfold MvPlan.less
  cases hfirst : (m.keyIdx.map (fun i =>
      compareValues (scalarAt r i) (scalarAt s i))).find? (fun c => c != .eq) with
  | none =>
    rw [hfirst] at hfind
    rw [← hfind]
    unfold Later
    cases m.tsIdx with
    | none | some => simp
  | some c =>
    have hc := List.find?_some hfirst
    rw [hfirst] at hfind
    rw [← hfind]
    cases c with
    | eq => cases hc
    | lt | gt => simp

/-- **The keys of a view are in the order of their tuples and are decoded to them**: the
comparison of two keys is that of the key columns, so that the order of the rows of the
view is the order in which they are stored, and two tuples never share a key. -/
theorem viewKeys_ordered (hcolumns : columns ≠ [])
    (ha : List.Forall₂ (fun c v => Fits c.type v) columns a)
    (hb : List.Forall₂ (fun c v => Fits c.type v) columns b) :
    ∃ ka kb, ViewKey columns a ka ∧ ViewKey columns b kb ∧
      compare ka kb = compareTuples a b ∧ (ka = kb → a = b) ∧
      ∀ (m : MvPlan) (r s : List SqlValue),
        m.keyIdx.map (scalarAt r) = a → m.keyIdx.map (scalarAt s) = b →
          (m.less r s = true ↔ ka < kb ∨ (ka = kb ∧ Later m r s)) := by
  have hka := viewKey_orderedCodeJoin hcolumns ha
  have hkb := viewKey_orderedCodeJoin hcolumns hb
  have hcompare : compare (orderedCodeJoin (a.map columnBytes))
      (orderedCodeJoin (b.map columnBytes)) = compareTuples a b :=
    compare_orderedCodeJoin (forall₂_map_left_iff.mpr ha) (forall₂_map_left_iff.mpr hb)
  refine ⟨_, _, hka, hkb, hcompare, ?_, ?_⟩
  · intro hsame
    have hdecoded := hka.decoded
    rw [hsame, hkb.decoded] at hdecoded
    exact (Except.ok.inj hdecoded).symm
  · rintro m r s rfl rfl
    rw [less_iff, ← hcompare, Std.compare_eq_lt, Std.compare_eq_iff_eq]

/-- The keys of `("a" 00, -1)` and `("a", 300)` are in the order of the tuples. -/
theorem viewKeys_ordered_two_columns :
    ∃ ka kb,
      ViewKey [⟨[107], .bytes⟩, ⟨[110], .int64⟩] [.bytes [97, 0], .int64 (-1)] ka ∧
      ViewKey [⟨[107], .bytes⟩, ⟨[110], .int64⟩] [.bytes [97], .int64 300] kb ∧
      kb < ka := by
  have ha : List.Forall₂ (fun (c : KeyField) v => Fits c.type v)
      [⟨[107], .bytes⟩, ⟨[110], .int64⟩] [.bytes [97, 0], .int64 (-1)] :=
    .cons (.bytes _) (.cons (.int64 (by omega)) .nil)
  have hb : List.Forall₂ (fun (c : KeyField) v => Fits c.type v)
      [⟨[107], .bytes⟩, ⟨[110], .int64⟩] [.bytes [97], .int64 300] :=
    .cons (.bytes _) (.cons (.int64 (by omega)) .nil)
  obtain ⟨ka, kb, hka, hkb, hcompare, _, _⟩ := viewKeys_ordered (by simp) ha hb
  exact ⟨ka, kb, hka, hkb, Std.compare_eq_gt.mp hcompare⟩

end Keys

end KeyCodec
end Gsql
end LittleBigtable
