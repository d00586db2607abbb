import LittleBigtable.Gsql.KeyFields

/-!
# Delimited row keys

When the decoder of a delimited key returns the tuple that was encoded.  The encoder
checks each variable-length field for the delimiter, but the decoder cuts the joined
key at the first delimiter it finds, and one that begins in the last bytes of a field
is found before the one that ends the field.

`decodeDelimited_iff` is the induction over the fields: the tuple is decoded exactly if
its strings are text and no field but the last has such a delimiter.
`decodeKey_encodeKey_iff` adds what the conversion of the values loses, which is the
part of a timestamp below a microsecond.
-/

namespace LittleBigtable
namespace Gsql
namespace KeyCodec

open Bttest List

section Index

variable {d : Bytes}

theorem prefix_append_iff {s : Bytes} (hlen : d.length ≤ s.length) (more : Bytes) :
    d <+: s ++ more ↔ d <+: s := by
  constructor
  · intro h
    exact prefix_of_prefix_length_le h (prefix_append s more) hlen
  · intro h
    exact h.trans (prefix_append s more)

theorem index_append (hd : d ≠ []) (e more : Bytes) :
    index d (e ++ (d ++ more)) = index d (e ++ d) := by
  induction e with
  | nil =>
    obtain ⟨c, d', rfl⟩ := exists_cons_of_ne_nil hd
    simp [index]
  | cons c e ih =>
    have hcons : d <+: c :: (e ++ (d ++ more)) ↔ d <+: c :: (e ++ d) := by
      have happend := prefix_append_iff (d := d) (s := c :: (e ++ d)) (by simp; omega) more
      simpa using happend
    simp only [cons_append, index, hcons, ih]

theorem exists_index_append (hd : d ≠ []) (e : Bytes) :
    ∃ j ≤ e.length, index d (e ++ d) = some j := by
  induction e with
  | nil =>
    obtain ⟨c, d', rfl⟩ := exists_cons_of_ne_nil hd
    exact ⟨0, Nat.le_refl _, by simp [index]⟩
  | cons c e ih =>
    obtain ⟨j, hj, hindex⟩ := ih
    by_cases hc : d <+: c :: (e ++ d)
    · exact ⟨0, Nat.zero_le _, by simp [index, hc]⟩
    · exact ⟨j + 1, by simpa using hj, by simp [index, hc, hindex]⟩

end Index

section Fields

variable {d key : Bytes} {count : Nat}

theorem FieldCode.length_of_fixed {t : FieldType} {v : ScalarValue} {b : Bytes} {w : Nat}
    (h : FieldCode t v b) (hwidth : fixedKeyWidth t = .fixed w) :
    b.length = w := by
  cases h with
  | int64 enc n =>
    cases enc <;> cases hwidth
    exact length_encodeInt64 n
  | timestamp enc us =>
    cases enc <;> cases hwidth
    exact length_encodeInt64 us
  | _ => cases hwidth

theorem FieldCode.decodeOrderedInt64 {t : FieldType} {v : ScalarValue} {b : Bytes}
    (h : FieldCode t v b) (hwidth : fixedKeyWidth t = .selfDelimiting) (hrange : InRange v)
    (rest : Bytes) :
    ∃ n, decodeOrderedInt64 (b ++ rest) = .ok (n, b.length) := by
  cases h with
  | int64 enc n =>
    cases enc <;> cases hwidth
    exact ⟨n, decodeOrderedInt64_append hrange.1 hrange.2 rest⟩
  | timestamp enc us =>
    cases enc <;> cases hwidth
    obtain ⟨hlo, hhi⟩ := timestamp_int64 hrange.1 hrange.2
    exact ⟨us, decodeOrderedInt64_append hlo hhi rest⟩
  | _ => cases hwidth

/-- What the encoder has checked of a field, and what its schema and value are. -/
structure CodedField.Encodable (d : Bytes) (c : CodedField) : Prop where
  escapes : EscapesByChar c.field.type
  inRange : InRange c.value
  delimiter : fixedKeyWidth c.field.type = .variableLength → contains c.bytes d = false

/-- No delimiter begins within a variable-length field and ends in the delimiter behind
it. -/
def CodedField.Clear (d : Bytes) (c : CodedField) : Prop :=
  fixedKeyWidth c.field.type = .variableLength → index d (c.bytes ++ d) = some c.bytes.length

/-- The delimiters and fields behind the first field. -/
def tailBytes (d : Bytes) (cs : List CodedField) : Bytes :=
  (cs.map CodedField.bytes).flatMap (fun e => d ++ e)

theorem tailBytes_cons (d : Bytes) (c : CodedField) (cs : List CodedField) :
    tailBytes d (c :: cs) = d ++ (c.bytes ++ tailBytes d cs) := by
  simp [tailBytes]

variable {cs : List CodedField}

theorem takeField_of_clear {c : CodedField} (hd : d ≠ []) (hc : c.Encodable d)
    (hclear : cs ≠ [] → c.Clear d) :
    takeField key d count c.field (cs.map CodedField.field).isEmpty
      (c.bytes ++ tailBytes d cs) = .ok (c.bytes, tailBytes d cs) := by
  unfold takeField
  cases hwidth : fixedKeyWidth c.field.type with
  | fixed w =>
    have hlen := c.coded.length_of_fixed hwidth
    simp [← hlen]
  | selfDelimiting =>
    obtain ⟨n, hn⟩ := c.coded.decodeOrderedInt64 hwidth hc.inRange (tailBytes d cs)
    simp [hn]
  | variableLength =>
    cases cs with
    | nil => simp [tailBytes, hc.delimiter hwidth]
    | cons c' cs =>
      have hindex := hclear (by simp) hwidth
      rw [tailBytes_cons, index_append hd, hindex]
      simp

/-- A field with a delimiter that begins within it is cut short. -/
theorem takeField_of_not_clear {c : CodedField} (key : Bytes) (count : Nat) (hd : d ≠ [])
    (hcs : cs ≠ []) (hclear : ¬ c.Clear d) :
    ∃ fb rest, fb.length < c.bytes.length ∧
      takeField key d count c.field (cs.map CodedField.field).isEmpty
        (c.bytes ++ tailBytes d cs) = .ok (fb, rest) := by
  obtain ⟨c', cs, rfl⟩ := exists_cons_of_ne_nil hcs
  obtain ⟨hwidth, hindex⟩ := Classical.not_imp.mp hclear
  obtain ⟨j, hj, hfound⟩ := exists_index_append hd c.bytes
  have hlt : j < c.bytes.length := by
    refine Nat.lt_of_le_of_ne hj ?_
    rintro rfl
    exact hindex hfound
  refine ⟨(c.bytes ++ tailBytes d (c' :: cs)).take j,
    (c.bytes ++ tailBytes d (c' :: cs)).drop j, ?_, ?_⟩
  · rw [length_take]
    omega
  · simp only [takeField, hwidth]
    rw [tailBytes_cons, index_append hd, hfound]
    simp

end Fields

section Keys

variable {d key : Bytes} {count : Nat}

theorem decodeDelimited_first {f : Field} {fs : List Field} {rest : Bytes} :
    decodeDelimited key d count true (f :: fs) rest =
      decodeDelimited key d count false (f :: fs) (d ++ rest) := by
  simp [decodeDelimited, skipDelimiter]

theorem decodeDelimited_eq_ok_cons_iff {first : Bool} {f : Field} {fs : List Field}
    {rest rest₁ rest₂ fb : Bytes} (hskip : skipDelimiter key d f first rest = .ok rest₁)
    (htake : takeField key d count f fs.isEmpty rest₁ = .ok (fb, rest₂)) (v : ScalarValue)
    (vals : List ScalarValue) :
    decodeDelimited key d count first (f :: fs) rest = .ok (v :: vals) ↔
      decodeKeyField f.type fb = .ok v ∧ decodeDelimited key d count false fs rest₂ = .ok vals := by
  rw [decodeDelimited, hskip]
  dsimp only
  rw [htake]
  dsimp only
  cases decodeKeyField f.type fb with
  | error st => simp
  | ok v' =>
    cases decodeDelimited key d count false fs rest₂ with
    | error | ok => simp [Except.map]

/-- The tuple is decoded if the first field is cut at its end and decoded, and the
others are. -/
theorem decodeDelimited_cons_iff (c : CodedField) (cs : List CodedField) (hd : d ≠ [])
    (hc : c.Encodable d) (vals : List ScalarValue) :
    decodeDelimited key d count false ((c :: cs).map CodedField.field)
        (tailBytes d (c :: cs)) = .ok (c.value :: vals) ↔
      IsText c.value ∧ (cs ≠ [] → c.Clear d) ∧
        decodeDelimited key d count false (cs.map CodedField.field) (tailBytes d cs) =
          .ok vals := by
  have hskip : skipDelimiter key d c.field false (tailBytes d (c :: cs)) =
      .ok (c.bytes ++ tailBytes d cs) := by
    simp [skipDelimiter, tailBytes_cons]
  by_cases hclear : cs ≠ [] → c.Clear d
  · rw [map_cons, decodeDelimited_eq_ok_cons_iff hskip (takeField_of_clear hd hc hclear)]
    have hfield : decodeKeyField c.field.type c.bytes = .ok c.value ↔ IsText c.value := by
      constructor
      · intro h
        by_contra htext
        exact c.coded.decode_of_not_isText hc.escapes htext h
      · exact c.coded.decode hc.escapes hc.inRange
    rw [hfield]
    exact ⟨fun h => ⟨h.1, hclear, h.2⟩, fun h => ⟨h.1, h.2.2⟩⟩
  obtain ⟨hne, hnot⟩ := Classical.not_imp.mp hclear
  obtain ⟨fb, rest, hshort, htake⟩ := takeField_of_not_clear key count hd hne hnot
  rw [map_cons, decodeDelimited_eq_ok_cons_iff hskip htake]
  constructor
  · rintro ⟨hfield, _⟩
    -- a shorter field has another value
    have hwidth := (Classical.not_imp.mp hnot).1
    have hsame := (fieldCode_of_decode hwidth hc.escapes hfield).unique c.coded
    rw [hsame] at hshort
    exact absurd hshort (Nat.lt_irrefl _)
  · rintro ⟨_, hclear', _⟩
    exact absurd hclear' hclear

/-- **A delimited key is decoded to the tuple exactly if its strings are text and no
field but the last has a delimiter that begins within it.** -/
theorem decodeDelimited_iff {key : Bytes} {count : Nat} {cs : List CodedField} (hd : d ≠ [])
    (hcs : ∀ c ∈ cs, c.Encodable d) :
    decodeDelimited key d count false (cs.map CodedField.field) (tailBytes d cs) =
        .ok (cs.map CodedField.value) ↔
      (∀ c ∈ cs, IsText c.value) ∧ ∀ c ∈ cs.dropLast, c.Clear d := by
  induction cs with
  | nil => simp [decodeDelimited, tailBytes]
  | cons c cs ih =>
    have hvalues : (c :: cs).map CodedField.value = c.value :: cs.map CodedField.value := rfl
    rw [hvalues, decodeDelimited_cons_iff c cs hd (hcs c mem_cons_self),
      ih (fun c' hc' => hcs c' (mem_cons_of_mem c hc'))]
    cases cs with
    | nil => simp
    | cons c' cs =>
      simp only [dropLast_cons_cons, forall_mem_cons, ne_eq, reduceCtorEq,
        not_false_eq_true, forall_const]
      tauto

end Keys

section WireValues

variable {w : WireValue} {t : ScalarType} {v : ScalarValue}

/-- Integers are 64-bit numbers. -/
def WireInRange : WireValue → Prop
  | .scalar (.intValue n) => -2 ^ 63 ≤ n ∧ n < 2 ^ 63
  | _ => True

/-- The values that a key can hold: strings that are text in UTF-8, and timestamps of
whole microseconds. -/
def Exact : WireValue → Prop
  | .scalar (.stringValue s) => Utf8.valid s = true
  | .scalar (.timestampValue _ nanos) => nanos % 1000 = 0
  | _ => True

theorem Converted.inRange (h : Converted w t v) (hw : WireInRange w) :
    InRange v := by
  cases h with
  | int64 n => exact hw
  | timestamp hnanos hrange => exact hrange
  | _ => trivial

/-- A value is converted to no other value than the one whose wire form it is. -/
theorem Converted.eq_of_wire {v' : ScalarValue} (h : Converted (.scalar (toProtoScalar v')) t v) :
    v = v' := by
  generalize hw : WireValue.scalar (toProtoScalar v') = w at h
  cases h with
  | timestamp hnanos hrange =>
    cases v' <;> simp only [toProtoScalar, WireValue.scalar.injEq, reduceCtorEq,
      WireScalar.timestampValue.injEq] at hw
    congr 1
    omega
  | _ =>
    cases v' <;> cases hw
    rfl

/-- The wire form of a converted value is the value, and text if it is a string, exactly
if a key can hold the value. -/
theorem Converted.exact_iff (h : Converted w t v) :
    Exact w ↔ .scalar (toProtoScalar v) = w ∧ IsText v := by
  cases h with
  | timestamp hnanos hrange =>
    simp only [Exact, toProtoScalar, IsText, WireValue.scalar.injEq,
      WireScalar.timestampValue.injEq, and_true]
    omega
  | _ => simp [Exact, toProtoScalar, IsText]

end WireValues

section Delimited

variable {d : Bytes}

/-- A field of a key with the value on the wire. -/
structure WireField extends CodedField where
  wire : WireValue
  type : ScalarType
  typed : keySchemaType field = .ok type
  converted : fromProtoValue wire type = .ok value

variable {types : List ScalarType} {vals : List ScalarValue} {schema : Schema}

/-- A tuple that is encoded is a list of coded fields. -/
theorem exists_wireFields {fields : List Field} {values : List WireValue} {encs : List Bytes}
    (htypes : List.Forall₂ (fun f t => keySchemaType f = .ok t) fields types)
    (hlen : values.length = types.length)
    (hvals : (values.zip types).mapM (fun vt => fromProtoValue vt.1 vt.2) = .ok vals)
    (hencs : (fields.zip vals).mapM
      (fun fv => encodeKeyField fv.1.type fv.2 fv.1.fieldName) = .ok encs) :
    ∃ cs : List WireField, cs.map (fun c => c.field) = fields ∧
      cs.map WireField.wire = values ∧ cs.map (fun c => c.value) = vals ∧
        cs.map (fun c => c.bytes) = encs := by
  rw [mapM_eq_ok_iff] at hvals hencs
  induction htypes generalizing values vals encs with
  | nil =>
    obtain rfl : values = [] := length_eq_zero_iff.mp hlen
    cases hvals
    cases hencs
    exact ⟨[], rfl, rfl, rfl, rfl⟩
  | @cons f t fields types ht htypes ih =>
    cases values with
    | nil => simp at hlen
    | cons w values =>
      cases hvals with
      | cons hw hvals =>
        cases hencs with
        | cons henc hencs =>
          obtain ⟨cs, rfl, rfl, rfl, rfl⟩ := ih (by simpa using hlen) hvals hencs
          exact ⟨⟨⟨f, _, _, (encodeKeyField_eq_ok_iff _).mp henc⟩, w, t, ht, hw⟩ :: cs,
            rfl, rfl, rfl, rfl⟩

theorem checkDelimiter_eq_ok {pairs : List (Field × Bytes)} (h : checkDelimiter d pairs = .ok ()) :
    ∀ p ∈ pairs, fixedKeyWidth p.1.type = .variableLength → contains p.2 d = false := by
  induction pairs with
  | nil => simp
  | cons p pairs ih =>
    obtain ⟨f, enc⟩ := p
    unfold checkDelimiter at h
    split at h
    · cases h
    rename_i hnot
    intro q hq hwidth
    rcases mem_cons.mp hq with rfl | hq
    · simpa [hwidth] using hnot
    · exact ih h q hq hwidth

theorem keySchemaTypes_delimited_eq_ok (henc : schema.encoding = .delimitedBytes d)
    (h : keySchemaTypes (some schema) = .ok types) :
    d ≠ [] ∧ List.Forall₂ (fun f t => keySchemaType f = .ok t) schema.fields types := by
  unfold keySchemaTypes at h
  dsimp only at h
  cases hmap : schema.fields.mapM keySchemaType with
  | error st =>
    rw [hmap] at h
    cases h
  | ok types' =>
    rw [hmap, henc] at h
    dsimp only at h
    split at h
    · cases h
    rename_i hlen
    cases h
    refine ⟨?_, mapM_eq_ok_iff.mp hmap⟩
    rintro rfl
    exact hlen (.inl rfl)

theorem encodeKeyInternal_delimited_eq_ok {key : Bytes}
    (henc : schema.encoding = .delimitedBytes d) (hvals : schema.fields.length = vals.length)
    (hfields : schema.fields ≠ []) (h : encodeKeyInternal schema vals = .ok key) :
    ∃ encs, (schema.fields.zip vals).mapM
        (fun fv => encodeKeyField fv.1.type fv.2 fv.1.fieldName) = .ok encs ∧
      checkDelimiter d (schema.fields.zip encs) = .ok () ∧ key = joinBytes d encs := by
  unfold encodeKeyInternal at h
  cases hmap : (schema.fields.zip vals).mapM
      (fun fv => encodeKeyField fv.1.type fv.2 fv.1.fieldName) with
  | error st =>
    rw [hmap] at h
    cases h
  | ok encs =>
    have hencs : encs.length ≠ 0 := by
      rw [← (mapM_eq_ok_iff.mp hmap).length_eq, length_zip, ← hvals, Nat.min_self]
      exact fun hzero => hfields (length_eq_zero_iff.mp hzero)
    rw [hmap, henc] at h
    dsimp only at h
    rw [if_neg hencs] at h
    cases hcheck : checkDelimiter d (schema.fields.zip encs) with
    | error st =>
      rw [hcheck] at h
      cases h
    | ok u =>
      rw [hcheck] at h
      cases h
      exact ⟨encs, rfl, hcheck, rfl⟩

/-- What a successful encoding of a delimited key says. -/
theorem encodeKey_delimited_eq_ok {values : List WireValue} {key : Bytes}
    (henc : schema.encoding = .delimitedBytes d) (hfields : schema.fields ≠ [])
    (h : encodeKey (some schema) values = .ok key) :
    d ≠ [] ∧ (∃ types, keySchemaTypes (some schema) = .ok types) ∧
      ∃ cs : List WireField, cs.map (fun c => c.field) = schema.fields ∧
        cs.map WireField.wire = values ∧ key = joinBytes d (cs.map (fun c => c.bytes)) ∧
          ∀ c ∈ cs, fixedKeyWidth c.field.type = .variableLength → contains c.bytes d = false := by
  unfold encodeKey at h
  cases htypes : keySchemaTypes (some schema) with
  | error st =>
    rw [htypes] at h
    cases h
  | ok types =>
    obtain ⟨hd, htyped⟩ := keySchemaTypes_delimited_eq_ok henc htypes
    rw [htypes] at h
    dsimp only at h
    by_cases hlen : values.length = types.length
    · rw [if_neg (by simpa using hlen)] at h
      split at h
      · cases h
      rename_i vals hvals
      have hcount : schema.fields.length = vals.length := by
        rw [htyped.length_eq, ← (mapM_eq_ok_iff.mp hvals).length_eq, length_zip,
          hlen, Nat.min_self]
      obtain ⟨encs, hencs, hcheck, rfl⟩ :=
        encodeKeyInternal_delimited_eq_ok henc hcount hfields h
      obtain ⟨cs, hcsfields, hwires, _, rfl⟩ := exists_wireFields htyped hlen hvals hencs
      refine ⟨hd, ⟨types, rfl⟩, cs, hcsfields, hwires, rfl, ?_⟩
      intro c hc hwidth
      refine checkDelimiter_eq_ok hcheck (c.field, c.bytes) ?_ hwidth
      rw [← hcsfields, zip_map']
      exact mem_map_of_mem hc
    · rw [if_pos (by simpa using hlen)] at h
      cases h

/-- The bytes of a field in the key. -/
def fieldBytes (f : Field) (w : WireValue) : Except Status Bytes :=
  match keySchemaType f with
  | .error st => .error st
  | .ok t =>
    match fromProtoValue w t with
    | .error st => .error st
    | .ok v => encodeKeyField f.type v f.fieldName

/-- The first delimiter in the bytes of a variable-length field and the delimiter behind
them is the latter. -/
def FieldClear (d : Bytes) (f : Field) (w : WireValue) : Prop :=
  ∀ enc, fieldBytes f w = .ok enc → fixedKeyWidth f.type = .variableLength →
    index d (enc ++ d) = some enc.length

/-- The tuples that are decoded from their keys. -/
def DecodesBack (d : Bytes) (fields : List Field) (values : List WireValue) : Prop :=
  (∀ w ∈ values, Exact w) ∧ ∀ fw ∈ (fields.zip values).dropLast, FieldClear d fw.1 fw.2

theorem WireField.fieldClear_iff (c : WireField) :
    FieldClear d c.field c.wire ↔ c.toCodedField.Clear d := by
  have hbytes : fieldBytes c.field c.wire = .ok c.bytes := by
    unfold fieldBytes
    rw [c.typed]
    dsimp only
    rw [c.converted]
    exact (encodeKeyField_eq_ok_iff _).mpr c.coded
  constructor
  · intro h hwidth
    exact h c.bytes hbytes hwidth
  intro h enc henc hwidth
  rw [hbytes] at henc
  cases henc
  exact h hwidth

/-- The values that are decoded are the tuple if their wire forms are. -/
theorem map_value_of_wire {cs : List WireField}
    (h : vals.map (fun v => WireValue.scalar (toProtoScalar v)) = cs.map WireField.wire) :
    vals = cs.map (fun c => c.value) := by
  induction cs generalizing vals with
  | nil => simpa using h
  | cons c cs ih =>
    cases vals with
    | nil => simp at h
    | cons v vals =>
      rw [map_cons, map_cons, List.cons.injEq] at h
      have hconverted := converted_of_fromProtoValue c.typed c.converted
      rw [← h.1] at hconverted
      rw [map_cons, ← ih h.2, hconverted.eq_of_wire]

/-- Decoding the joined fields. -/
theorem decodeKeyInternal_joinBytes_iff {cs : List CodedField} (hd : d ≠ [])
    (henc : schema.encoding = .delimitedBytes d)
    (hfields : cs.map CodedField.field = schema.fields) (hne : schema.fields ≠ [])
    (hcs : ∀ c ∈ cs, c.Encodable d) :
    decodeKeyInternal schema (joinBytes d (cs.map CodedField.bytes)) =
        .ok (cs.map CodedField.value) ↔
      (∀ c ∈ cs, IsText c.value) ∧ ∀ c ∈ cs.dropLast, c.Clear d := by
  unfold decodeKeyInternal
  rw [henc, ← hfields]
  cases cs with
  | nil => exact absurd hfields.symm hne
  | cons c cs =>
    dsimp only
    have hjoin : joinBytes d ((c :: cs).map CodedField.bytes) = c.bytes ++ tailBytes d cs := rfl
    rw [hjoin, ← decodeDelimited_iff hd hcs, tailBytes_cons]
    exact Eq.congr_left (decodeDelimited_first)

/-- **A delimited row key is decoded to the tuple that was encoded exactly if the strings
are text in UTF-8, the timestamps are whole microseconds, and no delimiter begins within
a variable-length field other than the last and ends in the delimiter behind it.** -/
theorem decodeKey_encodeKey_iff (schema : Schema) (values : List WireValue) (key : Bytes)
    (hencoding : schema.encoding = .delimitedBytes d) (hfields : schema.fields ≠ [])
    (hescapes : ∀ f ∈ schema.fields, EscapesByChar f.type) (hrange : ∀ w ∈ values, WireInRange w)
    (h : encodeKey (some schema) values = .ok key) :
    decodeKey (some schema) key = .ok values ↔ DecodesBack d schema.fields values := by
  obtain ⟨hd, ⟨types, htypes⟩, cs, hcsfields, rfl, rfl, hdelimiter⟩ :=
    encodeKey_delimited_eq_ok hencoding hfields h
  have hencodable : ∀ c ∈ cs.map WireField.toCodedField, c.Encodable d := by
    rw [forall_mem_map]
    intro c hc
    refine ⟨hescapes c.field ?_, ?_, hdelimiter c hc⟩
    · rw [← hcsfields]
      exact mem_map_of_mem hc
    · exact (converted_of_fromProtoValue c.typed c.converted).inRange
        (hrange c.wire (mem_map_of_mem hc))
  have hdecode := decodeKeyInternal_joinBytes_iff hd hencoding
    (by rw [map_map]; exact hcsfields) hfields hencodable
  simp only [map_map, Function.comp_def, forall_mem_map, ← map_dropLast] at hdecode
  have hwire : decodeKey (some schema) (joinBytes d (cs.map (fun c => c.bytes))) =
      .ok (cs.map WireField.wire) ↔
        decodeKeyInternal schema (joinBytes d (cs.map (fun c => c.bytes))) =
          .ok (cs.map (fun c => c.value)) ∧ ∀ c ∈ cs, .scalar (toProtoScalar c.value) = c.wire := by
    unfold decodeKey
    have hmap : (∀ c ∈ cs, .scalar (toProtoScalar c.value) = c.wire) ↔
        (cs.map (fun c => c.value)).map (fun v => WireValue.scalar (toProtoScalar v)) =
          cs.map WireField.wire := by
      rw [map_map, map_inj_left]
      rfl
    rw [htypes, hmap]
    dsimp only
    cases decodeKeyInternal schema (joinBytes d (cs.map (fun c => c.bytes))) with
    | error st => simp [Except.map]
    | ok vals =>
      simp only [Except.map, Except.ok.injEq]
      constructor
      · intro hvals
        rw [← map_value_of_wire hvals]
        exact ⟨rfl, hvals⟩
      · rintro ⟨rfl, hvals⟩
        exact hvals
  rw [hwire, hdecode]
  unfold DecodesBack
  rw [← hcsfields, zip_map', ← map_dropLast]
  simp only [forall_mem_map, WireField.fieldClear_iff]
  have hexact : ∀ c ∈ cs, (Exact c.wire ↔
      .scalar (toProtoScalar c.value) = c.wire ∧ IsText c.value) :=
    fun c _ => (converted_of_fromProtoValue c.typed c.converted).exact_iff
  constructor
  · rintro ⟨⟨htext, hclear⟩, hsame⟩
    exact ⟨fun c hc => (hexact c hc).mpr ⟨hsame c hc, htext c hc⟩, hclear⟩
  · rintro ⟨hall, hclear⟩
    exact ⟨⟨fun c hc => ((hexact c hc).mp (hall c hc)).2, hclear⟩,
      fun c hc => ((hexact c hc).mp (hall c hc)).1⟩

/-- The string `*` with the escape character `*`, a `NULL` and a timestamp are decoded. -/
theorem decodeKey_encodeKey_iff_three_fields :
    DecodesBack [35, 35]
      [⟨[97], .stringType [42]⟩, ⟨[98], .bytesType true⟩, ⟨[99], .timestampType .orderedCodeBytes⟩]
      [.scalar (.stringValue [42]), .scalar .null, .scalar (.timestampValue 1 5000)] := by
  refine (decodeKey_encodeKey_iff
    ⟨[⟨[97], .stringType [42]⟩, ⟨[98], .bytesType true⟩,
      ⟨[99], .timestampType .orderedCodeBytes⟩], .delimitedBytes [35, 35]⟩
    _ [42, 42, 35, 35, 35, 35, 239, 66, 69] rfl (by simp) ?_ ?_
    (by decide +kernel)).mp (by decide +kernel)
  · have hchar : [42] = String.utf8EncodeChar '*' := by decide
    intro f hf
    simp only [mem_cons, not_mem_nil, or_false] at hf
    rcases hf with rfl | rfl | rfl
    · exact .inr ⟨'*', hchar⟩
    · trivial
    · trivial
  · intro w hw
    simp only [mem_cons, not_mem_nil, or_false] at hw
    rcases hw with rfl | rfl | rfl <;> trivial

/-- The field `a#` ends in the first half of the delimiter `##`: the tuples `(a#, b)` and
`(a, #b)` have one key, and it is decoded to the second. -/
theorem delimiter_straddles :
    encodeKey (some ⟨[⟨[97], .bytesType false⟩, ⟨[98], .bytesType false⟩],
        .delimitedBytes [35, 35]⟩)
      [.scalar (.bytesValue [97, 35]), .scalar (.bytesValue [98])] = .ok [97, 35, 35, 35, 98] ∧
    decodeKey (some ⟨[⟨[97], .bytesType false⟩, ⟨[98], .bytesType false⟩],
        .delimitedBytes [35, 35]⟩) [97, 35, 35, 35, 98] =
      .ok [.scalar (.bytesValue [97]), .scalar (.bytesValue [35, 98])] ∧
    encodeKey (some ⟨[⟨[97], .bytesType false⟩, ⟨[98], .bytesType false⟩],
        .delimitedBytes [35, 35]⟩)
      [.scalar (.bytesValue [97]), .scalar (.bytesValue [35, 98])] = .ok [97, 35, 35, 35, 98] := by
  decide +kernel

end Delimited

end KeyCodec
end Gsql
end LittleBigtable
