import LittleBigtable.Gsql.ViewQuery
import LittleBigtable.Lib.BigEndian
import LittleBigtable.Lib.Utf8

/-!
# Row key codec

Row keys that hold one value per field of a row key schema: the struct encodings
(singleton, delimited bytes, ordered code) and the encodings of bytes, strings,
integers and timestamps.  A string is its bytes; `Utf8` says which characters they
are.
-/

namespace LittleBigtable
namespace Gsql
namespace KeyCodec

open Bttest

section Schema

/-- `Type_Int64_Encoding`; big-endian unless ordered code is set. -/
inductive Int64Encoding
  | bigEndianBytes
  | orderedCodeBytes
deriving DecidableEq

/-- The type of a key field, with what the codec reads of its encoding: whether bytes
escape nulls, and the character by which a string does (empty if it does not). -/
inductive FieldType
  | bytesType (escapeNulls : Bool)
  | stringType (nullEscapeChar : Bytes)
  | int64Type (encoding : Int64Encoding)
  | timestampType (unixMicrosInt64 : Int64Encoding)
  | otherType (text : String)
deriving DecidableEq

structure Field where
  fieldName : Bytes
  type : FieldType
deriving DecidableEq

inductive StructEncoding
  | unset
  | singleton
  | delimitedBytes (delimiter : Bytes)
  | orderedCodeBytes
deriving DecidableEq

/-- `Type_Struct`. -/
structure Schema where
  fields : List Field
  encoding : StructEncoding
deriving DecidableEq

/-- The SQL type of one field. -/
def keySchemaType (f : Field) : Except Status ScalarType :=
  match f.type with
  | .bytesType _ => .ok .bytes
  | .stringType _ => .ok .string
  | .int64Type _ => .ok .int64
  | .timestampType _ => .ok .timestamp
  | .otherType text =>
    .error (invalidf "row key schema field %q has unsupported type %v"
      [.bytes f.fieldName, .text text])

/-- Validates a row key schema and returns the SQL field types. -/
def keySchemaTypes (schema : Option Schema) : Except Status (List ScalarType) :=
  match schema with
  | none => .error (invalidf "row key schema is not set" [])
  | some schema =>
    match schema.fields.mapM keySchemaType with
    | .error st => .error st
    | .ok types =>
      match schema.encoding with
      | .singleton =>
        if schema.fields.length ≠ 1 then
          .error (invalidf
            "singleton row key encoding requires exactly one field, got %d"
            [.int schema.fields.length])
        else
          .ok types
      | .delimitedBytes d =>
        if d.length = 0 ∨ 50 < d.length then
          .error (invalidf "row key delimiter must contain 1 to 50 bytes" [])
        else
          .ok types
      | .orderedCodeBytes => .ok types
      | .unset => .error (invalidf "row key schema must specify a struct encoding" [])

/-- `keyFieldProto`; other types have no encoding as a key column. -/
def keyFieldProto : ScalarType → FieldType
  | .string => .stringType []
  | .bytes => .bytesType false
  | .int64 => .int64Type .orderedCodeBytes
  | .timestamp => .timestampType .orderedCodeBytes
  | t => .otherType t.text

/-- The schema of the row keys of a materialized view. -/
def keySchemaForView (columns : List KeyField) : Schema :=
  ⟨columns.map (fun c => ⟨c.fieldName, keyFieldProto c.type⟩), .orderedCodeBytes⟩

end Schema

section Integers

def encodeInt64 (enc : Int64Encoding) (v : Int) : Bytes :=
  match enc with
  | .orderedCodeBytes => appendOrderedInt64 v
  | .bigEndianBytes => Bttest.encodeInt64 v

/-- The loop that counts the leading ones from the bit `n` on; the length of an
encoding is at most ten. -/
def leadingOnes (b : Bytes) : Nat → Nat → Except Status Nat
  | 0, _ => .error (invalidf "invalid ordered-code INT64 length" [])
  | fuel + 1, n =>
    match b[n / 8]? with
    | none => .error (invalidf "truncated ordered-code INT64" [])
    | some c =>
      if c.toNat.testBit (7 - n % 8) = false then
        .ok n
      else if 10 < n + 1 then
        .error (invalidf "invalid ordered-code INT64 length" [])
      else
        leadingOnes b fuel (n + 1)

/-- The integer at the start of `b`, and the number of its bytes. -/
def decodeOrderedInt64 (b : Bytes) : Except Status (Int × Nat) :=
  match b with
  | [] => .error (invalidf "empty ordered-code INT64" [])
  | first :: _ =>
    let neg := !first.toNat.testBit 7
    let bits := if neg then b.map (fun c => ~~~c) else b
    match leadingOnes bits 11 0 with
    | .error st => .error st
    | .ok n =>
      if n < 1 ∨ b.length < n then
        .error (invalidf "truncated ordered-code INT64" [])
      else
        -- the number of the `n` bytes without the `n` leading ones
        let x := BigEndian.value (bits.take n) % 2 ^ (7 * n)
        if 2 ^ 63 ≤ x then
          .error (invalidf "ordered-code INT64 overflow" [])
        else
          let v : Int := if neg then -(x : Int) - 1 else x
          if (appendOrderedInt64 v).length ≠ n then
            .error (invalidf "non-canonical ordered-code INT64" [])
          else
            .ok (v, n)

def decodeInt64 (enc : Int64Encoding) (b : Bytes) : Except Status Int :=
  match enc with
  | .orderedCodeBytes =>
    match decodeOrderedInt64 b with
    | .error st => .error st
    | .ok (v, n) =>
      if n ≠ b.length then
        .error (invalidf "trailing bytes after ordered-code INT64" [])
      else
        .ok v
  | .bigEndianBytes =>
    if b.length ≠ 8 then
      .error (invalidf "big-endian INT64 requires 8 bytes, got %d" [.int b.length])
    else
      .ok (Bttest.decodeInt64 b)

def checkTimestamp (us : Int) : Except Status ScalarValue :=
  if us < minTimestampMicros ∨ maxTimestampMicros < us then
    .error (errorf .outOfRange "timestamp value is out of the supported range" [])
  else
    .ok (.timestamp us)

end Integers

section Fields

def allBytesEqual (b : Bytes) (c : UInt8) : Bool :=
  b.all (fun x => decide (x = c))

/-- `strings.TrimSuffix`. -/
def trimSuffix (s t : Bytes) : Bytes :=
  if t <:+ s then s.take (s.length - t.length) else s

def mustNotBeNull (name : Bytes) : Status :=
  invalidf "row key field %q must not be NULL" [.bytes name]

/-- The value is `NULL` or of the type of the field, as the conversion of the values
has checked. -/
def encodeKeyField (t : FieldType) (v : ScalarValue) (name : Bytes) : Except Status Bytes :=
  match t, v with
  | .bytesType escape, .null => if escape then .ok [] else .error (mustNotBeNull name)
  | .bytesType escape, .bytes b => if escape && allBytesEqual b 0 then .ok (b ++ [0]) else .ok b
  | .stringType esc, .null => if esc ≠ [] then .ok [] else .error (mustNotBeNull name)
  | .stringType esc, .string s => if esc ≠ [] ∧ Utf8.trim s esc = [] then .ok (s ++ esc) else .ok s
  | .int64Type _, .null => .error (mustNotBeNull name)
  | .int64Type enc, .int64 n => .ok (encodeInt64 enc n)
  | .timestampType _, .null => .error (mustNotBeNull name)
  | .timestampType enc, .timestamp us => .ok (encodeInt64 enc us)
  | _, _ => .error (invalidf "row key field %q has an unsupported type" [.bytes name])

def decodeKeyField (t : FieldType) (b : Bytes) : Except Status ScalarValue :=
  match t with
  | .bytesType escape =>
    if escape ∧ b = [] then
      .ok .null
    else if escape ∧ allBytesEqual b 0 then
      .ok (.bytes b.dropLast)
    else
      .ok (.bytes b)
  | .stringType esc =>
    if esc ≠ [] ∧ b = [] then
      .ok .null
    else if Utf8.valid b = false then
      .error (invalidf "invalid UTF-8 in STRING key field" [])
    else if esc ≠ [] ∧ Utf8.trim b esc = [] then
      .ok (.string (trimSuffix b esc))
    else
      .ok (.string b)
  | .int64Type enc => (decodeInt64 enc b).map ScalarValue.int64
  | .timestampType enc =>
    match decodeInt64 enc b with
    | .error st => .error st
    | .ok n => checkTimestamp n
  | .otherType _ => .error (invalidf "unsupported key field type" [])

/-- How far a field of a delimited key reaches. -/
inductive KeyWidth
  | fixed (n : Nat)
  | selfDelimiting
  | variableLength
deriving DecidableEq

def int64Width : Int64Encoding → KeyWidth
  | .orderedCodeBytes => .selfDelimiting
  | .bigEndianBytes => .fixed 8

def fixedKeyWidth : FieldType → KeyWidth
  | .int64Type enc => int64Width enc
  | .timestampType enc => int64Width enc
  | _ => .variableLength

end Fields

section Keys

/-- `bytes.Index`: where `d` first occurs. -/
def index (d : Bytes) : Bytes → Option Nat
  | [] => if d = [] then some 0 else none
  | c :: s => if d <+: c :: s then some 0 else (index d s).map (· + 1)

/-- `bytes.Contains`. -/
def contains (s d : Bytes) : Bool :=
  (index d s).isSome

/-- `bytes.Join`. -/
def joinBytes (d : Bytes) : List Bytes → Bytes
  | [] => []
  | e :: es => e ++ es.flatMap (fun e => d ++ e)

/-- The variable-length fields are checked for the delimiter. -/
def checkDelimiter (d : Bytes) :
    List (Field × Bytes) → Except Status Unit
  | [] => .ok ()
  | (f, enc) :: rest =>
    if fixedKeyWidth f.type = .variableLength ∧ contains enc d then
      .error (invalidf "row key field %q value contains the delimiter %q"
        [.bytes f.fieldName, .bytes d])
    else
      checkDelimiter d rest

def encodeKeyInternal (schema : Schema) (vals : List ScalarValue) : Except Status Bytes :=
  match (schema.fields.zip vals).mapM (fun fv => encodeKeyField fv.1.type fv.2 fv.1.fieldName) with
  | .error st => .error st
  | .ok encs =>
    match schema.encoding with
    | .singleton => .ok (encs.headD [])
    | .delimitedBytes d =>
      if encs.length = 0 then
        .ok d
      else
        (checkDelimiter d (schema.fields.zip encs)).map (fun _ => joinBytes d encs)
    | .orderedCodeBytes => .ok (orderedCodeJoin encs)
    | .unset => .error (invalidf "row key schema must specify a struct encoding" [])

/-- The loop that splits an ordered-code key; `cur` is the field read so far. -/
def splitLoop : Bytes → List Bytes → Bytes → Except Status (List Bytes)
  | [], segs, cur => .ok (segs ++ [cur])
  | [c], segs, cur =>
    if c = 0 then
      .error (invalidf "invalid ordered-code row key: dangling escape byte" [])
    else
      .ok (segs ++ [cur ++ [c]])
  | c :: c' :: rest, segs, cur =>
    if c ≠ 0 then
      splitLoop (c' :: rest) segs (cur ++ [c])
    else if c' = 0xFF then
      splitLoop rest segs (cur ++ [0])
    else if c' = 1 then
      splitLoop rest (segs ++ [cur]) []
    else if c' = 0 then
      if cur ≠ [] then
        .error (invalidf "invalid ordered-code row key: misplaced empty-field marker" [])
      else if rest ≠ [] ∧ ¬ [0, 1] <+: rest then
        .error (invalidf
          "invalid ordered-code row key: empty-field marker not followed by a separator" [])
      else
        splitLoop rest segs cur
    else
      .error (invalidf "invalid ordered-code row key: bad escape sequence 0x00 0x%02x"
        [.int c'.toNat])

def orderedCodeSplit (key : Bytes) (n : Nat) : Except Status (List Bytes) :=
  if key = [] then
    .ok (List.replicate n [])
  else
    match splitLoop key [] [] with
    | .error st => .error st
    | .ok segs =>
      if n < segs.length then
        .error (invalidf "ordered-code row key has %d fields, schema has %d"
          [.int segs.length, .int n])
      else
        .ok (segs ++ List.replicate (n - segs.length) [])

/-- The error for a key that does not fit the schema. -/
def nonconforming (key : Bytes) (format : String) (args : List FmtArg) : Status :=
  invalidf ("row key %q does not conform to the row key schema: " ++ format) (.bytes key :: args)

/-- The error of a field, within the error of the key. -/
def nonconformingField (key : Bytes) (f : Field) (st : Status) : Status :=
  nonconforming key ("field %q: " ++ st.format) (.bytes f.fieldName :: st.args)

/-- The bytes of one field of a delimited key, and what is left. -/
def takeField (key d : Bytes) (count : Nat) (f : Field) (last : Bool)
    (rest : Bytes) : Except Status (Bytes × Bytes) :=
  match fixedKeyWidth f.type with
  | .fixed w =>
    if rest.length < w then
      .error (nonconforming key "field %q is truncated" [.bytes f.fieldName])
    else
      .ok (rest.take w, rest.drop w)
  | .selfDelimiting =>
    match decodeOrderedInt64 rest with
    | .error st => .error (nonconformingField key f st)
    | .ok (_, n) => .ok (rest.take n, rest.drop n)
  | .variableLength =>
    if last then
      if contains rest d then
        .error (nonconforming key "too many fields" [])
      else
        .ok (rest, [])
    else
      match index d rest with
      | none => .error (nonconforming key "expected %d fields" [.int count])
      | some j => .ok (rest.take j, rest.drop j)

/-- A delimiter stands before every field but the first. -/
def skipDelimiter (key d : Bytes) (f : Field) (first : Bool) (rest : Bytes) : Except Status Bytes :=
  if first then
    .ok rest
  else if d <+: rest then
    .ok (rest.drop d.length)
  else
    .error (nonconforming key "missing delimiter before field %q" [.bytes f.fieldName])

/-- The loop over the fields of a delimited key. -/
def decodeDelimited (key d : Bytes)
    (count : Nat) : Bool → List Field → Bytes → Except Status (List ScalarValue)
  | _, [], rest =>
    if rest.length ≠ 0 then
      .error (nonconforming key "trailing bytes" [])
    else
      .ok []
  | first, f :: fs, rest =>
    match skipDelimiter key d f first rest with
    | .error st => .error st
    | .ok rest =>
      match takeField key d count f fs.isEmpty rest with
      | .error st => .error st
      | .ok (fb, rest) =>
        match decodeKeyField f.type fb with
        | .error st => .error (nonconformingField key f st)
        | .ok v => (decodeDelimited key d count false fs rest).map (v :: ·)

/-- The loop over the fields of an ordered-code key. -/
def decodeSegments (key : Bytes) : List (Field × Bytes) → Except Status (List ScalarValue)
  | [] => .ok []
  | (f, seg) :: rest =>
    match decodeKeyField f.type seg with
    | .error st => .error (nonconformingField key f st)
    | .ok v => (decodeSegments key rest).map (v :: ·)

def decodeKeyInternal (schema : Schema) (key : Bytes) : Except Status (List ScalarValue) :=
  match schema.encoding with
  | .singleton =>
    match schema.fields with
    | [] => .ok []
    | f :: _ => (decodeKeyField f.type key).map (fun v => [v])
  | .delimitedBytes d => decodeDelimited key d schema.fields.length true schema.fields key
  | .orderedCodeBytes =>
    match orderedCodeSplit key schema.fields.length with
    | .error st => .error st
    | .ok segs => decodeSegments key (schema.fields.zip segs)
  | .unset => .error (invalidf "row key schema must specify a struct encoding" [])

/-- One value per schema field, encoded into a row key. -/
def encodeKey (schema : Option Schema) (values : List WireValue) : Except Status Bytes :=
  match keySchemaTypes schema, schema with
  | .error st, _ => .error st
  | .ok _, none => .error (invalidf "row key schema is not set" [])
  | .ok types, some schema =>
    if values.length ≠ types.length then
      .error (invalidf "row key schema has %d fields but %d values were provided"
        [.int types.length, .int values.length])
    else
      match (values.zip types).mapM (fun vt => fromProtoValue vt.1 vt.2) with
      | .error st => .error st
      | .ok vals => encodeKeyInternal schema vals

/-- A row key, decoded into one value per schema field. -/
def decodeKey (schema : Option Schema) (key : Bytes) : Except Status (List WireValue) :=
  match keySchemaTypes schema, schema with
  | .error st, _ => .error st
  | .ok _, none => .error (invalidf "row key schema is not set" [])
  | .ok _, some schema =>
    (decodeKeyInternal schema key).map (fun vals => vals.map (fun v => .scalar (toProtoScalar v)))

end Keys

end KeyCodec
end Gsql
end LittleBigtable
