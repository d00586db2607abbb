import LittleBigtable.Bttest.MutationEngine

/-!
# Output of a materialized-view query

The rows that the query of a continuous materialized view emits: the runtime
values and types of the output columns the analyzer accepts, their wire form, the
encodings of a cell value and of a row key, and the plan of a view with its
exclusion rules and its order.

An accepted output column is a scalar other than `DATE`, or a whole column family
as a map from qualifiers to cell values.  How the expressions of the query are
evaluated is not part of this module: a plan is run on the rows of values to which
they evaluate.  A float is its IEEE 754 bit pattern.
-/

namespace LittleBigtable
namespace Gsql

open Bttest

section Values

inductive ScalarType
  | bool
  | int64
  | float32
  | float64
  | string
  | bytes
  | timestamp
deriving DecidableEq

/-- `sqlType.String`. -/
def ScalarType.text : ScalarType → String
  | .bool => "BOOL"
  | .int64 => "INT64"
  | .float32 => "FLOAT32"
  | .float64 => "FLOAT64"
  | .string => "STRING"
  | .bytes => "BYTES"
  | .timestamp => "TIMESTAMP"

inductive SqlType
  | scalar (t : ScalarType)
  | map (key val : ScalarType)
deriving DecidableEq

/-- A scalar runtime value; a timestamp holds microseconds. -/
inductive ScalarValue
  | null
  | bool (b : Bool)
  | int64 (n : Int)
  | float (bits : UInt64)
  | string (s : Bytes)
  | bytes (b : Bytes)
  | timestamp (micros : Int)
deriving DecidableEq

/-- A runtime value; the entries of a map are sorted by their distinct keys. -/
inductive SqlValue
  | scalar (v : ScalarValue)
  | map (entries : List (ScalarValue × ScalarValue))
deriving DecidableEq

def SqlValue.isNull : SqlValue → Bool
  | .scalar .null => true
  | _ => false

/-- The bits of a float below the sign. -/
def floatMagnitude (bits : UInt64) : Nat :=
  bits.toNat % 2 ^ 63

def isNaN (bits : UInt64) : Bool :=
  decide (0x7FF * 2 ^ 52 < floatMagnitude bits)

/-- The place of a float that is a number in the order of floats; both zeros have
the same place. -/
def floatPlace (bits : UInt64) : Int :=
  if bits.toNat < 2 ^ 63 then floatMagnitude bits else -floatMagnitude bits

def cmpFloat (a b : UInt64) : Ordering :=
  if isNaN a then
    if isNaN b then .eq else .lt
  else if isNaN b then
    .gt
  else
    compare (floatPlace a) (floatPlace b)

/-- `NULL` comes first.  Values of two types are not compared: a column has one
type. -/
def compareValues : ScalarValue → ScalarValue → Ordering
  | .null, .null => .eq
  | .null, _ => .lt
  | _, .null => .gt
  | .bool x, .bool y => compare x y
  | .int64 x, .int64 y => compare x y
  | .float x, .float y => cmpFloat x y
  | .string x, .string y => compare x y
  | .bytes x, .bytes y => compare x y
  | .timestamp x, .timestamp y => compare x y
  | _, _ => .eq

end Values

section Wire

/-- A scalar `Value`; `null` has no kind. -/
inductive WireScalar
  | null
  | boolValue (b : Bool)
  | intValue (n : Int)
  | floatValue (bits : UInt64)
  | stringValue (s : Bytes)
  | bytesValue (b : Bytes)
  | timestampValue (seconds nanos : Int)
deriving DecidableEq

/-- A `Value` of a result row; a map is an array of two-element arrays. -/
inductive WireValue
  | scalar (v : WireScalar)
  | arrayValue (values : List (List WireScalar))
deriving DecidableEq

def WireScalar.getBytesValue : WireScalar → Bytes
  | .bytesValue b => b
  | _ => []

def WireScalar.getStringValue : WireScalar → Bytes
  | .stringValue s => s
  | _ => []

def toProtoScalar : ScalarValue → WireScalar
  | .null => .null
  | .bool b => .boolValue b
  | .int64 n => .intValue n
  | .float bits => .floatValue bits
  | .string s => .stringValue s
  | .bytes b => .bytesValue b
  | .timestamp us => .timestampValue (us / 1000000) (us % 1000000 * 1000)

def toProtoValue : SqlValue → WireValue
  | .scalar v => .scalar (toProtoScalar v)
  | .map entries => .arrayValue (entries.map (fun kv => [toProtoScalar kv.1, toProtoScalar kv.2]))

/-- Divide by a power of two, rounding to the nearest and ties to even. -/
def roundShift (m shift : Nat) : Nat :=
  let q := m / 2 ^ shift
  let r := m % 2 ^ shift
  if 2 ^ (shift - 1) < r ∨ (r = 2 ^ (shift - 1) ∧ q % 2 = 1) then q + 1 else q

/-- `float32(x)`. -/
def toFloat32 (bits : UInt64) : UInt32 :=
  let sign := bits.toNat / 2 ^ 63
  let e := bits.toNat / 2 ^ 52 % 2 ^ 11
  let m := bits.toNat % 2 ^ 52
  let magnitude :=
    if e = 2047 then
      if m = 0 then 0x7F800000 else 0x7FC00000 ||| m / 2 ^ 29
    else if e = 0 then
      0
    else if 897 ≤ e then
      -- a carry out of the fraction raises the exponent, in the end to infinity
      min 0x7F800000 ((e - 897) * 2 ^ 23 + roundShift (2 ^ 52 + m) 29)
    else
      roundShift (2 ^ 52 + m) (29 + (897 - e))
  UInt32.ofNat (sign * 2 ^ 31 + magnitude)

/-- `float64(x)` of a `float32`. -/
def ofFloat32 (bits : UInt32) : UInt64 :=
  let sign := bits.toNat / 2 ^ 31
  let e := bits.toNat / 2 ^ 23 % 2 ^ 8
  let m := bits.toNat % 2 ^ 23
  let magnitude :=
    if e = 255 then
      2047 * 2 ^ 52 + m * 2 ^ 29
    else if e = 0 then
      if m = 0 then
        0
      else
        (Nat.log2 m + 874) * 2 ^ 52 + (m - 2 ^ Nat.log2 m) * 2 ^ (52 - Nat.log2 m)
    else
      (e + 896) * 2 ^ 52 + m * 2 ^ 29
  UInt64.ofNat (sign * 2 ^ 63 + magnitude)

def minTimestampMicros : Int :=
  -62135596800 * 1000000

def maxTimestampMicros : Int :=
  253402300799999999

def invalidf (format : String) (args : List FmtArg) : Status :=
  errorf .invalidArgument format args

/-- `fromProtoValue` for a scalar type. -/
def fromProtoScalar (pv : WireScalar) (t : ScalarType) : Except Status ScalarValue :=
  match t, pv with
  | _, .null => .ok .null
  | .bool, .boolValue b => .ok (.bool b)
  | .int64, .intValue n => .ok (.int64 n)
  | .float32, .floatValue bits => .ok (.float (ofFloat32 (toFloat32 bits)))
  | .float64, .floatValue bits => .ok (.float bits)
  | .string, .stringValue s => .ok (.string s)
  | .bytes, .bytesValue b => .ok (.bytes b)
  | .timestamp, .timestampValue seconds nanos =>
    if seconds < -62135596800 ∨ 253402300799 < seconds ∨ nanos < 0 ∨ 1000000000 ≤ nanos then
      .error (invalidf "invalid timestamp value: %v" [])
    else
      let us := seconds * 1000000 + nanos / 1000
      if us < minTimestampMicros ∨ maxTimestampMicros < us then
        .error (invalidf "timestamp value is out of range" [])
      else
        .ok (.timestamp us)
  | t, _ => .error (invalidf "value of kind %T does not match type %s" [.text t.text])

/-- `fromProtoValue` for a scalar type, on any value. -/
def fromProtoValue (pv : WireValue) (t : ScalarType) : Except Status ScalarValue :=
  match pv with
  | .scalar v => fromProtoScalar v t
  | .arrayValue _ => .error (invalidf "value of kind %T does not match type %s" [.text t.text])

end Wire

section CellValues

/-- `n` bytes, big-endian. -/
def bigEndian (n : Nat) (x : Nat) : Bytes :=
  (List.range n).reverse.map (fun i => UInt8.ofNat (x / 256 ^ i))

/-- A value is of the type, as the analyzer has checked; `NULL` has no bytes. -/
def encodeCell (t : ScalarType) (v : ScalarValue) : Bytes :=
  match t, v with
  | _, .bool b => if b then [1] else [0]
  | _, .int64 n => encodeInt64 n
  | .float32, .float bits => bigEndian 4 (toFloat32 bits).toNat
  | _, .float bits => bigEndian 8 bits.toNat
  | _, .string s => s
  | _, .bytes b => b
  | _, .timestamp us => encodeInt64 us
  | _, .null => []

/-- The value of a materialized-view cell. -/
def encodeCellValue (t : ScalarType) (v : WireValue) : Except Status Bytes :=
  (fromProtoValue v t).map (encodeCell t)

end CellValues

section RowKeys

/-- The number of bytes of an ordered-code integer: the first `n` for which
`7 * n - 1` bits hold `x`. -/
def orderedLength (x : Nat) : Nat :=
  ((List.range' 1 10).find? (fun n => decide (x < 2 ^ (7 * n - 1)))).getD 10

/-- The OrderedCode encoding of a signed integer.  The first `n` bits of the
`n`-byte encoding of a non-negative value are ones; a negative value is the
bitwise complement of the encoding of its complement. -/
def appendOrderedInt64 (v : Int) : Bytes :=
  let x := if v < 0 then (-v - 1).toNat else v.toNat
  let n := orderedLength x
  let enc := bigEndian n (x ||| (2 ^ n - 1) * 2 ^ (7 * n))
  if v < 0 then enc.map (fun c => ~~~c) else enc

/-- A field of the key schema of a view: a name and one of the types `STRING`,
`BYTES`, `INT64` and `TIMESTAMP`, with the encoding that `keySchemaForView` gives
it. -/
structure KeyField where
  fieldName : Bytes
  type : ScalarType
deriving DecidableEq

def encodeKeyField (name : Bytes) (v : ScalarValue) : Except Status Bytes :=
  match v with
  | .null => .error (invalidf "row key field %q must not be NULL" [.bytes name])
  | .bytes b => .ok b
  | .string s => .ok s
  | .int64 n => .ok (appendOrderedInt64 n)
  | .timestamp us => .ok (appendOrderedInt64 us)
  | _ => .error (invalidf "row key field %q has an unsupported type" [.bytes name])

/-- The escaped bytes of one field. -/
def orderedCodeField (enc : Bytes) : Bytes :=
  if enc = [] then
    [0, 0]
  else
    enc.flatMap (fun c => if c = 0 then [0, 0xFF] else [c])

/-- Fields joined by `00 01`; empty fields at the end are left out. -/
def orderedCodeJoin (encs : List Bytes) : Bytes :=
  match (encs.reverse.dropWhile (fun e => decide (e = []))).reverse with
  | [] => [0, 0]
  | e :: es => orderedCodeField e ++ es.flatMap (fun e => [0, 1] ++ orderedCodeField e)

/-- The values are converted first, then encoded. -/
def encodeKey (schema : List KeyField) (values : List WireValue) : Except Status Bytes :=
  if values.length = schema.length then
    match (schema.zip values).mapM (fun fv => fromProtoValue fv.2 fv.1.type) with
    | .error st => .error st
    | .ok vals =>
      ((schema.zip vals).mapM (fun fv => encodeKeyField fv.1.fieldName fv.2)).map orderedCodeJoin
  else
    .error (invalidf "row key schema has %d fields but %d values were provided"
      [.int schema.length, .int values.length])

end RowKeys

section Plan

/-- The columns of a view: the output columns with the positions of the key
columns, of `_timestamp` and of the value columns. -/
structure MvPlan where
  keyIdx : List Nat
  tsIdx : Option Nat
  valueIdx : List Nat
deriving DecidableEq

def valueAt (vals : List SqlValue) (i : Nat) : SqlValue :=
  vals.getD i (.scalar .null)

/-- A non-negative multiple of 1000 microseconds. -/
def acceptsTimestamp : SqlValue → Bool
  | .scalar (.timestamp us) => decide (0 ≤ us) && decide (us % 1000 = 0)
  | _ => false

/-- Key columns must not be `NULL`, `_timestamp` must be a non-negative multiple
of 1000 microseconds, and rows whose value columns are all `NULL` are omitted. -/
def MvPlan.accept (m : MvPlan) (vals : List SqlValue) : Bool :=
  m.keyIdx.all (fun i => !(valueAt vals i).isNull) && (match m.tsIdx with
      | none => true
      | some i => acceptsTimestamp (valueAt vals i)) &&
    (m.valueIdx.isEmpty || m.valueIdx.any (fun i => !(valueAt vals i).isNull))

/-- The scalar in a key or timestamp column. -/
def scalarAt (vals : List SqlValue) (i : Nat) : ScalarValue :=
  match valueAt vals i with
  | .scalar v => v
  | .map _ => .null

/-- The first key column that differs decides; then the later timestamp comes
first. -/
def MvPlan.less (m : MvPlan) (a b : List SqlValue) : Bool :=
  match (m.keyIdx.map (fun i =>
      compareValues (scalarAt a i) (scalarAt b i))).find? (fun c => c != .eq) with
  | some c => c == .lt
  | none =>
    match m.tsIdx with
    | none => false
    | some i => compareValues (scalarAt a i) (scalarAt b i) == .gt

/-- The rows the query emits: those accepted, in a stable sort. -/
def MvPlan.emitted (m : MvPlan) (evaluated : List (List SqlValue)) : List (List SqlValue) :=
  (evaluated.filter m.accept).insertionSort (fun a b => m.less b a = false)

theorem accept_of_mem_emitted {m : MvPlan} {evaluated : List (List SqlValue)} {vals : List SqlValue}
    (h : vals ∈ m.emitted evaluated) :
    m.accept vals = true := by
  unfold MvPlan.emitted at h
  rw [(List.perm_insertionSort _ _).mem_iff] at h
  exact List.of_mem_filter h

end Plan

end Gsql
end LittleBigtable
