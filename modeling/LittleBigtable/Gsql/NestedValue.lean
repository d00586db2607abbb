import LittleBigtable.Gsql.Pushdown
import LittleBigtable.Lib.BigEndian

/-!
# Nested runtime values

The values of every SQL type: scalars, dates, arrays, structs and maps, with `NULL` at any
depth, and the three functions that tell them apart: the order that sorting, grouping and
`MIN`/`MAX` use, the operator `=` with three truth values, and the keys by which `GROUP BY`,
`DISTINCT` and the set operations hash values.

The entries of a map are sorted by their keys in the source; nothing here depends on it.
-/

namespace LittleBigtable
namespace Gsql

open Bttest

section Types

/-- `sqlType`; the fields of a struct have names. -/
inductive NestedType
  | scalar (t : ScalarType)
  | date
  | array (elem : NestedType)
  | struct (fields : List (String × NestedType))
  | map (key val : NestedType)

/-- A runtime value of any type; a date holds days. -/
inductive NestedValue
  | scalar (v : ScalarValue)
  | date (days : Int)
  | array (elems : List NestedValue)
  | struct (fields : List NestedValue)
  | map (entries : List (NestedValue × NestedValue))

@[match_pattern] def NestedValue.null : NestedValue :=
  .scalar .null

def ScalarType.isFloat : ScalarType → Bool
  | .float32 => true
  | .float64 => true
  | _ => false

mutual

/-- No float at any depth. -/
def NestedType.floatFree : NestedType → Bool
  | .scalar t => !t.isFloat
  | .date => true
  | .array elem => elem.floatFree
  | .struct fields => NestedType.fieldsFloatFree fields
  | .map key val => key.floatFree && val.floatFree

def NestedType.fieldsFloatFree : List (String × NestedType) → Bool
  | [] => true
  | (_, t) :: fields => t.floatFree && NestedType.fieldsFloatFree fields

end

/-- The scalar is of the type; integers are those of Go, and so are lengths. -/
inductive ScalarValue.HasType : ScalarValue → ScalarType → Prop
  | null (t : ScalarType) : HasType .null t
  | bool (b : Bool) : HasType (.bool b) .bool
  | int64 {n : Int} (hn : -2 ^ 63 ≤ n ∧ n < 2 ^ 63) : HasType (.int64 n) .int64
  | float32 (bits : UInt64) : HasType (.float bits) .float32
  | float64 (bits : UInt64) : HasType (.float bits) .float64
  | string {s : Bytes} (hs : s.length < 2 ^ 63) : HasType (.string s) .string
  | bytes {b : Bytes} (hb : b.length < 2 ^ 63) : HasType (.bytes b) .bytes
  | timestamp {us : Int} (hus : -2 ^ 63 ≤ us ∧ us < 2 ^ 63) : HasType (.timestamp us) .timestamp

mutual

/-- The value is of the type. -/
def NestedValue.HasType : NestedValue → NestedType → Prop
  | .scalar .null, _ => True
  | .scalar v, .scalar t => v.HasType t
  | .date days, .date => -2 ^ 31 ≤ days ∧ days < 2 ^ 31
  | .array elems, .array t => elems.length < 2 ^ 63 ∧ NestedValue.AllHaveType elems t
  | .struct fields, .struct ts => fields.length < 2 ^ 63 ∧ NestedValue.FieldsHaveType fields ts
  | .map entries, .map k v => entries.length < 2 ^ 63 ∧ NestedValue.EntriesHaveType entries k v
  | _, _ => False

def NestedValue.AllHaveType : List NestedValue → NestedType → Prop
  | [], _ => True
  | v :: vs, t => v.HasType t ∧ NestedValue.AllHaveType vs t

def NestedValue.FieldsHaveType : List NestedValue → List (String × NestedType) → Prop
  | [], [] => True
  | v :: vs, (_, t) :: ts => v.HasType t ∧ NestedValue.FieldsHaveType vs ts
  | _, _ => False

def NestedValue.EntriesHaveType :
    List (NestedValue × NestedValue) → NestedType → NestedType → Prop
  | [], _, _ => True
  | (k, v) :: es, kt, vt => (k.HasType kt ∧ v.HasType vt) ∧ NestedValue.EntriesHaveType es kt vt

end

/-- The scalar is one of Go: integers have 64 bits, and so have lengths. -/
def ScalarValue.InRange : ScalarValue → Prop
  | .int64 n => -2 ^ 63 ≤ n ∧ n < 2 ^ 63
  | .string s => s.length < 2 ^ 63
  | .bytes b => b.length < 2 ^ 63
  | .timestamp us => -2 ^ 63 ≤ us ∧ us < 2 ^ 63
  | _ => True

mutual

/-- The value is one of Go, whatever its type. -/
def NestedValue.InRange : NestedValue → Prop
  | .scalar v => v.InRange
  | .date days => -2 ^ 31 ≤ days ∧ days < 2 ^ 31
  | .array elems => elems.length < 2 ^ 63 ∧ NestedValue.AllInRange elems
  | .struct fields => fields.length < 2 ^ 63 ∧ NestedValue.AllInRange fields
  | .map entries => entries.length < 2 ^ 63 ∧ NestedValue.EntriesInRange entries

def NestedValue.AllInRange : List NestedValue → Prop
  | [] => True
  | v :: vs => v.InRange ∧ NestedValue.AllInRange vs

def NestedValue.EntriesInRange : List (NestedValue × NestedValue) → Prop
  | [] => True
  | (k, v) :: es => (k.InRange ∧ v.InRange) ∧ NestedValue.EntriesInRange es

end

end Types

section Order

mutual

/-- `compareValues`: `NULL` first, arrays and structs by their elements, maps by their
entries.  Values of two types are not compared. -/
def NestedValue.compareValues : NestedValue → NestedValue → Ordering
  | .scalar .null, .scalar .null => .eq
  | .scalar .null, _ => .lt
  | _, .scalar .null => .gt
  | .scalar x, .scalar y => Gsql.compareValues x y
  | .date x, .date y => compare x y
  | .array x, .array y => NestedValue.compareElems x y
  | .struct x, .struct y => NestedValue.compareElems x y
  | .map x, .map y => NestedValue.compareEntries x y
  | _, _ => .eq

/-- The first difference decides, and then the lengths. -/
def NestedValue.compareElems : List NestedValue → List NestedValue → Ordering
  | [], [] => .eq
  | [], _ :: _ => .lt
  | _ :: _, [] => .gt
  | x :: xs, y :: ys => (x.compareValues y).then (NestedValue.compareElems xs ys)

def NestedValue.compareEntries :
    List (NestedValue × NestedValue) → List (NestedValue × NestedValue) → Ordering
  | [], [] => .eq
  | [], _ :: _ => .lt
  | _ :: _, [] => .gt
  | (k, x) :: xs, (l, y) :: ys =>
    ((k.compareValues l).then (x.compareValues y)).then (NestedValue.compareEntries xs ys)

end

/-- The result of comparing components: a `FALSE` decides, and then a `NULL`. -/
def andThen : Option Bool → Option Bool → Option Bool
  | some false, _ => some false
  | _, some false => some false
  | none, _ => none
  | _, none => none
  | some true, some true => some true

mutual

/-- `sqlEquals`; `none` is `NULL`. -/
def NestedValue.sqlEquals : NestedValue → NestedValue → Option Bool
  | .scalar x, .scalar y => Gsql.sqlEquals x y
  | .scalar .null, _ => none
  | _, .scalar .null => none
  | .array x, .array y => if x.length = y.length then NestedValue.equalElems x y else some false
  | .struct x, .struct y => if x.length = y.length then NestedValue.equalElems x y else some false
  | .map x, .map y => if x.length = y.length then NestedValue.equalEntries x y else some false
  | x, y => some (decide (x.compareValues y = .eq))

def NestedValue.equalElems : List NestedValue → List NestedValue → Option Bool
  | x :: xs, y :: ys => andThen (x.sqlEquals y) (NestedValue.equalElems xs ys)
  | _, _ => some true

/-- The keys of a map are compared by their order. -/
def NestedValue.equalEntries :
    List (NestedValue × NestedValue) → List (NestedValue × NestedValue) → Option Bool
  | (k, x) :: xs, (l, y) :: ys =>
    if k.compareValues l = .eq then
      andThen (x.sqlEquals y) (NestedValue.equalEntries xs ys)
    else
      some false
  | _, _ => some true

end

end Order

section Key

/-- `math.NaN`. -/
def canonicalNaN : UInt64 :=
  0x7FF8000000000001

/-- All NaNs are one value, and both zeros. -/
def canonicalFloat (bits : UInt64) : UInt64 :=
  if isNaN bits then
    canonicalNaN
  else if floatPlace bits = 0 then
    0
  else
    bits

/-- `binary.BigEndian.AppendUint64` of a signed integer. -/
def int64Bytes (n : Int) : Bytes :=
  BigEndian.digits 8 (n % 2 ^ 64).toNat

/-- `binary.BigEndian.AppendUint32` of a signed integer. -/
def int32Bytes (n : Int) : Bytes :=
  BigEndian.digits 4 (n % 2 ^ 32).toNat

/-- A length, as an unsigned number. -/
def lengthBytes (n : Nat) : Bytes :=
  appendUvarint 9 (UInt64.ofNat n)

/-- `appendValueKey` of a scalar. -/
def scalarKey : ScalarValue → Bytes
  | .null => [0x4E]
  | .bool b => [0x62, if b then 1 else 0]
  | .int64 n => 0x69 :: int64Bytes n
  | .float bits => 0x66 :: BigEndian.digits 8 (canonicalFloat bits).toNat
  | .string s => 0x73 :: (lengthBytes s.length ++ s)
  | .bytes b => 0x79 :: (lengthBytes b.length ++ b)
  | .timestamp us => 0x74 :: int64Bytes us

mutual

/-- `valueKey`. -/
def NestedValue.valueKey : NestedValue → Bytes
  | .scalar v => scalarKey v
  | .date days => 0x64 :: int32Bytes days
  | .array elems => 0x61 :: (lengthBytes elems.length ++ NestedValue.elemKeys elems)
  | .struct fields => 0x72 :: (lengthBytes fields.length ++ NestedValue.elemKeys fields)
  | .map entries => 0x6D :: (lengthBytes entries.length ++ NestedValue.entryKeys entries)

def NestedValue.elemKeys : List NestedValue → Bytes
  | [] => []
  | v :: vs => v.valueKey ++ NestedValue.elemKeys vs

def NestedValue.entryKeys : List (NestedValue × NestedValue) → Bytes
  | [] => []
  | (k, v) :: es => (k.valueKey ++ v.valueKey) ++ NestedValue.entryKeys es

end

/-- `appendValueKey`. -/
def appendValueKey (buf : Bytes) (v : NestedValue) : Bytes :=
  buf ++ v.valueKey

/-- The keys of a tuple, one behind the other. -/
def tupleKey (vs : List NestedValue) : Bytes :=
  vs.foldl appendValueKey []

end Key

end Gsql
end LittleBigtable
