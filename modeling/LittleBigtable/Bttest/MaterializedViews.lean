import LittleBigtable.Gsql.ViewQuery
import LittleBigtable.Bttest.Storage

/-!
# Materialized views

The definition of a continuous materialized view and the recomputation of its
stored rows from the rows its query emits.  Value columns go to the family
`default` under the column alias; a map-typed column is a family of its own, with
one cell for each map key.
-/

namespace LittleBigtable
namespace Bttest

open Gsql

/-- An accepted view definition with its output columns.  The fields after
`keyIsKey` are what the analyzer has checked: output columns have different
names, the key columns are different columns of key types, `_timestamp` is a
timestamp and no key column, and all other columns are value columns. -/
structure ViewDefinition where
  columns : List (Bytes × SqlType)
  plan : MvPlan
  keyIsKey : Bool
  names_nodup : (columns.map Prod.fst).Nodup
  key_ne_nil : plan.keyIdx ≠ []
  key_nodup : plan.keyIdx.Nodup
  key_type : ∀ i ∈ plan.keyIdx, ∃ name t, columns[i]? = some (name, .scalar t) ∧
    t ∈ [.string, .bytes, .int64, ScalarType.timestamp]
  key_single : keyIsKey = true → plan.keyIdx.length = 1
  ts_type : ∀ i ∈ plan.tsIdx, i ∉ plan.keyIdx ∧
    ∃ name, columns[i]? = some (name, .scalar .timestamp)
  valueIdx_eq : plan.valueIdx = (List.range columns.length).filter
    (fun i => decide (i ∉ plan.keyIdx) && decide (i ∉ plan.tsIdx))

namespace ViewDefinition

def columnAt (d : ViewDefinition) (i : Nat) : Bytes × SqlType :=
  d.columns.getD i ([], .scalar .bytes)

def keyColumns (d : ViewDefinition) : List Bytes :=
  d.plan.keyIdx.map (fun i => (d.columnAt i).1)

/-- The type of a key column. -/
def keyType (d : ViewDefinition) (i : Nat) : ScalarType :=
  match (d.columnAt i).2 with
  | .scalar t => t
  | .map _ _ => .bytes

/-- The key schema, or `none` when the key is the `_key` column itself. -/
def keySchema (d : ViewDefinition) : Option (List KeyField) :=
  if d.keyIsKey then
    none
  else
    some (d.plan.keyIdx.map (fun i => ⟨(d.columnAt i).1, d.keyType i⟩))

def valueColumns (d : ViewDefinition) : List Bytes :=
  d.plan.valueIdx.map (fun i => (d.columnAt i).1)

def timestampColumn (d : ViewDefinition) : Option Bytes :=
  d.plan.tsIdx.map (fun i => (d.columnAt i).1)

end ViewDefinition

section Layout

/-- The bytes of `default`. -/
def mvDefaultFamily : Bytes :=
  [100, 101, 102, 97, 117, 108, 116]

/-- The position of each output column by its name. -/
def columnIndex (columns : List (Bytes × SqlType)) : GoMap Nat :=
  columns.zipIdx.foldl (fun index c => index.insert c.1.1 c.2) ∅

/-- The order numbers of the storage families: `default`, and a family for each
map-typed value column. -/
def storageFamilies (d : ViewDefinition) : GoMap Nat :=
  ((d.plan.valueIdx.map d.columnAt).foldl (fun (acc : GoMap Nat × Nat) c =>
      match c.2 with
      | .map _ _ => (acc.1.insert c.1 acc.2, acc.2 + 1)
      | .scalar _ => acc)
    ((∅ : GoMap Nat).insert mvDefaultFamily 0, 1)).1

end Layout

section Recompute

def wireAt (values : List WireValue) (i : Nat) : WireValue :=
  values.getD i (.scalar .null)

def rowKey (d : ViewDefinition) (values : List WireValue)
    (index : GoMap Nat) : Except Status Bytes :=
  match d.keySchema with
  | none =>
    match d.keyColumns with
    | [col] =>
      match wireAt values (index[col]?.getD 0) with
      | .scalar v => .ok v.getBytesValue
      | .arrayValue _ => .ok []
    | _ => .error (errorf .internal "materialized view has no key" [])
  | some schema =>
    encodeKey schema (d.keyColumns.map (fun col => wireAt values (index[col]?.getD 0)))

/-- The cell timestamp of an emitted row: `_timestamp`, truncated to
milliseconds, or 0. -/
def viewTimestamp (d : ViewDefinition) (values : List WireValue) (index : GoMap Nat) : Int :=
  match d.timestampColumn with
  | none => 0
  | some col =>
    match wireAt values (index[col]?.getD 0) with
    | .scalar (.timestampValue seconds nanos) =>
      let ts := (seconds * 1000000000 + nanos) / 1000
      ts - ts.tmod 1000
    | _ => 0

/-- `getOrCreateFamily`, which enters a new family into the row. -/
def Row.createFamily (r : Row) (name : Bytes) (order : Nat) : Row :=
  { r with families := r.families.insert name (r.getOrCreateFamily name order) }

/-- The qualifier of a map key. -/
def mapQualifier (k : WireScalar) : Bytes :=
  if k.getStringValue ≠ [] then k.getStringValue else k.getBytesValue

/-- The loop over the entries of a map. -/
def storeEntries (fam : Bytes) (order : Nat) (ts : Int) (valueType : ScalarType) :
    Row → List (List WireScalar) → Except Status Row
  | r, [] => .ok r
  | r, [k, v] :: entries =>
    if v = .null then
      storeEntries fam order ts valueType r entries
    else
      match encodeCellValue valueType (.scalar v) with
      | .error st => .error st
      | .ok cellValue =>
        storeEntries fam order ts valueType
          (r.updateColumn fam order (mapQualifier k) (fun _ => [⟨ts, cellValue, []⟩])) entries
  | r, _ :: entries => storeEntries fam order ts valueType r entries

/-- Store one value column of an emitted row. -/
def storeColumn (d : ViewDefinition) (values : List WireValue) (index : GoMap Nat) (ts : Int)
    (r : Row) (col : Bytes) : Except Status Row :=
  let v := wireAt values (index[col]?.getD 0)
  if v = .scalar .null then
    .ok r
  else
    match (d.columnAt (index[col]?.getD 0)).2 with
    | .map _ valueType =>
      let order := (storageFamilies d)[col]?.getD 0
      match v with
      | .arrayValue entries =>
        storeEntries col order ts valueType (r.createFamily col order) entries
      | .scalar _ => .ok (r.createFamily col order)
    | .scalar t =>
      match encodeCellValue t v with
      | .error st => .error st
      | .ok cellValue => .ok (r.updateColumn mvDefaultFamily 0 col (fun _ => [⟨ts, cellValue, []⟩]))

/-- The loop over the value columns. -/
def storeColumns (d : ViewDefinition) (values : List WireValue) (index : GoMap Nat) (ts : Int) :
    Row → List Bytes → Except Status Row
  | r, [] => .ok r
  | r, col :: cols =>
    match storeColumn d values index ts r col with
    | .error st => .error st
    | .ok r' => storeColumns d values index ts r' cols

/-- The stored row of an emitted row. -/
def viewRow (d : ViewDefinition) (values : List WireValue) : Except Status Row :=
  let index := columnIndex d.columns
  match rowKey d values index with
  | .error st => .error st
  | .ok key =>
    storeColumns d values index (viewTimestamp d values index) (newRow key) d.valueColumns

/-- The loop over the emitted rows; rows without cells are dropped. -/
def viewRows (d : ViewDefinition) :
    SqlRows → List (List WireValue) → Except Status SqlRows
  | rows, [] => .ok rows
  | rows, values :: emitted =>
    match viewRow d values with
    | .error st => .error st
    | .ok r => viewRows d (if r.isEmpty then rows else rows.insert r.key r) emitted

/-- Rebuild the rows of a view from the rows to which its query evaluates.  The
stored rows are replaced in one transaction, which may fail. -/
def recompute (d : ViewDefinition) (evaluated : List (List SqlValue))
    (txError : Option Status) : Except Status SqlRows :=
  match viewRows d ∅ ((d.plan.emitted evaluated).map (List.map toProtoValue)) with
  | .error st => .error st
  | .ok rows =>
    match txError with
    | some st => .error st
    | none => .ok (rows.toList.foldl (fun stored kr => stored.save kr.2) (∅ : SqlRows))

end Recompute

end Bttest
end LittleBigtable
