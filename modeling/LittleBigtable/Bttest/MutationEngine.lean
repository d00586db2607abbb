import LittleBigtable.Bttest.Gc
import LittleBigtable.Bttest.Targets
import LittleBigtable.Gsql.Hll

/-!
# Validation and application of mutations

`validateMutations` checks a complete mutation list against the column families
of a table before anything is applied, and `applyMutations` applies a validated
list to a row and returns the normalized changes that a change stream records.
-/

namespace LittleBigtable
namespace Bttest

open Gsql

/-- Bigtable's documented per-request mutation cap. -/
def maxMutationsPerRequest : Nat := 100000

/-- Bigtable's documented row-key size limit (4 KiB). -/
def maxRowKeyBytes : Nat := 4 * 1024

def minValidMilliSeconds : Int := 0

/-- The largest `int64` truncated to millisecond granularity. -/
def maxValidMilliSeconds : Int := (2 ^ 63 - 1) - (2 ^ 63 - 1) % 1000

/-- The server time in microseconds truncated to milliseconds, from a clock
reading in nanoseconds since the epoch. -/
def newTimestamp (unixNano : Nat) : Int :=
  let ts : Int := unixNano / 1000
  ts - ts % 1000

def validTimestamp (ts : Int) : Bool :=
  decide (ts ≥ minValidMilliSeconds ∧ ts ≤ maxValidMilliSeconds ∧ ts % 1000 = 0)

/-- Which timestamps a table accepts. -/
structure Granularity where
  micros : Bool
deriving DecidableEq

def Granularity.valid (g : Granularity) (ts : Int) : Bool :=
  if g.micros then decide (ts ≥ 0) else validTimestamp ts

/-- The timestamp a mutation stores, and whether it is valid.  Client
auto-generated timestamps are truncated to the table granularity. -/
def Granularity.resolve (g : Granularity) (ts : Int) (origin : TimestampOrigin)
    (now : Int) : Int × Bool :=
  if ts = -1 then
    (now, true)
  else
    let ts :=
      if origin = .clientAutoGenerated ∧ g.micros = false ∧ ts ≥ 0 then
        ts - ts % 1000
      else
        ts
    (ts, g.valid ts)

/-- A column family of a table's schema. -/
structure ColumnFamily where
  order : Nat
  gcRule : Option GcRule
  valueType : Option ValueType

/-- The column families of a table by family ID. -/
abbrev Families := GoMap ColumnFamily

def validateRowKey (key : Bytes) : Option Status :=
  if key.length = 0 then
    some (errorf .invalidArgument "row keys must be non-empty" [])
  else if key.length > maxRowKeyBytes then
    some (errorf .invalidArgument "row key is %d bytes; the maximum is %d"
      [.int key.length, .int maxRowKeyBytes])
  else
    none

def unknownFamilyError (family : Bytes) : Status :=
  errorf .notFound "Requested column family not found: %q" [.bytes family]

/-- The aggregate behavior of a column family's value type. -/
inductive AggregateKind
  | none
  | sum
  | min
  | max
  | hll
deriving DecidableEq

def familyAggregate (cf : ColumnFamily) : AggregateKind :=
  match cf.valueType with
  | some (.aggregate .sum _ _) => .sum
  | some (.aggregate .min _ _) => .min
  | some (.aggregate .max _ _) => .max
  | some (.aggregate .hllppUniqueCount _ _) => .hll
  | _ => .none

/-- `t.UnixMicro()` for a timestamp value rounds down. -/
def valueTimestamp : Value → Option Int
  | .rawTimestampMicros t => some t
  | .intValue i => some i
  | .timestampValue seconds nanos => some (wrap64 ((seconds * 1000000000 + nanos) / 1000))
  | _ => none

/-- `int64(binary.BigEndian.Uint64(b))` of eight bytes. -/
def decodeInt64 (b : Bytes) : Int :=
  wrap64 (b.foldl (fun acc c => acc * 256 + (c.toNat : Int)) 0)

/-- Eight bytes, big-endian. -/
def encodeInt64 (v : Int) : Bytes :=
  (List.range 8).reverse.map (fun k => UInt8.ofNat ((v % 2 ^ 64).toNat / 2 ^ (8 * k)))

def int64Input : Value → Option Int
  | .intValue i => some i
  | .rawValue b => if b.length = 8 then some (decodeInt64 b) else none
  | .bytesValue b => if b.length = 8 then some (decodeInt64 b) else none
  | _ => none

def rawBytesValue : Value → Bytes
  | .rawValue b => b
  | .bytesValue b => b
  | .stringValue s => s
  | _ => []

def validateAggregateMutation (family : Bytes) (qualifier timestamp input : Value) (fams : Families)
    (g : Granularity) (origin : TimestampOrigin) (merge : Bool) : Option Status :=
  match fams[family]? with
  | none => some (unknownFamilyError family)
  | some cf =>
    let op := if merge then "MergeToCell" else "AddToCell"
    let kind := familyAggregate cf
    if kind = .none then
      some (errorf .invalidArgument
        "%s requires an aggregate column family; %q has no aggregate value_type"
        [.text op, .bytes family])
    else if valueQualifier qualifier = none then
      some (errorf .invalidArgument
        "%s column_qualifier must be a raw, bytes or string value" [.text op])
    else
      let timestampOk :=
        match valueTimestamp timestamp with
        | none => false
        | some ts => (g.resolve ts origin 0).2 && decide (ts ≠ -1)
      if timestampOk = false then
        some (errorf .invalidArgument
          "%s timestamp must be non-negative and match the table granularity"
          [.text op])
      else if kind = .hll then
        if merge then
          match decodeHLL (rawBytesValue input) with
          | .error e =>
            some (errorf .invalidArgument
              "MergeToCell input is not a valid HLL++ sketch: %v" [.text e])
          | .ok _ => none
        else if hllInputBytes input = none then
          some (errorf .invalidArgument
            "AddToCell input for an HLL++ family must be an int, bytes, string or raw value"
            [])
        else
          none
      else if int64Input input = none then
        some (errorf .invalidArgument
          "%s input for family %q must be an INT64 value"
          [.text op, .bytes family])
      else
        none

/-- The time range check of `DeleteFromColumn`. -/
def validateTimeRange (g : Granularity) (tr : TimestampRange) : Option Status :=
  if g.valid tr.startTimestampMicros = false then
    some (errorf .invalidArgument "invalid timestamp %d" [.int tr.startTimestampMicros])
  else if tr.endTimestampMicros ≠ 0 ∧ g.valid tr.endTimestampMicros = false then
    some (errorf .invalidArgument "invalid timestamp %d" [.int tr.endTimestampMicros])
  else if tr.endTimestampMicros ≠ 0 ∧ tr.startTimestampMicros ≥ tr.endTimestampMicros then
    some (errorf .invalidArgument "inverted or invalid timestamp range [%d, %d]"
      [.int tr.startTimestampMicros, .int tr.endTimestampMicros])
  else
    none

def validateMutation (m : Mutation) (fams : Families) (g : Granularity) : Option Status :=
  match m.mutation with
  | none => some (errorf .invalidArgument "mutation is empty" [])
  | some (.setCell fam _ ts _) =>
    match fams[fam]? with
    | none => some (unknownFamilyError fam)
    | some cf =>
      if familyAggregate cf ≠ .none then
        some (errorf .invalidArgument
          "SetCell is not supported on aggregate column family %q; use AddToCell or MergeToCell"
          [.bytes fam])
      else if (g.resolve ts m.timestampOrigin 0).2 = false then
        some (errorf .invalidArgument
          "invalid timestamp %d: timestamps must be non-negative and match the table granularity"
          [.int ts])
      else
        none
  | some (.deleteFromColumn fam _ timeRange) =>
    match fams[fam]? with
    | none => some (unknownFamilyError fam)
    | some _ => timeRange.bind (validateTimeRange g)
  | some (.deleteFromFamily fam) =>
    match fams[fam]? with
    | none => some (unknownFamilyError fam)
    | some _ => none
  | some .deleteFromRow => none
  | some (.addToCell fam qualifier timestamp input) =>
    validateAggregateMutation fam qualifier timestamp input fams g m.timestampOrigin false
  | some (.mergeToCell fam qualifier timestamp input) =>
    validateAggregateMutation fam qualifier timestamp input fams g m.timestampOrigin true

/-- The validation loop from mutation number `i` on. -/
def validateMutationsFrom (fams : Families) (g : Granularity) :
    Nat → List Mutation → Option Status
  | _, [] => none
  | i, m :: muts =>
    match validateMutation m fams g with
    | some st => some (st.behind "mutation %d: " [.int i])
    | none => validateMutationsFrom fams g (i + 1) muts

/-- Check a complete mutation list before anything is applied. -/
def validateMutations (muts : List Mutation) (fams : Families) (g : Granularity) : Option Status :=
  if muts.length = 0 then
    some (errorf .invalidArgument "No mutations provided" [])
  else if muts.length > maxMutationsPerRequest then
    some (errorf .invalidArgument "too many mutations: %d (maximum %d)"
      [.int muts.length, .int maxMutationsPerRequest])
  else
    validateMutationsFrom fams g 0 muts

/-- Put `newCell` in place of the cell with its timestamp. -/
def replaceCell (newCell : Cell) : List Cell → Option (List Cell)
  | [] => none
  | c :: cs =>
    if c.ts = newCell.ts then
      some (newCell :: cs)
    else
      (replaceCell newCell cs).map (fun cs' => c :: cs')

def appendOrReplaceCell (newCell : Cell) (cs : List Cell) : List Cell :=
  match replaceCell newCell cs with
  | some cs' => cs'
  | none => sortCells (cs ++ [newCell])

/-- The schema entry of a family.  Mutations are applied only after validation
has found their families in the schema. -/
def familyOf (fams : Families) (name : Bytes) : ColumnFamily :=
  fams[name]?.getD ⟨0, none, none⟩

/-- A timestamp that a `DeleteFromColumn` deletes. -/
def withinRange (timeRange : Option TimestampRange) (ts : Int) : Bool :=
  match timeRange with
  | none => true
  | some tr =>
    decide (ts ≥ tr.startTimestampMicros) &&
      (decide (tr.endTimestampMicros = 0) || decide (ts < tr.endTimestampMicros))

/-- The cells a `DeleteFromColumn` keeps. -/
def outsideRange (timeRange : Option TimestampRange) (c : Cell) : Bool :=
  !withinRange timeRange c.ts

def deleteFromColumn (r : Row) (famName col : Bytes) (timeRange : Option TimestampRange) : Row :=
  match r.families[famName]? with
  | none => r
  | some fam =>
    let cs := (fam.cells[col]?.getD []).filter (outsideRange timeRange)
    if cs ≠ [] then
      { r with
        families := r.families.insert famName
          { fam with cells := fam.cells.insert col cs } }
    else
      let fam' : Family :=
        { fam with
          cells := fam.cells.erase col
          colNames := fam.colNames.erase col }
      if fam'.cells.isEmpty then
        { r with families := r.families.erase famName }
      else
        { r with families := r.families.insert famName fam' }

/-- The sketch in an HLL cell, or a new one when there is no cell. -/
def storedSketch (existing : Option Bytes) : Except Status HLL :=
  match existing with
  | none => .ok newHLL
  | some b =>
    match decodeHLL b with
    | .ok h => .ok h
    | .error e => .error (errorf .failedPrecondition "stored HLL++ cell is corrupt: %v" [.text e])

/-- The value of an aggregate cell after one more input; `existing` is the value
of the cell with the mutation's timestamp. -/
def aggregateValue (kind : AggregateKind) (existing : Option Bytes) (input : Value)
    (merge : Bool) : Except Status Bytes :=
  if kind = .hll then
    match storedSketch existing with
    | .error st => .error st
    | .ok sketch =>
      if merge then
        match decodeHLL (rawBytesValue input) with
        | .ok other => .ok (sketch.merge other).encode
        | .error e =>
          .error (errorf .invalidArgument
            "MergeToCell input is not a valid HLL++ sketch: %v" [.text e])
      else
        .ok (sketch.add ((hllInputBytes input).getD [])).encode
  else
    let input := (int64Input input).getD 0
    match existing with
    | none => .ok (encodeInt64 input)
    | some b =>
      let existing := if b.length = 8 then decodeInt64 b else 0
      .ok (encodeInt64 (match kind with
        | .sum => wrap64 (existing + input)
        | .min => if input < existing then input else existing
        | .max => if input > existing then input else existing
        | _ => existing))

/-- Store an aggregate value at `ts`: an existing cell gets the value in place,
otherwise a new cell is added. -/
def storeAggregate (ts : Int) (value : Bytes) (cs : List Cell) : List Cell :=
  match cs.find? (fun c => c.ts = ts) with
  | some c => appendOrReplaceCell { c with value := value } cs
  | none => appendOrReplaceCell ⟨ts, value, []⟩ cs

def applyAggregate (r : Row) (cf : ColumnFamily) (famName : Bytes)
    (qualifier timestamp input : Value) (g : Granularity) (origin : TimestampOrigin)
    (merge : Bool) : Except Status Row :=
  let col := (valueQualifier qualifier).getD []
  let ts := (g.resolve ((valueTimestamp timestamp).getD 0) origin 0).1
  let existing := ((r.column famName col).find? (fun c => c.ts = ts)).map Cell.value
  match aggregateValue (familyAggregate cf) existing input merge with
  | .error st => .error st
  | .ok value => .ok (r.updateColumn famName cf.order col (storeAggregate ts value))

/-- Apply one mutation and return the changes it records. -/
def applyMutation (fams : Families) (g : Granularity) (now : Int) (r : Row)
    (m : Mutation) : Except Status (Row × List Mutation) :=
  match m.mutation with
  | some (.setCell fam col ts value) =>
    let ts := (g.resolve ts m.timestampOrigin now).1
    .ok
      (r.updateColumn fam (familyOf fams fam).order col
          (appendOrReplaceCell ⟨ts, value, []⟩),
        [Mutation.plain (.setCell fam col ts value)])
  | some (.deleteFromColumn fam col timeRange) => .ok (deleteFromColumn r fam col timeRange, [m])
  | some (.deleteFromFamily fam) => .ok ({ r with families := r.families.erase fam }, [m])
  | some .deleteFromRow =>
    -- a row deletion is recorded as one deletion per family that holds data
    .ok
      ({ r with families := ∅ },
        r.sortedFamilies.map (fun fam => Mutation.plain (.deleteFromFamily fam.1)))
  | some (.addToCell fam qualifier timestamp input) =>
    (applyAggregate r (familyOf fams fam) fam qualifier timestamp input g
      m.timestampOrigin false).map (fun r' => (r', [m]))
  | some (.mergeToCell fam qualifier timestamp input) =>
    (applyAggregate r (familyOf fams fam) fam qualifier timestamp input g
      m.timestampOrigin true).map (fun r' => (r', [m]))
  | none => .error (errorf .unimplemented "unsupported mutation type %T" [])

/-- Apply already validated mutations in request order. -/
def applyMutations (fams : Families) (g : Granularity) (now : Int) :
    Row → List Mutation → Except Status (Row × List Mutation)
  | r, [] => .ok (r, [])
  | r, m :: muts =>
    match applyMutation fams g now r m with
    | .error st => .error st
    | .ok (r', changes) =>
      match applyMutations fams g now r' muts with
      | .error st => .error st
      | .ok (r'', changes') => .ok (r'', changes ++ changes')

end Bttest
end LittleBigtable
