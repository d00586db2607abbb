import LittleBigtable.Bttest.DataWrite

/-!
# Data reads

`ReadRows` on a resolved table: the plan of keys and ranges, the rows it loads,
and the loop that reduces each row to its visible cells, filters it and stops at
the row limit.  The answer is the list of emitted rows with the read statistics;
the encoding of rows into chunks is not part of this module.
-/

namespace LittleBigtable
namespace Bttest

section Validation

def keysOutOfRange (start stop : Bytes) : Bool :=
  if start.length = 0 ∧ stop.length = 0 then
    -- neither key is set: an indefinite range
    false
  else if start.length = 0 ∨ stop.length = 0 then
    false
  else
    decide (stop < start)

def messageOnInvalidKeyRanges
    (startKeyClosed startKeyOpen endKeyClosed endKeyOpen : Bytes) : String :=
  if startKeyClosed.length ≠ 0 ∧ startKeyOpen.length ≠ 0 then
    "both start_key_closed and start_key_open cannot be set"
  else if endKeyClosed.length ≠ 0 ∧ endKeyOpen.length ≠ 0 then
    "both end_key_closed and end_key_open cannot be set"
  else if keysOutOfRange startKeyClosed endKeyClosed then
    "start_key_closed must be less than end_key_closed"
  else if keysOutOfRange startKeyOpen endKeyOpen then
    "start_key_open must be less than end_key_open"
  else if keysOutOfRange startKeyClosed endKeyOpen then
    "start_key_closed must be less than end_key_open"
  else if keysOutOfRange startKeyOpen endKeyClosed then
    "start_key_open must be less than end_key_closed"
  else
    ""

/-- `GetStartKeyClosed` and `GetEndKeyClosed`. -/
def Bound.getClosed : Bound → Bytes
  | .closed key => key
  | _ => []

/-- `GetStartKeyOpen` and `GetEndKeyOpen`. -/
def Bound.getOpen : Bound → Bytes
  | .opened key => key
  | _ => []

/-- The error of range number `i`, if it has one. -/
def rowRangeError (i : Nat) (rowRange : RowRange) : Option Status :=
  let msg := messageOnInvalidKeyRanges rowRange.startKey.getClosed
    rowRange.startKey.getOpen rowRange.endKey.getClosed rowRange.endKey.getOpen
  if msg ≠ "" then
    some (errorf .invalidArgument "Error in element #%d: %s" [.int i, .text msg])
  else
    none

/-- The first error of the ranges from number `i` on. -/
def rowRangesError : Nat → List RowRange → Option Status
  | _, [] => none
  | i, rowRange :: rowRanges => (rowRangeError i rowRange).or (rowRangesError (i + 1) rowRanges)

def validateRowRanges (rows : Option RowSet) : Option Status :=
  rowRangesError 0 ((rows.map RowSet.rowRanges).getD [])

end Validation

section Plan

/-- The normalized set of rows a read touches. -/
structure ReadPlan where
  keys : List Bytes
  ranges : List KeyRange
  all : Bool
  reversed : Bool

/-- Open starts and closed ends are normalized by appending a zero byte. -/
def rowRangeToKeyRange (rr : RowRange) : KeyRange where
  start :=
    match rr.startKey with
    | .closed key => key
    | .opened key => key ++ [0]
    | .unset => []
  stop :=
    match rr.endKey with
    | .closed key => key ++ [0]
    | .opened key => key
    | .unset => []

def newReadPlan (rs : Option RowSet) (reversed : Bool) : ReadPlan :=
  match rs with
  | none => ⟨[], [], true, reversed⟩
  | some rs =>
    if rs.rowKeys.length + rs.rowRanges.length = 0 then
      ⟨[], [], true, reversed⟩
    else
      ⟨rs.rowKeys, rs.rowRanges.map rowRangeToKeyRange, false, reversed⟩

/-- Remember a loaded row, unless its key is there already. -/
def rememberRow (seen : SqlRows) (r : Row) : SqlRows :=
  if seen[r.key]?.isSome then seen else seen.insert r.key r

/-- Load one key of the plan. -/
def loadKey (rows : SqlRows) (seen : SqlRows) (key : Bytes) : SqlRows :=
  if seen[key]?.isSome then
    seen
  else
    match rows[key]? with
    | none => seen
    | some r => seen.insert key r

/-- Load one range of the plan. -/
def loadRange (rows : SqlRows) (seen : SqlRows) (rng : KeyRange) : SqlRows :=
  (rows.scan rng false).foldl rememberRow seen

/-- The planned rows, deduplicated and ordered by key in the requested
direction. -/
def ReadPlan.load (p : ReadPlan) (rows : SqlRows) : List Row :=
  if p.all then
    rows.scan ⟨[], []⟩ p.reversed
  else
    let seen := p.ranges.foldl (loadRange rows) (p.keys.foldl (loadKey rows) ∅)
    let out := seen.toList.map Prod.snd
    if p.reversed then
      out.insertionSort (fun a b => b.key ≤ a.key)
    else
      out.insertionSort (fun a b => a.key ≤ b.key)

end Plan

section Reading

/-- The work done by one read. -/
structure ReadStats where
  rowsSeen : Nat
  rowsReturned : Nat
  cellsSeen : Nat
  cellsReturned : Nat
deriving DecidableEq

def Row.cellCount (r : Row) : Nat :=
  (r.families.toList.map (fun fam =>
    (fam.2.cells.toList.map (fun col => col.2.length)).sum)).sum

/-- The `request_stats_view` of a read; `unknown` is a number that the
enumeration does not have. -/
inductive RequestStatsView
  | unspecified
  | none
  | full
  | unknown (n : Int)

/-- `ReadRowsRequest`, without the names that resolve its target. -/
structure ReadRowsRequest where
  rows : Option RowSet
  filter : RowFilter
  rowsLimit : Int
  reversed : Bool
  requestStatsView : RequestStatsView

/-- What a read takes from its surroundings: the random numbers and the clock at
each row, the app profile and the failure of the storage. -/
structure ReadEnv where
  draw : Bytes → List Nat → ℚ
  gcMicros : Bytes → Int
  dataBoost : Bool
  loadError : Option Status

/-- The cells of a stored row that the target of a read shows; `none` when the
view does not have the row. -/
def visibleRow (tbl : Table) (view : Option ViewPolicy) (gcMicros : Int)
    (stored : Row) : Option Row :=
  let r := (dropUnknownFamilies tbl.families stored).gc tbl.gcRules gcMicros
  match view with
  | none => some r
  | some p => if p.rowAllowed r.key then some (p.restrict r) else none

/-- The loop of `ReadRows` over the loaded rows. -/
def readLoop (compile : RegexpCompiler) (tbl : Table) (view : Option ViewPolicy) (env : ReadEnv)
    (req : ReadRowsRequest) :
    List Row → ReadStats → Except Status (List Row × ReadStats)
  | [], stats => .ok ([], stats)
  | stored :: rows, stats =>
    if req.rowsLimit > 0 ∧ stats.rowsReturned ≥ req.rowsLimit then
      .ok ([], stats)
    else
      match visibleRow tbl view (env.gcMicros stored.key) stored with
      | none => readLoop compile tbl view env req rows stats
      | some r =>
        if r.isEmpty then
          readLoop compile tbl view env req rows stats
        else
          let stats := { stats with
            rowsSeen := stats.rowsSeen + 1
            cellsSeen := stats.cellsSeen + r.cellCount }
          match filterRow compile (env.draw r.key) req.filter r with
          | .error st => .error st
          | .ok (_, r) =>
            if r.isEmpty then
              readLoop compile tbl view env req rows stats
            else
              let stats := { stats with
                rowsReturned := stats.rowsReturned + 1
                cellsReturned := stats.cellsReturned + r.cellCount }
              (readLoop compile tbl view env req rows stats).map (fun x => (r :: x.1, x.2))

def RequestStatsView.error : RequestStatsView → Option Status
  | .unknown n => some (errorf .invalidArgument "unknown request_stats_view %v" [.int n])
  | _ => Option.none

/-- The checks of `ReadRows`, the last of which is the load itself. -/
def ReadRowsRequest.check (compile : RegexpCompiler) (env : ReadEnv)
    (req : ReadRowsRequest) : Option Status :=
  (if req.rowsLimit < 0 then
    some (errorf .invalidArgument "rows_limit must not be negative" [])
  else
    none).or <|
  (if req.reversed = true ∧ env.dataBoost = true then
    some (errorf .invalidArgument "reverse scans are not supported with Data Boost app profiles" [])
  else
    none).or <|
  req.requestStatsView.error.or <|
  (validateRowRanges req.rows).or <|
  (validateFilter compile req.filter).or <|
  env.loadError

/-- `ReadRows` on a resolved table: the emitted rows and the statistics. -/
def readRows (compile : RegexpCompiler) (tbl : Table) (view : Option ViewPolicy) (env : ReadEnv)
    (req : ReadRowsRequest) (db : Store) : Except Status (List Row × ReadStats) :=
  match req.check compile env with
  | some st => .error st
  | none =>
    readLoop compile tbl view env req
      ((newReadPlan req.rows req.reversed).load db.rows) ⟨0, 0, 0, 0⟩

end Reading

end Bttest
end LittleBigtable
