import LittleBigtable.Bttest.ReadResult
import LittleBigtable.Bttest.RowWriter

/-!
# The three read paths

A session reads one row, `ReadRows` reads the rows of a plan, and the catalog of the
query engine scans a range.  Each path reduces a stored row to the known families,
collects its garbage, restricts it to a view, filters it and converts it in code of its
own.  For a plan of one key the three agree.

Both the session and `ReadRows` run the filter on the same row or, where the row has
become empty, on nothing; a filter makes nothing of nothing, so it does not matter that
only `ReadRows` looks before it filters.
-/

namespace LittleBigtable
namespace Bttest

open List

section Session

/-- A `Column` of a returned row. -/
structure PbColumn where
  qualifier : Bytes
  cells : List Cell
deriving DecidableEq

/-- A `Family` of a returned row. -/
structure PbFamily where
  name : Bytes
  columns : List PbColumn
deriving DecidableEq

/-- A returned `Row`. -/
structure PbRow where
  key : Bytes
  families : List PbFamily
deriving DecidableEq

def Family.toProto (f : Family) (name : Bytes) : PbFamily :=
  ⟨name, (f.colNames.map (fun col => ⟨col, f.cells[col]?.getD []⟩)).filter
    (fun col : PbColumn => decide (col.cells.length ≠ 0))⟩

/-- Columns without cells and families without columns are left out. -/
def Row.toProto (r : Row) : PbRow :=
  ⟨r.key, (r.sortedFamilies.map (fun fam => fam.2.toProto fam.1)).filter
    (fun fam => decide (0 < fam.columns.length))⟩

/-- The cells of a stored row that a session shows. -/
def sessionVisible (tbl : Table) (view : Option ViewPolicy) (gcMicros : Int) (stored : Row) : Row :=
  let r := (dropUnknownFamilies tbl.families stored).gc tbl.gcRules gcMicros
  match view with
  | none => r
  | some p => p.restrict r

/-- `sessionReadRow` on a resolved table. -/
def sessionReadRow (compile : RegexpCompiler) (tbl : Table) (view : Option ViewPolicy)
    (env : ReadEnv) (key : Bytes) (filter : RowFilter)
    (db : Store) : Except Status (Option PbRow) :=
  if key.length = 0 then
    .error (errorf .invalidArgument "row key must be non-empty" [])
  else
    match (validateFilter compile filter).or env.loadError with
    | some st => .error st
    | none =>
      match db.rows[key]? with
      | none => .ok none
      | some stored =>
        match filterRow compile (env.draw key) filter
            (sessionVisible tbl view (env.gcMicros key) stored) with
        | .error st => .error st
        | .ok (_, r) => if r.isEmpty then .ok none else .ok (some r.toProto)

end Session

section Catalog

/-- A cell of a row that the catalog delivers. -/
structure SqlCell where
  timestampMicros : Int
  value : Bytes
deriving DecidableEq

/-- A row that the catalog delivers. -/
structure SqlRow where
  key : Bytes
  families : GoMap (GoMap (List SqlCell))

def toSqlRow (r : Row) : SqlRow :=
  ⟨r.key, r.families.map (fun _ fam =>
    fam.cells.map (fun _ cs => cs.map (fun c => ⟨c.ts, c.value⟩)))⟩

/-- The rows that `Scan` delivers to a callback that takes them all. -/
def catalogScan (tbl : Table) (env : ReadEnv) (rng : KeyRange)
    (db : Store) : Except Status (List SqlRow) :=
  match env.loadError with
  | some st => .error st
  | none =>
    .ok ((db.rows.scan rng false).filterMap (fun stored =>
      let r := (dropUnknownFamilies tbl.families stored).gc tbl.gcRules (env.gcMicros stored.key)
      if r.isEmpty then none else some (toSqlRow r)))

/-- The cells of a column of a delivered row. -/
def SqlRow.column (r : SqlRow) (fam col : Bytes) : List SqlCell :=
  match r.families[fam]? with
  | none => []
  | some cols => cols[col]?.getD []

theorem toSqlRow_column (r : Row) (fam col : Bytes) :
    (toSqlRow r).column fam col = (r.column fam col).map (fun c => ⟨c.ts, c.value⟩) := by
  unfold SqlRow.column toSqlRow Row.column
  rw [Std.ExtTreeMap.getElem?_map]
  cases r.families[fam]? with
  | none => rfl
  | some f =>
    simp only [Option.map_some, Std.ExtTreeMap.getElem?_map]
    cases f.cells[col]? with
    | none | some => rfl

end Catalog

section Returned

/-- The request for a single key. -/
def singleKey (key : Bytes) (filter : RowFilter) : ReadRowsRequest :=
  ⟨some ⟨[key], []⟩, filter, 0, false, .none⟩

/-- The row that a read of a single key returns, if it returns one. -/
def returnedRow : Except Status (List Row × ReadStats) → Option Row
  | .ok (rows, _) => rows.head?
  | .error _ => none

/-- The cells of a returned row with their families and qualifiers, in order. -/
def PbRow.decoded (r : PbRow) : DecodedRow :=
  (r.key, r.families.flatMap (fun fam =>
    fam.columns.flatMap (fun col => col.cells.map (fun c => ⟨fam.name, col.qualifier, c⟩))))

theorem flatMap_filter_eq {α β : Type} {p : α → Bool} {f : α → List β}
    (h : ∀ a, p a = false → f a = []) (l : List α) :
    (l.filter p).flatMap f = l.flatMap f := by
  induction l with
  | nil => rfl
  | cons a l ih =>
    rw [filter_cons, flatMap_cons]
    by_cases ha : p a = true
    · rw [if_pos ha, flatMap_cons, ih]
    · rw [if_neg ha, ih, h a (by simpa using ha), nil_append]

theorem Family.toProto_cells (f : Family) (name : Bytes) :
    (f.toProto name).columns.flatMap (fun col =>
        col.cells.map (fun c => (⟨name, col.qualifier, c⟩ : DecodedCell))) =
      (f.listing name).map (fun x => ⟨x.family, x.column, x.cell⟩) := by
  unfold Family.toProto Family.listing listColumn
  dsimp only
  rw [flatMap_filter_eq, flatMap_map, map_flatMap]
  · simp only [map_map]
    rfl
  intro col hcol
  have hnil : col.cells = [] := by
    simpa using hcol
  rw [hnil]
  rfl

/-- **A returned row has the cells of its chunks, in their order.** -/
theorem toProto_decoded (r : Row) :
    r.toProto.decoded = r.decoded := by
  unfold PbRow.decoded Row.decoded Row.toProto Row.listing
  dsimp only
  rw [flatMap_filter_eq, flatMap_map, map_flatMap]
  · simp only [← Family.toProto_cells]
    rfl
  intro fam hfam
  have hnil : fam.columns = [] := by
    simpa using hfam
  rw [hnil]
  rfl

end Returned

section Agreement

variable {compile : RegexpCompiler} {tbl : Table} {view : Option ViewPolicy}

/-- The rows are stored under their keys, which are not empty, in normal form. -/
def RowsKeyed (rows : SqlRows) : Prop :=
  ∀ (key : Bytes) (r : Row), rows[key]? = some r → key ≠ [] ∧ r.key = key ∧ r.Normal

variable {key : Bytes} {db : Store} {env : ReadEnv} {stored : Row}

/-- A range of a single key holds the row under it. -/
theorem scan_singleKey {rows : SqlRows} (hrows : RowsKeyed rows) {rng : KeyRange}
    (hrng : ∀ k, rng.contains k = true ↔ k = key) :
    rows.scan rng false = rows[key]?.toList := by
  have hkeys : ∀ (key : Bytes) (r : Row), rows[key]? = some r → r.key = key :=
    fun key r hr => (hrows key r hr).2.1
  refine eq_toList_of_mem_iff (fun r => ?_) (scan_pairwise hkeys false)
  rw [mem_scan hkeys, hrng]
  exact stored_under_key_iff hkeys

theorem contains_singleKey (key k : Bytes) :
    (⟨key, key ++ [0]⟩ : KeyRange).contains k = true ↔ k = key := by
  unfold KeyRange.contains
  simp only [Bool.and_eq_true, Bool.or_eq_true, decide_eq_true_eq,
    Lexicographic.lt_append_least_iff zero_le_byte, append_eq_nil_iff, reduceCtorEq,
    and_false, false_or]
  exact ⟨fun h => le_antisymm h.2 h.1, fun h => by simp [h]⟩

/-- What a read of a single key returns. -/
theorem returnedRow_readRows {filter : RowFilter} (hrows : RowsKeyed db.rows)
    (hload : env.loadError = none) (hfilter : validateFilter compile filter = none)
    (hsample : filter.sampleFree = true) :
    returnedRow (readRows compile tbl view env (singleKey key filter) db) =
      db.rows[key]?.bind (emittedRow compile tbl view env (singleKey key filter)) := by
  obtain ⟨stats, hread⟩ : ∃ stats, readRows compile tbl view env (singleKey key filter) db =
      .ok ((db.rows[key]?.bind (emittedRow compile tbl view env (singleKey key filter))).toList,
        stats) :=
    readRows_singleKeyRead _ _ _ (fun key r hr => (hrows key r hr).2) hload hfilter hsample
  rw [hread]
  cases db.rows[key]?.bind (emittedRow compile tbl view env (singleKey key filter)) with
  | none | some => rfl

theorem sessionVisible_of_visibleRow {gcMicros : Int} {r : Row}
    (h : visibleRow tbl view gcMicros stored = some r) :
    sessionVisible tbl view gcMicros stored = r := by
  unfold visibleRow at h
  unfold sessionVisible
  cases view with
  | none => exact Option.some.inj h
  | some p =>
    dsimp only at h ⊢
    split at h
    · exact Option.some.inj h
    · cases h

/-- A row outside the view is empty to a session. -/
theorem sessionVisible_of_hidden {gcMicros : Int} (h : visibleRow tbl view gcMicros stored = none) :
    sessionVisible tbl view gcMicros stored = newRow stored.key := by
  have hkey : ((dropUnknownFamilies tbl.families stored).gc tbl.gcRules gcMicros).key =
      stored.key := gcWithChanges_key
  unfold visibleRow at h
  unfold sessionVisible
  cases view with
  | none => cases h
  | some p =>
    dsimp only at h ⊢
    split at h
    · cases h
    · rename_i hallowed
      rw [ViewPolicy.restrict, if_neg hallowed, hkey]

/-- What a session makes of a stored row is what `ReadRows` emits for it. -/
theorem filterRow_sessionVisible (env : ReadEnv) (req : ReadRowsRequest)
    (hfilter : validateFilter compile req.filter = none) (hsample : req.filter.sampleFree = true)
    (hstored : stored.Normal) {draw : List Nat → ℚ} :
    ∃ r, filterRow compile draw req.filter
        (sessionVisible tbl view (env.gcMicros stored.key) stored) = .ok (!r.isEmpty, r) ∧
      emittedRow compile tbl view env req stored = if r.isEmpty then none else some r := by
  cases hvis : visibleRow tbl view (env.gcMicros stored.key) stored with
  | none =>
    rw [sessionVisible_of_hidden hvis]
    obtain ⟨r, hrun, hnormal, _, hlisting⟩ :=
      filterRow_denotes hfilter hsample draw (newRow_normal stored.key)
    rw [newRow_listing, filterListing_nil, ← hnormal.isEmpty_iff_listing] at hlisting
    refine ⟨r, hrun, ?_⟩
    unfold emittedRow
    rw [hvis, if_pos hlisting]
  | some visible =>
    rw [sessionVisible_of_visibleRow hvis]
    obtain ⟨hnormal, _⟩ := visibleRow_normal hstored hvis
    obtain ⟨r, hrun, hr, hkey, hlisting⟩ := filterRow_denotes hfilter hsample draw hnormal
    obtain ⟨r', hrun', hr', hkey', hlisting'⟩ :=
      filterRow_denotes hfilter hsample (env.draw visible.key) hnormal
    -- the filter draws no random number, so both runs leave the same row
    obtain rfl : r = r' :=
      hr.eq_of_listing hr' (hkey.trans hkey'.symm) (hlisting.trans hlisting'.symm)
    refine ⟨r, hrun, ?_⟩
    unfold emittedRow
    rw [hvis]
    dsimp only
    rw [hrun']
    cases r.isEmpty <;> rfl

/-- The row that a session returns, if it returns one. -/
def sessionRow : Except Status (Option PbRow) → Option PbRow
  | .ok r => r
  | .error _ => none

theorem sessionRow_eq {env' : ReadEnv} {filter : RowFilter} (hrows : RowsKeyed db.rows)
    (hload : env.loadError = none) (hload' : env'.loadError = none)
    (hclock : env'.gcMicros key = env.gcMicros key) (hsample : filter.sampleFree = true) :
    sessionRow (sessionReadRow compile tbl view env' key filter db) =
      (returnedRow (readRows compile tbl view env (singleKey key filter) db)).map Row.toProto := by
  unfold sessionReadRow
  cases hfilter : validateFilter compile filter with
  | some st =>
    have hcheck : (singleKey key filter).check compile env = some st := by
      simp [ReadRowsRequest.check, singleKey, hfilter, RequestStatsView.error,
        validateRowRanges, rowRangesError]
    unfold readRows
    rw [hcheck]
    by_cases hkey : key.length = 0
    · rw [if_pos hkey]
      rfl
    · rw [if_neg hkey]
      rfl
  | none =>
    rw [returnedRow_readRows hrows hload hfilter hsample]
    by_cases hkey : key.length = 0
    · -- no row is stored under the empty key
      rw [if_pos hkey]
      cases hstored : db.rows[key]? with
      | none => rfl
      | some stored => exact absurd (length_eq_zero_iff.mp hkey) (hrows key stored hstored).1
    rw [if_neg hkey, hload']
    cases hstored : db.rows[key]? with
    | none => rfl
    | some stored =>
      obtain ⟨_, hstoredKey, hnormal⟩ := hrows key stored hstored
      obtain ⟨r, hrun, hemitted⟩ : ∃ r, filterRow compile (env'.draw key) filter
          (sessionVisible tbl view (env.gcMicros stored.key) stored) = .ok (!r.isEmpty, r) ∧
          emittedRow compile tbl view env (singleKey key filter) stored =
            if r.isEmpty then none else some r :=
        filterRow_sessionVisible env (singleKey key filter) hfilter hsample hnormal
      rw [hstoredKey] at hrun
      simp only [Option.or_none, hclock, hrun, Option.bind_some, hemitted]
      cases r.isEmpty <;> rfl

/-- The catalog delivers the row that an unfiltered read returns. -/
theorem catalogScan_eq {env' : ReadEnv} {rng : KeyRange} (hrows : RowsKeyed db.rows)
    (hload : env.loadError = none) (hload' : env'.loadError = none)
    (hclock : env'.gcMicros key = env.gcMicros key) (hrng : ∀ k, rng.contains k = true ↔ k = key) :
    catalogScan tbl env' rng db =
      .ok ((returnedRow (readRows compile tbl none env (singleKey key .nil) db)).toList.map
        toSqlRow) := by
  unfold catalogScan
  rw [hload', scan_singleKey hrows hrng, returnedRow_readRows hrows hload rfl rfl]
  cases hstored : db.rows[key]? with
  | none => rfl
  | some stored =>
    obtain ⟨_, hkey, _⟩ := hrows key stored hstored
    have hnil : ∀ (draw : List Nat → ℚ) (r : Row),
        filterRow compile draw (singleKey key .nil).filter r = .ok (!r.isEmpty, r) :=
      fun _ _ => rfl
    simp only [Option.toList_some, filterMap_cons, filterMap_nil,
      Option.bind_some, emittedRow, visibleRow, hkey, hclock, hnil]
    cases ((dropUnknownFamilies tbl.families stored).gc tbl.gcRules
      (env.gcMicros key)).isEmpty <;> rfl

/-- **The read paths agree**: a session returns a row exactly when `ReadRows` of that key
and filter does, the same row with the same cells in the same order; and the catalog
delivers from a range of that key alone the cells of the row that an unfiltered
`ReadRows` returns. -/
theorem readPaths_agree (compile : RegexpCompiler) (tbl : Table) (view : Option ViewPolicy)
    (db : Store) (env env' : ReadEnv) (key : Bytes) (filter : RowFilter) (rng : KeyRange)
    (hrows : RowsKeyed db.rows) (hload : env.loadError = none) (hload' : env'.loadError = none)
    (hclock : env'.gcMicros key = env.gcMicros key) (hsample : filter.sampleFree = true)
    (hrng : ∀ k, rng.contains k = true ↔ k = key) :
    sessionRow (sessionReadRow compile tbl view env' key filter db) =
        (returnedRow (readRows compile tbl view env (singleKey key filter) db)).map Row.toProto ∧
      (∀ r : Row, r.toProto.decoded = r.decoded) ∧
      catalogScan tbl env' rng db =
        .ok ((returnedRow (readRows compile tbl none env (singleKey key .nil) db)).toList.map
          toSqlRow) ∧
      ∀ (r : Row) (fam col : Bytes),
        (toSqlRow r).column fam col = (r.column fam col).map (fun c => ⟨c.ts, c.value⟩) :=
  ⟨sessionRow_eq hrows hload hload' hclock hsample, toProto_decoded,
    catalogScan_eq hrows hload hload' hclock hrng, toSqlRow_column⟩

/-- The row `b` of two rows, read by a session and scanned by the catalog. -/
theorem readPaths_agree_two_rows :
    sessionRow (sessionReadRow (fun _ => .ok (fun _ => true))
        (tableWithFamily none ⟨false⟩ false) none
        ⟨fun _ _ => 1, fun _ => 0, false, none⟩ [98] (.passAllFilter true)
        ⟨twoRows, ∅, []⟩) =
      some ⟨[98], [⟨[102], [⟨[113], [⟨1000, [2], []⟩]⟩]⟩]⟩ := by
  have hrows : RowsKeyed twoRows := by
    intro key r hr
    unfold twoRows at hr
    simp only [Std.ExtTreeMap.getElem?_insert, Std.compare_eq_iff_eq] at hr
    split_ifs at hr with h₂ h₁
    · cases hr
      exact ⟨by simp [← h₂], h₂, normalize_normal _⟩
    · cases hr
      exact ⟨by simp [← h₁], h₁, normalize_normal _⟩
    · simp at hr
  rw [(readPaths_agree (fun _ => .ok (fun _ => true)) (tableWithFamily none ⟨false⟩ false)
    none ⟨twoRows, ∅, []⟩ ⟨fun _ _ => 0, fun _ => 0, false, none⟩
    ⟨fun _ _ => 1, fun _ => 0, false, none⟩ [98] (.passAllFilter true) ⟨[98], [98, 0]⟩
    hrows rfl rfl rfl rfl (contains_singleKey [98])).1]
  decide +kernel

end Agreement

end Bttest
end LittleBigtable
