import LittleBigtable.Bttest.MaterializedViews
import LittleBigtable.Lib.Grouped

/-!
# Fidelity of materialized-view storage

What a recomputation stores, compared with the cells that the emitted rows
require: one for each non-`NULL` scalar value column and each non-`NULL` map
entry, at the timestamp of the row.

`recompute_faithful_iff` says when the stored rows hold exactly the required
cells.  They do not when two emitted rows have one key, since the later one
replaces the earlier one, and when a map column shares the family `default` with
a scalar column of the name of one of its keys.
-/

namespace LittleBigtable
namespace Bttest

open Gsql List Std

section Required

/-- A cell value with its place in the view's row. -/
structure PlacedCell where
  family : Bytes
  qualifier : Bytes
  value : Bytes
deriving DecidableEq

/-- The bytes of a map key. -/
def mapKey : ScalarValue → Bytes
  | .string s => s
  | .bytes b => b
  | _ => []

/-- The cell of a non-`NULL` value that can be encoded. -/
def placed (family qualifier : Bytes) (t : ScalarType) (v : ScalarValue) : Option PlacedCell :=
  if v = .null then
    none
  else
    match encodeCellValue t (.scalar (toProtoScalar v)) with
    | .error _ => none
    | .ok value => some ⟨family, qualifier, value⟩

/-- The cells that one output column requires. -/
def columnCells (column : Bytes × SqlType) (v : SqlValue) : List PlacedCell :=
  match column.2, v with
  | .scalar t, .scalar v => (placed mvDefaultFamily column.1 t v).toList
  | .map _ valueType, .map entries =>
    entries.filterMap (fun kv => placed column.1 (mapKey kv.1) valueType kv.2)
  | _, _ => []

/-- The cells that an emitted row requires. -/
def requiredCells (d : ViewDefinition) (vals : List SqlValue) : List PlacedCell :=
  d.plan.valueIdx.flatMap (fun i => columnCells (d.columnAt i) (valueAt vals i))

/-- The `_timestamp` of an emitted row, 0 if the view has none. -/
def rowTimestamp (d : ViewDefinition) (vals : List SqlValue) : Int :=
  match d.plan.tsIdx with
  | none => 0
  | some i =>
    match valueAt vals i with
    | .scalar (.timestamp us) => us
    | _ => 0

/-- The encoded key of an emitted row. -/
def encodedKey (d : ViewDefinition) (vals : List SqlValue) : Except Status Bytes :=
  rowKey d (vals.map toProtoValue) (columnIndex d.columns)

/-- The stored rows hold exactly the cells that the emitted rows require. -/
def Faithful (d : ViewDefinition) (emitted : List (List SqlValue)) (stored : SqlRows) : Prop :=
  ∀ (key fam col : Bytes) (c : Cell),
    c ∈ (storedRow stored key).column fam col ↔
      ∃ vals ∈ emitted, encodedKey d vals = .ok key ∧
        ⟨fam, col, c.value⟩ ∈ requiredCells d vals ∧
        c.ts = rowTimestamp d vals ∧ c.labels = []

end Required

section Placing

/-- The value of the last cell at a place. -/
def lastAt (cells : List PlacedCell) (fam col : Bytes) : Option Bytes :=
  ((cells.filter (fun c => decide (c.family = fam ∧ c.qualifier = col))).getLast?).map
    PlacedCell.value

/-- The row `r'` is `r` after writing the cells one after the other. -/
structure Places (ts : Int) (cells : List PlacedCell) (r r' : Row) : Prop where
  key_eq : r'.key = r.key
  column_eq : ∀ fam col, r'.column fam col =
    match lastAt cells fam col with
    | none => r.column fam col
    | some value => [⟨ts, value, []⟩]

variable {ts : Int} {cells cells' : List PlacedCell} {r r' r'' : Row}

theorem lastAt_append (cells cells' : List PlacedCell) (fam col : Bytes) :
    lastAt (cells ++ cells') fam col = (lastAt cells' fam col).or (lastAt cells fam col) := by
  unfold lastAt
  rw [filter_append, getLast?_append]
  cases (cells'.filter (fun c => decide (c.family = fam ∧ c.qualifier = col))).getLast? <;> simp

theorem mem_of_lastAt {fam col value : Bytes} (h : lastAt cells fam col = some value) :
    ⟨fam, col, value⟩ ∈ cells := by
  unfold lastAt at h
  obtain ⟨c, hlast, rfl⟩ := Option.map_eq_some_iff.mp h
  obtain ⟨hmem, hplace⟩ := mem_filter.mp (mem_of_getLast? hlast)
  obtain ⟨rfl, rfl⟩ := of_decide_eq_true hplace
  exact hmem

theorem lastAt_isSome {c : PlacedCell} (h : c ∈ cells) :
    ∃ value, lastAt cells c.family c.qualifier = some value := by
  unfold lastAt
  cases hlast : (cells.filter (fun c' => decide (c'.family = c.family ∧
      c'.qualifier = c.qualifier))).getLast? with
  | none =>
    rw [getLast?_eq_none_iff, filter_eq_nil_iff] at hlast
    exact absurd (by simp) (hlast c h)
  | some c' => exact ⟨c'.value, rfl⟩

theorem Places.refl (ts : Int) (r : Row) :
    Places ts [] r r :=
  ⟨rfl, fun _ _ => rfl⟩

theorem Places.trans (h : Places ts cells r r') (h' : Places ts cells' r' r'') :
    Places ts (cells ++ cells') r r'' := by
  refine ⟨h'.key_eq.trans h.key_eq, fun fam col => ?_⟩
  rw [h'.column_eq, lastAt_append]
  cases lastAt cells' fam col with
  | some value => rfl
  | none => exact h.column_eq fam col

theorem places_updateColumn {ts : Int} {c : PlacedCell} {order : Nat} {r : Row} :
    Places ts [c] r (r.updateColumn c.family order c.qualifier (fun _ => [⟨ts, c.value, []⟩])) := by
  refine ⟨updateColumn_key r c.family order c.qualifier _, fun fam col => ?_⟩
  rw [updateColumn_column]
  by_cases h : c.family = fam ∧ c.qualifier = col
  · obtain ⟨rfl, rfl⟩ := h
    simp [lastAt]
  have h' : ¬ (fam = c.family ∧ col = c.qualifier) := by
    rintro ⟨rfl, rfl⟩
    exact h ⟨rfl, rfl⟩
  rw [if_neg h']
  simp [lastAt, h]

theorem places_createFamily (ts : Int) (r : Row) (name : Bytes) (order : Nat) :
    Places ts [] r (r.createFamily name order) := by
  refine ⟨rfl, fun fam col => ?_⟩
  unfold Row.column Row.createFamily Row.getOrCreateFamily
  simp only [ExtTreeMap.getElem?_insert, Std.compare_eq_iff_eq]
  by_cases h : name = fam
  · subst h
    rw [if_pos rfl]
    cases r.families[name]? <;> simp [lastAt]
  · rw [if_neg h]
    rfl

end Placing

section Columns

variable {ts : Int} {r r' : Row}

theorem mapQualifier_toProtoScalar (k : ScalarValue) :
    mapQualifier (toProtoScalar k) = mapKey k := by
  cases k with
  | string s =>
    unfold mapQualifier toProtoScalar WireScalar.getStringValue mapKey
    split_ifs with h
    · rfl
    · simpa [WireScalar.getBytesValue] using h
  | _ => rfl

theorem toProtoScalar_eq_null {v : ScalarValue} :
    toProtoScalar v = .null ↔ v = .null := by
  cases v <;> simp [toProtoScalar]

/-- The entries of a map are placed in their order. -/
theorem storeEntries_places {fam : Bytes} {order : Nat} {valueType : ScalarType}
    (entries : List (ScalarValue × ScalarValue))
    (h : storeEntries fam order ts valueType r
      (entries.map (fun kv => [toProtoScalar kv.1, toProtoScalar kv.2])) = .ok r') :
    Places ts (entries.filterMap (fun kv => placed fam (mapKey kv.1) valueType kv.2)) r r' := by
  induction entries generalizing r with
  | nil =>
    cases h
    exact .refl ts _
  | cons kv entries ih =>
    rw [map_cons, storeEntries] at h
    by_cases hnull : kv.2 = .null
    · rw [if_pos (toProtoScalar_eq_null.mpr hnull)] at h
      have hnone : placed fam (mapKey kv.1) valueType kv.2 = none := if_pos hnull
      simp only [filterMap_cons, hnone]
      exact ih h
    rw [if_neg (fun hwire => hnull (toProtoScalar_eq_null.mp hwire)),
      mapQualifier_toProtoScalar] at h
    split at h
    · cases h
    rename_i value hencode
    have hsome : placed fam (mapKey kv.1) valueType kv.2 = some ⟨fam, mapKey kv.1, value⟩ := by
      unfold placed
      rw [if_neg hnull, hencode]
    simp only [filterMap_cons, hsome]
    exact (places_updateColumn).trans (ih h)

theorem toProtoValue_eq_null {v : SqlValue} :
    toProtoValue v = .scalar .null ↔ v = .scalar .null := by
  cases v with
  | scalar v => simp [toProtoValue, toProtoScalar_eq_null]
  | map entries => simp [toProtoValue]

variable {i : Nat} {d : ViewDefinition} {vals : List SqlValue}

theorem columnAt_of_lt (d : ViewDefinition) (hi : i < d.columns.length) :
    d.columns[i]? = some (d.columnAt i) := by
  unfold ViewDefinition.columnAt
  rw [getD_eq_getElem?_getD, getElem?_eq_getElem hi, Option.getD_some]

/-- The position of an output column. -/
theorem columnIndex_getElem? (d : ViewDefinition) (hi : i < d.columns.length) :
    (columnIndex d.columns)[(d.columnAt i).1]? = some i := by
  have hfold : columnIndex d.columns =
      (d.columns.zipIdx.map (fun c => (c.1.1, c.2))).foldl
        (fun acc kv => acc.insert kv.1 ((fun _ _ v => v) kv.1 acc[kv.1]? kv.2))
        (∅ : GoMap Nat) := by
    rw [foldl_map]
    rfl
  rw [hfold]
  refine FiniteMap.foldl_insert_of_mem (fun _ _ v => v) _ ?_ ∅ ?_
  · have hnames : ((d.columns.zipIdx.map (fun c => (c.1.1, c.2))).map Prod.fst).Nodup := by
      have heq : (d.columns.zipIdx.map (fun c => (c.1.1, c.2))).map Prod.fst =
          d.columns.map Prod.fst := by
        rw [map_map]
        conv_rhs => rw [← zipIdx_map_fst 0 d.columns, map_map]
        rfl
      rw [heq]
      exact d.names_nodup
    exact pairwise_map.mp hnames
  · refine mem_map.mpr ⟨(d.columnAt i, i), ?_, rfl⟩
    rw [mem_zipIdx_iff_getElem?]
    exact columnAt_of_lt d hi

theorem lt_of_mem_valueIdx (hi : i ∈ d.plan.valueIdx) :
    i < d.columns.length := by
  rw [d.valueIdx_eq] at hi
  exact mem_range.mp (mem_of_mem_filter hi)

theorem wireAt_map (vals : List SqlValue) (i : Nat) :
    wireAt (vals.map toProtoValue) i = toProtoValue (valueAt vals i) := by
  unfold wireAt valueAt
  rw [getD_eq_getElem?_getD, getD_eq_getElem?_getD, getElem?_map]
  cases vals[i]? <;> rfl

/-- A value column places the cells it requires. -/
theorem storeColumn_places (hi : i ∈ d.plan.valueIdx)
    (h : storeColumn d (vals.map toProtoValue) (columnIndex d.columns) ts r
      (d.columnAt i).1 = .ok r') :
    Places ts (columnCells (d.columnAt i) (valueAt vals i)) r r' := by
  have hindex := columnIndex_getElem? d (lt_of_mem_valueIdx hi)
  simp only [storeColumn, hindex, Option.getD_some, wireAt_map] at h
  cases htype : (d.columnAt i).2 with
  | scalar t =>
    cases hvalue : valueAt vals i with
    | scalar v =>
      rw [htype, hvalue] at h
      have hcells : columnCells (d.columnAt i) (.scalar v) =
          (placed mvDefaultFamily (d.columnAt i).1 t v).toList := by
        simp only [columnCells, htype]
      rw [hcells]
      by_cases hnull : v = .null
      · subst hnull
        cases h
        exact .refl ts r
      rw [if_neg (fun hwire => hnull (by
        simpa using toProtoValue_eq_null.mp hwire))] at h
      cases hencode : encodeCellValue t (.scalar (toProtoScalar v)) with
      | error st =>
        simp only [toProtoValue, hencode] at h
        cases h
      | ok value =>
        simp only [toProtoValue, hencode] at h
        cases h
        have hsome : placed mvDefaultFamily (d.columnAt i).1 t v =
            some ⟨mvDefaultFamily, (d.columnAt i).1, value⟩ := by
          unfold placed
          rw [if_neg hnull, hencode]
        rw [hsome]
        exact places_updateColumn
    | map entries =>
      rw [htype, hvalue] at h
      cases h
  | map keyType valueType =>
    cases hvalue : valueAt vals i with
    | scalar v =>
      rw [htype, hvalue] at h
      have hcells : columnCells (d.columnAt i) (.scalar v) = [] := by
        simp only [columnCells, htype]
      rw [hcells]
      by_cases hnull : toProtoValue (.scalar v) = .scalar .null
      · rw [if_pos hnull] at h
        cases h
        exact .refl ts r
      · rw [if_neg hnull] at h
        cases h
        exact places_createFamily ts r _ _
    | map entries =>
      rw [htype, hvalue] at h
      have hcells : columnCells (d.columnAt i) (.map entries) = entries.filterMap (fun kv =>
            placed (d.columnAt i).1 (mapKey kv.1) valueType kv.2) := by
        simp only [columnCells, htype]
      rw [hcells, ← nil_append (entries.filterMap _)]
      rw [if_neg (by simp [toProtoValue])] at h
      exact (places_createFamily ts r _ _).trans (storeEntries_places entries h)

/-- All value columns together. -/
theorem storeColumns_places (positions : List Nat)
    (hpositions : ∀ i ∈ positions, i ∈ d.plan.valueIdx)
    (h : storeColumns d (vals.map toProtoValue) (columnIndex d.columns) ts r
      (positions.map (fun i => (d.columnAt i).1)) = .ok r') :
    Places ts
      (positions.flatMap (fun i => columnCells (d.columnAt i) (valueAt vals i)))
      r r' := by
  induction positions generalizing r with
  | nil =>
    cases h
    exact .refl ts _
  | cons i positions ih =>
    rw [map_cons, storeColumns] at h
    split at h
    · cases h
    rename_i r₁ hcol
    rw [flatMap_cons]
    exact (storeColumn_places (hpositions i (by simp)) hcol).trans
      (ih (fun j hj => hpositions j (mem_cons_of_mem i hj)) h)

/-- The timestamp of an accepted row is stored as it is. -/
theorem viewTimestamp_eq (haccept : d.plan.accept vals = true) :
    viewTimestamp d (vals.map toProtoValue) (columnIndex d.columns) =
      rowTimestamp d vals := by
  unfold viewTimestamp rowTimestamp ViewDefinition.timestampColumn
  cases hts : d.plan.tsIdx with
  | none => rfl
  | some i =>
    have hi : i < d.columns.length := by
      obtain ⟨-, name, hcol⟩ := d.ts_type i hts
      exact (List.getElem?_eq_some_iff.mp hcol).1
    have haccepts : acceptsTimestamp (valueAt vals i) = true := by
      unfold MvPlan.accept at haccept
      rw [hts] at haccept
      simp only [Bool.and_eq_true] at haccept
      exact haccept.1.2
    simp only [Option.map_some, columnIndex_getElem? d hi, Option.getD_some, wireAt_map]
    cases hvalue : valueAt vals i with
    | map entries =>
      rw [hvalue] at haccepts
      cases haccepts
    | scalar v =>
      rw [hvalue] at haccepts
      cases v with
      | timestamp us =>
        simp only [acceptsTimestamp, Bool.and_eq_true, decide_eq_true_eq] at haccepts
        simp only [toProtoValue, toProtoScalar]
        have hus : (us / 1000000 * 1000000000 + us % 1000000 * 1000) / 1000 =
            us := by omega
        rw [hus, Int.tmod_eq_emod_of_nonneg haccepts.1, haccepts.2]
        omega
      | _ => cases haccepts

/-- The stored row of an accepted row: its key, and at each place the last
required cell. -/
theorem viewRow_spec (haccept : d.plan.accept vals = true)
    (h : viewRow d (vals.map toProtoValue) = .ok r) :
    encodedKey d vals = .ok r.key ∧
      ∀ fam col, r.column fam col =
        match lastAt (requiredCells d vals) fam col with
        | none => []
        | some value => [⟨rowTimestamp d vals, value, []⟩] := by
  unfold viewRow at h
  simp only at h
  unfold encodedKey
  cases hkey : rowKey d (vals.map toProtoValue) (columnIndex d.columns) with
  | error st =>
    rw [hkey] at h
    cases h
  | ok key =>
    rw [hkey, viewTimestamp_eq haccept] at h
    have hplaces := storeColumns_places d.plan.valueIdx (fun i hi => hi) h
    refine ⟨by rw [hplaces.key_eq]; rfl, fun fam col => ?_⟩
    rw [hplaces.column_eq, newRow_column]
    rfl

end Columns

section Rows

variable {d : ViewDefinition}

/-- The stored row of an emitted row, if there is one. -/
def producedRow (d : ViewDefinition) (vals : List SqlValue) : Row :=
  (viewRow d (vals.map toProtoValue)).toOption.getD (newRow [])

/-- The row has cells to store. -/
def hasCells (d : ViewDefinition) (vals : List SqlValue) : Bool :=
  decide (requiredCells d vals ≠ [])

/-- The emitted rows that have cells to store under a key. -/
def rowsWithKey (d : ViewDefinition) (emitted : List (List SqlValue))
    (key : Bytes) : List (List SqlValue) :=
  emitted.filter (fun vals => hasCells d vals && decide (encodedKey d vals = .ok key))

variable {vals : List SqlValue} {evaluated : List (List SqlValue)}

theorem isEmpty_of_viewRow {r : Row} (haccept : d.plan.accept vals = true)
    (h : viewRow d (vals.map toProtoValue) = .ok r) :
    r.isEmpty = !hasCells d vals := by
  obtain ⟨-, hcolumn⟩ := viewRow_spec haccept h
  unfold hasCells
  rw [Bool.eq_iff_iff, isEmpty_iff]
  simp only [hcolumn, ne_eq, decide_not, Bool.not_not, decide_eq_true_eq]
  constructor
  · intro hempty
    by_contra hne
    obtain ⟨c, hc⟩ := exists_mem_of_ne_nil _ hne
    obtain ⟨value, hvalue⟩ := lastAt_isSome hc
    have hcol := hempty c.family c.qualifier
    rw [hvalue] at hcol
    cases hcol
  · intro hnil fam col
    rw [hnil]
    rfl

/-- The rows by key after the loop: the last emitted row that has cells. -/
theorem viewRows_spec (emitted : List (List SqlValue))
    (haccept : ∀ vals ∈ emitted, d.plan.accept vals = true) {rows rows' : SqlRows}
    (h : viewRows d rows (emitted.map (List.map toProtoValue)) = .ok rows') :
    (∀ vals ∈ emitted,
        viewRow d (vals.map toProtoValue) = .ok (producedRow d vals)) ∧
      ∀ key : Bytes, rows'[key]? =
        ((rowsWithKey d emitted key).getLast?.map (producedRow d)).or rows[key]? := by
  induction emitted generalizing rows with
  | nil =>
    cases h
    exact ⟨by simp, fun key => rfl⟩
  | cons vals emitted ih =>
    rw [map_cons, viewRows] at h
    split at h
    · cases h
    rename_i r hrow
    have hvals := haccept vals (by simp)
    obtain ⟨hkey, -⟩ := viewRow_spec hvals hrow
    have hproduced : producedRow d vals = r := by
      unfold producedRow
      rw [hrow]
      rfl
    obtain ⟨hall, hlookup⟩ := ih (fun v hv => haccept v (mem_cons_of_mem vals hv)) h
    refine ⟨?_, fun key => ?_⟩
    · intro v hv
      rcases mem_cons.mp hv with rfl | hv'
      · rw [hrow, hproduced]
      · exact hall v hv'
    rw [hlookup, isEmpty_of_viewRow hvals hrow]
    unfold rowsWithKey
    by_cases hcells : hasCells d vals = true
    · rw [hcells]
      simp only [Bool.not_true, Bool.false_eq_true, if_false,
        ExtTreeMap.getElem?_insert, Std.compare_eq_iff_eq]
      by_cases hk : r.key = key
      · subst hk
        rw [if_pos rfl, filter_cons_of_pos (by simp [hcells, hkey]),
          getLast?_cons, ← hproduced]
        cases (emitted.filter (fun vals => hasCells d vals &&
          decide (encodedKey d vals = .ok r.key))).getLast? <;>
            simp
      · rw [if_neg hk, filter_cons_of_neg (by simp [hkey, hk])]
    · rw [filter_cons_of_neg (by simp [hcells])]
      simp [hcells]

theorem mem_rowsWithKey {emitted : List (List SqlValue)} {key : Bytes} :
    vals ∈ rowsWithKey d emitted key ↔
      vals ∈ emitted ∧ requiredCells d vals ≠ [] ∧ encodedKey d vals = .ok key := by
  unfold rowsWithKey hasCells
  simp [mem_filter]

/-- Saving rows under their own keys stores them as they are. -/
theorem foldl_save_toList (rows : SqlRows)
    (hrows : ∀ (key : Bytes) (r : Row), rows[key]? = some r → r.key = key ∧ r.isEmpty = false)
    (key : Bytes) :
    (rows.toList.foldl (fun stored kr => stored.save kr.2) (∅ : SqlRows))[key]? = rows[key]? := by
  have hmem : ∀ kr ∈ rows.toList, rows[kr.1]? = some kr.2 := by
    rintro ⟨k, r⟩ hkr
    exact ExtTreeMap.mem_toList_iff_getElem?_eq_some.mp hkr
  rw [foldl_save_getElem? Prod.fst Prod.snd
    (fun kr hkr => (hrows kr.1 kr.2 (hmem kr hkr)).1)
    (ExtTreeMap.distinct_keys_toList.imp (fun h heq => h (Std.compare_eq_iff_eq.mpr heq)))]
  cases hfind : rows.toList.find? (fun kr => decide (kr.1 = key)) with
  | none =>
    cases hrow : rows[key]? with
    | none => simp
    | some r =>
      rw [List.find?_eq_none] at hfind
      have hkr : (key, r) ∈ rows.toList := ExtTreeMap.mem_toList_iff_getElem?_eq_some.mpr hrow
      exact absurd (by simp) (hfind (key, r) hkr)
  | some kr =>
    have hkey : kr.1 = key := by simpa using List.find?_some hfind
    have hrow := hmem kr (mem_of_find?_eq_some hfind)
    rw [hkey] at hrow
    simp only [hrow, persistedRow, (hrows key kr.2 hrow).2, Bool.false_eq_true, if_false]

theorem encodedKey_of_recompute {txError : Option Status} {stored : SqlRows}
    (h : recompute d evaluated txError = .ok stored) (hvals : vals ∈ d.plan.emitted evaluated) :
    ∃ key, encodedKey d vals = .ok key := by
  unfold recompute at h
  cases hrows : viewRows d ∅ ((d.plan.emitted evaluated).map (List.map toProtoValue)) with
  | error st =>
    rw [hrows] at h
    cases h
  | ok rows =>
    obtain ⟨hall, -⟩ := viewRows_spec _ (fun vals hvals => accept_of_mem_emitted hvals) hrows
    exact ⟨_, (viewRow_spec (accept_of_mem_emitted hvals) (hall vals hvals)).1⟩

/-- The stored columns under a key are those of the last emitted row with cells
under that key. -/
theorem recompute_column {txError : Option Status} {stored : SqlRows}
    (h : recompute d evaluated txError = .ok stored) (key fam col : Bytes) :
    (storedRow stored key).column fam col =
      match (rowsWithKey d (d.plan.emitted evaluated) key).getLast? with
      | none => []
      | some vals =>
        match lastAt (requiredCells d vals) fam col with
        | none => []
        | some value => [⟨rowTimestamp d vals, value, []⟩] := by
  unfold recompute at h
  split at h
  · cases h
  rename_i rows hrows
  cases txError with
  | some st => cases h
  | none =>
    cases h
    have haccept : ∀ vals ∈ d.plan.emitted evaluated,
        d.plan.accept vals = true :=
      fun vals hvals => accept_of_mem_emitted hvals
    obtain ⟨hall, hlookup⟩ := viewRows_spec _ haccept hrows
    simp only [ExtTreeMap.getElem?_empty, Option.or_none] at hlookup
    -- what the last row with cells under a key is stored as
    have hlast : ∀ (k : Bytes) (vals : List SqlValue),
        (rowsWithKey d (d.plan.emitted evaluated) k).getLast? = some vals →
        (producedRow d vals).key = k ∧ (producedRow d vals).isEmpty = false ∧
          d.plan.accept vals = true ∧
          viewRow d (vals.map toProtoValue) = .ok (producedRow d vals) := by
      intro k vals hvals
      obtain ⟨hmem, hcells, hkey⟩ := mem_rowsWithKey.mp (mem_of_getLast? hvals)
      have hrow := hall vals hmem
      have hempty := isEmpty_of_viewRow (haccept vals hmem) hrow
      obtain ⟨hkey', -⟩ := viewRow_spec (haccept vals hmem) hrow
      rw [hkey] at hkey'
      refine ⟨(Except.ok.inj hkey').symm, ?_, haccept vals hmem, hrow⟩
      rw [hempty]
      simp [hasCells, hcells]
    have hstored : (rows.toList.foldl (fun stored kr => stored.save kr.2)
        (∅ : SqlRows))[key]? = rows[key]? := by
      refine foldl_save_toList rows (fun k r hr => ?_) key
      rw [hlookup] at hr
      obtain ⟨vals, hvals, rfl⟩ := Option.map_eq_some_iff.mp hr
      exact ⟨(hlast k vals hvals).1, (hlast k vals hvals).2.1⟩
    unfold storedRow
    rw [hstored, hlookup]
    cases hvals : (rowsWithKey d (d.plan.emitted evaluated) key).getLast? with
    | none => simp
    | some vals =>
      obtain ⟨-, -, hvalid, hrow⟩ := hlast key vals hvals
      exact (viewRow_spec hvalid hrow).2 fam col

end Rows

section Fidelity

/-- The cells that a row requires at one place have one value. -/
def CellsAgree (d : ViewDefinition) (vals : List SqlValue) : Prop :=
  ∀ c ∈ requiredCells d vals, ∀ c' ∈ requiredCells d vals,
    c.family = c'.family → c.qualifier = c'.qualifier → c.value = c'.value

/-- No two emitted rows with cells have one key. -/
def KeysDistinct (d : ViewDefinition) (emitted : List (List SqlValue)) : Prop :=
  emitted.Pairwise (fun a b => hasCells d a = true → hasCells d b = true →
    encodedKey d a ≠ encodedKey d b)

variable {d : ViewDefinition} {evaluated : List (List SqlValue)} {txError : Option Status}
variable {stored : SqlRows}

/-- All cells of a stored row have the timestamp of the last emitted row. -/
theorem ts_of_mem_column (h : recompute d evaluated txError = .ok stored) {key fam col : Bytes}
    {c : Cell} (hc : c ∈ (storedRow stored key).column fam col) :
    ∃ vals, (rowsWithKey d (d.plan.emitted evaluated) key).getLast? = some vals ∧
      lastAt (requiredCells d vals) fam col = some c.value ∧
      c.ts = rowTimestamp d vals ∧ c.labels = [] := by
  rw [recompute_column h] at hc
  cases hlast : (rowsWithKey d (d.plan.emitted evaluated) key).getLast? with
  | none =>
    rw [hlast] at hc
    cases hc
  | some vals =>
    rw [hlast] at hc
    simp only at hc
    split at hc
    · cases hc
    rename_i value hvalue
    have heq : c = ⟨rowTimestamp d vals, value, []⟩ := mem_singleton.mp hc
    subst heq
    exact ⟨vals, rfl, hvalue, rfl, rfl⟩

/-- Rows with different timestamps under one key are not all stored. -/
theorem keysDistinct_of_faithful (h : recompute d evaluated txError = .ok stored)
    (hdistinct : (d.plan.emitted evaluated).Pairwise (fun a b =>
      encodedKey d a ≠ encodedKey d b ∨ rowTimestamp d a ≠ rowTimestamp d b))
    (hfaithful : Faithful d (d.plan.emitted evaluated) stored) :
    KeysDistinct d (d.plan.emitted evaluated) := by
  unfold KeysDistinct
  rw [Grouped.pairwise_ne_iff_groups]
  intro k
  cases k with
  | error st =>
    have hnil : (d.plan.emitted evaluated).filter (fun vals => hasCells d vals &&
        decide (encodedKey d vals = .error st)) = [] := by
      rw [filter_eq_nil_iff]
      intro vals hvals hsel
      obtain ⟨key, hkey⟩ := encodedKey_of_recompute h hvals
      simp [hkey] at hsel
    rw [hnil]
    simp
  | ok key =>
    change (rowsWithKey d (d.plan.emitted evaluated) key).length ≤ 1
    cases hrows : rowsWithKey d (d.plan.emitted evaluated) key with
    | nil => simp
    | cons vals rest =>
      cases rest with
      | nil => simp
      | cons vals' rest =>
        -- a cell of the first row is stored with the timestamp of the last
        exfalso
        have hsorted : (vals :: vals' :: rest).Pairwise (fun a b =>
            encodedKey d a ≠ encodedKey d b ∨ rowTimestamp d a ≠ rowTimestamp d b) := by
          rw [← hrows]
          exact hdistinct.sublist filter_sublist
        have hmem : vals ∈ rowsWithKey d (d.plan.emitted evaluated) key := by
          rw [hrows]
          exact mem_cons_self
        obtain ⟨hemitted, hcells, hkey⟩ := mem_rowsWithKey.mp hmem
        obtain ⟨c, hc⟩ := exists_mem_of_ne_nil _ hcells
        have hstored := (hfaithful key c.family c.qualifier
          ⟨rowTimestamp d vals, c.value, []⟩).mpr ⟨vals, hemitted, hkey, hc, rfl, rfl⟩
        obtain ⟨last, hlast, -, hts, -⟩ := ts_of_mem_column h hstored
        rw [hrows, getLast?_cons_cons] at hlast
        have hlast' : last ∈ vals' :: rest := mem_of_getLast? hlast
        have hmem' : last ∈ rowsWithKey d (d.plan.emitted evaluated) key := by
          rw [hrows]
          exact mem_cons_of_mem vals hlast'
        obtain ⟨-, -, hkey'⟩ := mem_rowsWithKey.mp hmem'
        rcases (pairwise_cons.mp hsorted).1 last hlast' with hne | hne
        · exact hne (hkey.trans hkey'.symm)
        · exact hne hts

/-- Two cells required at one place cannot both be stored. -/
theorem cellsAgree_of_faithful (h : recompute d evaluated txError = .ok stored)
    (hfaithful : Faithful d (d.plan.emitted evaluated) stored) {vals : List SqlValue}
    (hvals : vals ∈ d.plan.emitted evaluated) :
    CellsAgree d vals := by
  intro c hc c' hc' hfam hcol
  obtain ⟨key, hkey⟩ := encodedKey_of_recompute h hvals
  have hstored := (hfaithful key c.family c.qualifier
    ⟨rowTimestamp d vals, c.value, []⟩).mpr ⟨vals, hvals, hkey, hc, rfl, rfl⟩
  have hstored' := (hfaithful key c.family c.qualifier
    ⟨rowTimestamp d vals, c'.value, []⟩).mpr ⟨vals, hvals, hkey, by
      rw [hfam, hcol]
      exact hc', rfl, rfl⟩
  obtain ⟨last, hlast, hvalue, -, -⟩ := ts_of_mem_column h hstored
  obtain ⟨last', hlast', hvalue', -, -⟩ := ts_of_mem_column h hstored'
  rw [hlast] at hlast'
  cases hlast'
  rw [hvalue] at hvalue'
  exact Option.some.inj hvalue'

/-- Where keys are distinct and cells agree, the required cells are stored and no
others. -/
theorem faithful_of_distinct (h : recompute d evaluated txError = .ok stored)
    (hkeys : KeysDistinct d (d.plan.emitted evaluated))
    (hagree : ∀ vals ∈ d.plan.emitted evaluated, CellsAgree d vals) :
    Faithful d (d.plan.emitted evaluated) stored := by
  intro key fam col c
  constructor
  · intro hc
    obtain ⟨vals, hlast, hvalue, hts, hlabels⟩ := ts_of_mem_column h hc
    obtain ⟨hvals, -, hkey⟩ := mem_rowsWithKey.mp (mem_of_getLast? hlast)
    exact ⟨vals, hvals, hkey, mem_of_lastAt hvalue, hts, hlabels⟩
  rintro ⟨vals, hvals, hkey, hcell, hts, hlabels⟩
  have hmem : vals ∈ rowsWithKey d (d.plan.emitted evaluated) key :=
    mem_rowsWithKey.mpr ⟨hvals, ne_nil_of_mem hcell, hkey⟩
  -- the row is the only one under its key
  have hlen : (rowsWithKey d (d.plan.emitted evaluated) key).length ≤ 1 :=
    (Grouped.pairwise_ne_iff_groups (encodedKey d) (hasCells d) _).mp hkeys (.ok key)
  have hlast : (rowsWithKey d (d.plan.emitted evaluated) key).getLast? =
      some vals := by
    cases hrows : rowsWithKey d (d.plan.emitted evaluated) key with
    | nil =>
      rw [hrows] at hmem
      cases hmem
    | cons first rest =>
      rw [hrows] at hmem hlen
      have hrest : rest = [] := by
        rw [← length_eq_zero_iff]
        simpa using hlen
      subst hrest
      rw [mem_singleton.mp hmem]
      rfl
  obtain ⟨value, hvalue⟩ := lastAt_isSome hcell
  have heq : value = c.value := hagree vals hvals _ (mem_of_lastAt hvalue) _ hcell rfl rfl
  rw [recompute_column h, hlast]
  simp only [hvalue, heq, mem_singleton]
  obtain ⟨cts, cvalue, clabels⟩ := c
  simp only at hts hlabels ⊢
  rw [hts, hlabels]

/-- A successful recomputation stores exactly the cells that the emitted rows
require if and only if no two emitted rows with cells have one key, and the cells
a row requires at one place agree. -/
theorem recompute_faithful_iff (d : ViewDefinition) (evaluated : List (List SqlValue))
    (txError : Option Status) (stored : SqlRows) (h : recompute d evaluated txError = .ok stored)
    (hdistinct : (d.plan.emitted evaluated).Pairwise (fun a b =>
      encodedKey d a ≠ encodedKey d b ∨ rowTimestamp d a ≠ rowTimestamp d b)) :
    Faithful d (d.plan.emitted evaluated) stored ↔
      KeysDistinct d (d.plan.emitted evaluated) ∧
        ∀ vals ∈ d.plan.emitted evaluated, CellsAgree d vals := by
  constructor
  · intro hfaithful
    exact ⟨keysDistinct_of_faithful h hdistinct hfaithful,
      fun vals hvals => cellsAgree_of_faithful h hfaithful hvals⟩
  · rintro ⟨hkeys, hagree⟩
    exact faithful_of_distinct h hkeys hagree

/-- `SELECT _key, _timestamp, COUNT(*) AS n ... GROUP BY _key, _timestamp`. -/
def countPerTimestamp : ViewDefinition where
  columns :=
    [([95, 107, 101, 121], .scalar .bytes),
      ([95, 116, 105, 109, 101, 115, 116, 97, 109, 112], .scalar .timestamp),
      ([110], .scalar .int64)]
  plan := ⟨[0], some 1, [2]⟩
  keyIsKey := true
  names_nodup := by decide
  key_ne_nil := by decide
  key_nodup := by decide
  key_type := by
    intro i hi
    obtain rfl := List.mem_singleton.mp hi
    exact ⟨_, _, rfl, by decide⟩
  key_single := fun _ => rfl
  ts_type := by
    intro i hi
    obtain rfl := Option.some.inj hi
    exact ⟨by decide, _, rfl⟩
  valueIdx_eq := by decide

/-- A count for a key and a timestamp. -/
def countRow (key : Bytes) (ts n : Int) : List SqlValue :=
  [.scalar (.bytes key), .scalar (.timestamp ts), .scalar (.int64 n)]

/-- Of two emitted rows with one key and two timestamps, only the one with the
smaller timestamp is stored. -/
theorem countPerTimestamp_loses_version :
    ∃ stored,
      recompute countPerTimestamp [countRow [97] 1000 7, countRow [97] 2000 8] none =
          .ok stored ∧
        (storedRow stored [97]).column mvDefaultFamily [110] = [⟨1000, encodeInt64 7, []⟩] ∧
        ¬ Faithful countPerTimestamp
          (countPerTimestamp.plan.emitted [countRow [97] 1000 7, countRow [97] 2000 8]) stored := by
  have hrun : ∃ stored,
      recompute countPerTimestamp [countRow [97] 1000 7, countRow [97] 2000 8] none =
          .ok stored ∧
        (storedRow stored [97]).column mvDefaultFamily [110] = [⟨1000, encodeInt64 7, []⟩] :=
    ⟨_, rfl, by decide +kernel⟩
  obtain ⟨stored, hstored, hcolumn⟩ := hrun
  refine ⟨stored, hstored, hcolumn, fun hfaithful => ?_⟩
  have hcell := (hfaithful [97] mvDefaultFamily [110] ⟨2000, encodeInt64 8, []⟩).mpr
    ⟨countRow [97] 2000 8, by decide +kernel, by decide +kernel, by decide +kernel,
      by decide +kernel, rfl⟩
  rw [hcolumn] at hcell
  revert hcell
  decide +kernel

/-- Rows with two keys are stored as they should be. -/
theorem recompute_faithful_iff_two_keys :
    ∃ stored,
      recompute countPerTimestamp [countRow [97] 1000 7, countRow [98] 2000 8] none =
          .ok stored ∧
        Faithful countPerTimestamp
          (countPerTimestamp.plan.emitted [countRow [97] 1000 7, countRow [98] 2000 8]) stored := by
  refine ⟨_, rfl, ?_⟩
  refine (recompute_faithful_iff countPerTimestamp
    [countRow [97] 1000 7, countRow [98] 2000 8] none _ rfl
    (by decide +kernel)).mpr ⟨?_, ?_⟩
  · unfold KeysDistinct
    decide +kernel
  · unfold CellsAgree
    decide +kernel

end Fidelity

end Bttest
end LittleBigtable
