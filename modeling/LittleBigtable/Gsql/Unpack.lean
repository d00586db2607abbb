import LittleBigtable.Gsql.RunReference

/-!
# UNPACK

The columns of an inner query whose type is that of a cell history are spread over one row
for each timestamp.  The columns are told by their type alone, and the type assertions of
the scan take for granted that a history holds no `NULL`: `unpack_asserts_iff` says that the
scan does not fail on an assertion exactly if that is so.  An expression can build such a
history, as `unpack_crashes` does.
-/

namespace LittleBigtable
namespace Gsql

open Bttest List
open Fallible
open Visit

section Kinds

/-- A letter under simple case folding, as far as letters of the ASCII alphabet are
concerned. -/
def foldLetter (c : Char) : Char :=
  if 'A' ≤ c ∧ c ≤ 'Z' then Char.ofNat (c.toNat + 32)
  else if c = 'ſ' then 's'
  else if c = 'K' then 'k'
  else c

/-- `strings.EqualFold` with a name in lower case. -/
def equalFold (s lower : String) : Bool :=
  s.toList.map foldLetter == lower.toList

/-- `historyValueType`: the type of the values of a cell history. -/
def historyValueType : NestedType → Option NestedType
  | .array (.struct [(first, .scalar .timestamp), (second, v)]) =>
    if equalFold first "timestamp" && equalFold second "value" then some v else none
  | _ => none

/-- What becomes of a column of the inner query. -/
inductive UnpackKind
  | unchanged
  | mapHistory
  | arrayHistory
deriving DecidableEq

/-- The type and kind of a column, as `newUnpackSource` determines them. -/
def unpackColumn : NestedType → NestedType × UnpackKind
  | .map k h =>
    match historyValueType h with
    | some v => (.map k v, .mapHistory)
    | none => (.map k h, .unchanged)
  | t =>
    match historyValueType t with
    | some v => (v, .arrayHistory)
    | none => (t, .unchanged)

def unpackKind (t : NestedType) : UnpackKind :=
  (unpackColumn t).2

end Kinds

section Scan

/-- The type assertions and subscripts of the scan. -/
inductive Assertion
  | map
  | array
  | struct
  | timestamp
  | subscript
deriving DecidableEq

/-- How a scan ends without having delivered all rows. -/
inductive UnpackFailure
  | status (st : Status)
  | assertion (a : Assertion)
deriving DecidableEq

/-- `e.(structV)[0].(tsVal)`. -/
def cellTimestamp : NestedValue → Except Assertion Int
  | .struct (.scalar (.timestamp t) :: _) => .ok t
  | .struct (_ :: _) => .error .timestamp
  | .struct [] => .error .subscript
  | _ => .error .struct

/-- `e.(structV)[1]`. -/
def cellContent : NestedValue → Except Assertion NestedValue
  | .struct (_ :: v :: _) => .ok v
  | .struct _ => .error .subscript
  | _ => .error .struct

/-- `v.(arrayV)`. -/
def arrayElems : NestedValue → Except Assertion (List NestedValue)
  | .array es => .ok es
  | _ => .error .array

/-- `v.(*mapV)`. -/
def mapEntries : NestedValue → Except Assertion (List (NestedValue × NestedValue))
  | .map entries => .ok entries
  | _ => .error .map

/-- The timestamps of a history. -/
def historyTimestamps (v : NestedValue) : Except Assertion (List Int) :=
  (arrayElems v).bind (fun es => es.mapM cellTimestamp)

/-- The timestamps of a column. -/
def columnTimestamps (kind : UnpackKind) (v : NestedValue) : Except Assertion (List Int) :=
  if v.isNull then
    .ok []
  else
    match kind with
    | .mapHistory =>
      (mapEntries v).bind (fun entries =>
        (entries.mapM (fun e => historyTimestamps e.2)).map List.flatten)
    | .arrayHistory => historyTimestamps v
    | .unchanged => .ok []

/-- The timestamps of a row of the inner query, newest first. -/
def rowTimestamps (kinds : List UnpackKind)
    (vals : List NestedValue) : Except Assertion (List Int) :=
  ((kinds.zip vals).mapM (fun c => columnTimestamps c.1 c.2)).map
    (fun tss => tss.flatten.dedup.insertionSort (fun a b => b ≤ a))

/-- The value of the first cell with the timestamp. -/
def cellAt (t : Int) : List NestedValue → Except Assertion (Option NestedValue)
  | [] => .ok none
  | e :: es =>
    (cellTimestamp e).bind (fun t' =>
      if t' = t then (cellContent e).map some else cellAt t es)

/-- A column of the row for a timestamp. -/
def columnAt (t : Int) (kind : UnpackKind) (v : NestedValue) : Except Assertion NestedValue :=
  if v.isNull then
    .ok v
  else
    match kind with
    | .unchanged => .ok v
    | .mapHistory =>
      (mapEntries v).bind (fun entries =>
        (entries.mapM (fun e => (arrayElems e.2).bind (fun es =>
          (cellAt t es).map (fun o => o.map (fun x => (e.1, x)))))).map (fun found =>
            match found.filterMap id with
            | [] => .null
            | e :: es => .map (e :: es)))
    | .arrayHistory => (arrayElems v).bind (fun es => (cellAt t es).map (fun o => o.getD .null))

/-- The row for a timestamp; its last column is `_timestamp`. -/
def rowAt (kinds : List UnpackKind) (vals : List NestedValue)
    (t : Int) : Except Assertion (List NestedValue) :=
  ((kinds.zip vals).mapM (fun c => columnAt t c.1 c.2)).map
    (fun row => row ++ [.scalar (.timestamp t)])

variable {σ : Type}

/-- The callback on the row for a timestamp. -/
def unpackStep (kinds : List UnpackKind) (fn : σ → List NestedValue → Except Status (σ × Bool))
    (vals : List NestedValue) (s : σ) (t : Int) : Except UnpackFailure (σ × Bool) :=
  match rowAt kinds vals t with
  | .error a => .error (.assertion a)
  | .ok row =>
    match fn s row with
    | .error st => .error (.status st)
    | .ok res => .ok res

/-- What the scan does with a row of the inner query. -/
def unpackRow (kinds : List UnpackKind) (fn : σ → List NestedValue → Except Status (σ × Bool))
    (s : σ) (vals : List NestedValue) : Except UnpackFailure (σ × Bool) :=
  match rowTimestamps kinds vals with
  | .error a => .error (.assertion a)
  | .ok tss => visit (unpackStep kinds fn vals) s tss

/-- `scan`, over the rows that the inner query emits before it ends, perhaps with an error. -/
def unpackScan (kinds : List UnpackKind) (fn : σ → List NestedValue → Except Status (σ × Bool))
    (s : σ) (rows : List (List NestedValue))
    (ending : Option Status) : Except UnpackFailure (σ × Bool) :=
  match visit (unpackRow kinds fn) s rows, ending with
  | .error f, _ => .error f
  | .ok (_, true), some st => .error (.status st)
  | .ok res, _ => .ok res

end Scan

section Clean

/-- The cell and its timestamp are not `NULL`. -/
def cleanCell : NestedValue → Bool
  | .struct (t :: _) => !t.isNull
  | _ => false

/-- The history is not `NULL` and holds no `NULL` in place of a cell or timestamp. -/
def cleanHistory : NestedValue → Bool
  | .array es => es.all cleanCell
  | _ => false

/-- The histories of a column are clean; the column itself may be `NULL`. -/
def cleanColumn (kind : UnpackKind) (v : NestedValue) : Bool :=
  v.isNull ||
    match kind, v with
    | .mapHistory, .map entries => entries.all (fun e => cleanHistory e.2)
    | .mapHistory, _ => false
    | .arrayHistory, v => cleanHistory v
    | .unchanged, _ => true

def cleanRow (kinds : List UnpackKind) (vals : List NestedValue) : Bool :=
  (kinds.zip vals).all (fun c => cleanColumn c.1 c.2)

/-- The cell of a history. -/
def historyCell (c : Int × NestedValue) : NestedValue :=
  .struct [.scalar (.timestamp c.1), c.2]

/-- A history without `NULL`. -/
def historyOf (cells : List (Int × NestedValue)) : NestedValue :=
  .array (cells.map historyCell)

variable (c : Int × NestedValue)

@[simp] theorem cellTimestamp_historyCell :
    cellTimestamp (historyCell c) = .ok c.1 :=
  rfl

theorem cellAt_historyOf (t : Int) (cells : List (Int × NestedValue)) :
    cellAt t (cells.map historyCell) =
      .ok ((cells.find? (fun c => decide (c.1 = t))).map Prod.snd) := by
  induction cells with
  | nil => rfl
  | cons c cells ih =>
    rw [map_cons, cellAt, cellTimestamp_historyCell, List.find?_cons]
    by_cases hc : c.1 = t
    · rw [decide_eq_true hc]
      exact if_pos hc
    · rw [decide_eq_false hc]
      exact (if_neg hc).trans ih

variable {v : NestedValue} {t : NestedType}

theorem historyType_of_isSome (h : (historyValueType t).isSome = true) :
    ∃ first second content,
      t = .array (.struct [(first, .scalar .timestamp), (second, content)]) := by
  unfold historyValueType at h
  split at h
  · exact ⟨_, _, _, rfl⟩
  · cases h

theorem cell_of_clean {first second : String} {content : NestedType}
    (h : v.HasType (.struct [(first, .scalar .timestamp), (second, content)]))
    (hclean : cleanCell v = true) :
    ∃ c, v = historyCell c := by
  cases hnull : v.isNull with
  | true =>
    rw [eq_null_of_isNull hnull] at hclean
    cases hclean
  | false =>
    obtain ⟨fs, rfl, _, hlen, hfs⟩ := h.eq_struct hnull
    obtain ⟨x, y, rfl⟩ := length_eq_two.mp hlen
    obtain ⟨_, ⟨⟩, hx⟩ := hfs 0 x rfl
    obtain ⟨s, rfl, hs⟩ := hx.eq_scalar
    cases hs with
    | null => cases hclean
    | @timestamp us _ => exact ⟨(us, y), rfl⟩

theorem isOk_cellTimestamp {first second : String} {content : NestedType}
    (h : v.HasType (.struct [(first, .scalar .timestamp), (second, content)])) :
    (cellTimestamp v).isOk = cleanCell v := by
  cases hclean : cleanCell v with
  | true =>
    obtain ⟨c, rfl⟩ := cell_of_clean h hclean
    rfl
  | false =>
    unfold cellTimestamp
    split
    · cases hclean
    · rfl
    · rfl
    · rfl

/-- A history whose type is that of a history fails an assertion exactly if it is not
clean. -/
theorem isOk_historyTimestamps (ht : (historyValueType t).isSome = true) (h : v.HasType t) :
    (historyTimestamps v).isOk = cleanHistory v := by
  obtain ⟨first, second, content, rfl⟩ := historyType_of_isSome ht
  cases hnull : v.isNull with
  | true =>
    rw [eq_null_of_isNull hnull]
    rfl
  | false =>
    obtain ⟨es, rfl, _, hes⟩ := h.eq_array hnull
    have hmap : historyTimestamps (.array es) = es.mapM cellTimestamp := rfl
    rw [hmap]
    exact isOk_mapM fun e he => isOk_cellTimestamp (hes e he)

theorem history_of_clean (ht : (historyValueType t).isSome = true) (h : v.HasType t)
    (hclean : cleanHistory v = true) :
    ∃ cells, v = historyOf cells := by
  obtain ⟨first, second, content, rfl⟩ := historyType_of_isSome ht
  cases hnull : v.isNull with
  | true =>
    rw [eq_null_of_isNull hnull] at hclean
    cases hclean
  | false =>
    obtain ⟨es, rfl, hlen, hes⟩ := h.eq_array hnull
    have hcells : ∀ e ∈ es, ∃ c, e = historyCell c := fun e he =>
      cell_of_clean (hes e he) (all_eq_true.mp hclean e he)
    clear h hclean hnull hes hlen
    induction es with
    | nil => exact ⟨[], rfl⟩
    | cons e es ih =>
      obtain ⟨⟨c, rfl⟩, hrest⟩ := forall_mem_cons.mp hcells
      obtain ⟨cells, hcells⟩ := ih hrest
      cases hcells
      exact ⟨c :: cells, rfl⟩

theorem unpackKind_cases (t : NestedType) :
    (∃ key h, t = .map key h ∧ unpackKind t = .mapHistory ∧ (historyValueType h).isSome = true) ∨
      (unpackKind t = .arrayHistory ∧ (historyValueType t).isSome = true) ∨
      unpackKind t = .unchanged := by
  unfold unpackKind unpackColumn
  split
  · rename_i key h
    cases hv : historyValueType h with
    | none => exact .inr (.inr rfl)
    | some v => exact .inl ⟨key, h, rfl, rfl, by rw [hv]; rfl⟩
  · cases hv : historyValueType t with
    | none => exact .inr (.inr rfl)
    | some v => exact .inr (.inl ⟨rfl, rfl⟩)

/-- The first loop over a column passes its assertions exactly if the column is clean. -/
theorem isOk_columnTimestamps (h : v.HasType t) :
    (columnTimestamps (unpackKind t) v).isOk = cleanColumn (unpackKind t) v := by
  unfold columnTimestamps cleanColumn
  cases hnull : v.isNull with
  | true => rfl
  | false =>
    rw [if_neg Bool.false_ne_true, Bool.false_or]
    rcases unpackKind_cases t with ⟨key, th, rfl, hkind, hth⟩ | ⟨hkind, ht⟩ | hkind
    · obtain ⟨entries, rfl, _, hentries⟩ := h.eq_map hnull
      rw [hkind]
      have hmap : (mapEntries (.map entries)).bind (fun entries =>
            (entries.mapM (fun e => historyTimestamps e.2)).map flatten) =
          (entries.mapM (fun e => historyTimestamps e.2)).map flatten := rfl
      dsimp only
      rw [hmap, isOk_map]
      exact isOk_mapM fun e he => isOk_historyTimestamps hth (hentries e he).2
    · rw [hkind]
      exact isOk_historyTimestamps ht h
    · rw [hkind]
      rfl

/-- The second loop over a clean column passes its assertions. -/
theorem isOk_columnAt (h : v.HasType t) (hclean : cleanColumn (unpackKind t) v = true) (us : Int) :
    (columnAt us (unpackKind t) v).isOk = true := by
  unfold columnAt
  unfold cleanColumn at hclean
  cases hnull : v.isNull with
  | true => rfl
  | false =>
    rw [hnull, Bool.false_or] at hclean
    rw [if_neg Bool.false_ne_true]
    rcases unpackKind_cases t with ⟨key, th, rfl, hkind, hth⟩ | ⟨hkind, ht⟩ | hkind
    · obtain ⟨entries, rfl, _, hentries⟩ := h.eq_map hnull
      rw [hkind] at hclean ⊢
      have hfound : (entries.mapM (fun e => (arrayElems e.2).bind (fun es =>
          (cellAt us es).map (fun o => o.map (fun x => (e.1, x)))))).isOk = true := by
        have hentry : ∀ e ∈ entries, ((arrayElems e.2).bind (fun es =>
            (cellAt us es).map (fun o => o.map (fun x => (e.1, x))))).isOk = (fun _ => true) e := by
          intro e he
          obtain ⟨cells, hcells⟩ :=
            history_of_clean hth (hentries e he).2 (all_eq_true.mp hclean e he)
          rw [hcells]
          refine (isOk_map _ _).trans ?_
          rw [cellAt_historyOf]
          rfl
        rw [isOk_mapM hentry, all_eq_true]
        exact fun _ _ => rfl
      exact (isOk_map _ _).trans hfound
    · rw [hkind] at hclean ⊢
      obtain ⟨cells, rfl⟩ := history_of_clean ht h hclean
      refine (isOk_map _ _).trans ?_
      rw [cellAt_historyOf]
      rfl
    · rw [hkind]
      rfl

/-- The values of a row of the inner query have the types of its columns. -/
def RowHasType (vals : List NestedValue) (types : List NestedType) : Prop :=
  List.Forall₂ NestedValue.HasType vals types

variable {vals : List NestedValue} {types : List NestedType}

theorem RowHasType.zip (h : RowHasType vals types) :
    ∀ c ∈ (types.map unpackKind).zip vals, ∃ t, c.1 = unpackKind t ∧ c.2.HasType t := by
  induction h with
  | nil => exact nofun
  | cons hhead _ ih =>
    rw [map_cons, zip_cons_cons, forall_mem_cons]
    exact ⟨⟨_, rfl, hhead⟩, ih⟩

theorem isOk_rowTimestamps (h : RowHasType vals types) :
    (rowTimestamps (types.map unpackKind) vals).isOk = cleanRow (types.map unpackKind) vals := by
  unfold rowTimestamps
  rw [isOk_map]
  refine isOk_mapM fun c hc => ?_
  obtain ⟨t, hkind, htyped⟩ := h.zip c hc
  rw [hkind]
  exact isOk_columnTimestamps htyped

theorem isOk_rowAt (h : RowHasType vals types)
    (hclean : cleanRow (types.map unpackKind) vals = true) (us : Int) :
    (rowAt (types.map unpackKind) vals us).isOk = true := by
  unfold rowAt
  rw [isOk_map]
  have hcols : ∀ c ∈ (types.map unpackKind).zip vals,
      (columnAt us c.1 c.2).isOk = (fun _ => true) c := by
    intro c hc
    obtain ⟨t, hkind, htyped⟩ := h.zip c hc
    have hcol := all_eq_true.mp hclean c hc
    rw [hkind] at hcol ⊢
    exact isOk_columnAt htyped hcol us
  rw [isOk_mapM hcols, all_eq_true]
  exact fun _ _ => rfl

end Clean

section Scans

variable {σ : Type} {types : List NestedType}

/-- No assertion fails in a visit if none fails in a step. -/
theorem visit_asserts {β : Type} {step : σ → β → Except UnpackFailure (σ × Bool)} {l : List β}
    (h : ∀ b ∈ l, ∀ s a, step s b ≠ .error (.assertion a)) (s : σ) (a : Assertion) :
    visit step s l ≠ .error (.assertion a) := by
  induction l generalizing s with
  | nil => exact nofun
  | cons b l ih =>
    obtain ⟨hb, hl⟩ := forall_mem_cons.mp h
    rw [visit_cons]
    match hstep : step s b with
    | .error f =>
      intro hcon
      cases hcon
      exact hb s a hstep
    | .ok (s', true) => exact ih hl s'
    | .ok (s', false) => exact nofun

variable {vals : List NestedValue}

theorem unpackRow_asserts (h : RowHasType vals types)
    (hclean : cleanRow (types.map unpackKind) vals = true)
    (fn : σ → List NestedValue → Except Status (σ × Bool)) (s : σ) (a : Assertion) :
    unpackRow (types.map unpackKind) fn s vals ≠ .error (.assertion a) := by
  have hok := isOk_rowTimestamps h
  rw [hclean] at hok
  obtain ⟨tss, htss⟩ := isOk_iff.mp hok
  unfold unpackRow
  rw [htss]
  refine visit_asserts (fun us _ s a => ?_) s a
  obtain ⟨row, hrow⟩ := isOk_iff.mp (isOk_rowAt h hclean us)
  unfold unpackStep
  rw [hrow]
  dsimp only
  cases fn s row <;> exact nofun

/-- A consumer that takes every row. -/
def takeAll (s : List (List NestedValue)) (row : List NestedValue) :
    Except Status (List (List NestedValue) × Bool) :=
  .ok (s ++ [row], true)

theorem unpackRow_takeAll (h : RowHasType vals types)
    (hclean : cleanRow (types.map unpackKind) vals = true) (s : List (List NestedValue)) :
    ∃ s', unpackRow (types.map unpackKind) takeAll s vals = .ok (s', true) := by
  have hok := isOk_rowTimestamps h
  rw [hclean] at hok
  obtain ⟨tss, htss⟩ := isOk_iff.mp hok
  unfold unpackRow
  rw [htss]
  clear htss hok
  induction tss generalizing s with
  | nil => exact ⟨s, rfl⟩
  | cons us tss ih =>
    obtain ⟨row, hrow⟩ := isOk_iff.mp (isOk_rowAt h hclean us)
    dsimp only
    rw [visit_cons, unpackStep, hrow]
    exact ih (s ++ [row])

/-- A row that is not clean is reached and fails an assertion. -/
theorem visit_fails {rows : List (List NestedValue)} (h : ∀ vals ∈ rows, RowHasType vals types)
    (hvals : vals ∈ rows) (hdirty : cleanRow (types.map unpackKind) vals = false)
    (s : List (List NestedValue)) :
    ∃ a, visit (unpackRow (types.map unpackKind) takeAll) s rows = .error (.assertion a) := by
  induction rows generalizing s with
  | nil => cases hvals
  | cons row rows ih =>
    obtain ⟨hrow, hrows⟩ := forall_mem_cons.mp h
    rw [visit_cons]
    cases hclean : cleanRow (types.map unpackKind) row with
    | true =>
      obtain ⟨s', hs'⟩ := unpackRow_takeAll hrow hclean s
      have hmem : vals ∈ rows := by
        rcases mem_cons.mp hvals with rfl | hmem
        · rw [hdirty] at hclean
          cases hclean
        · exact hmem
      rw [hs']
      exact ih hrows hmem s'
    | false =>
      have hfails := isOk_rowTimestamps hrow
      rw [hclean] at hfails
      unfold unpackRow
      cases htss : rowTimestamps (types.map unpackKind) row with
      | error a => exact ⟨a, rfl⟩
      | ok tss =>
        rw [htss] at hfails
        cases hfails

/-- **The scan fails on no assertion exactly if the histories hold no `NULL`**, whatever takes
its rows and however the inner query ends. -/
theorem unpack_asserts_iff (types : List NestedType) (rows : List (List NestedValue))
    (htyped : ∀ vals ∈ rows, RowHasType vals types) (ending : Option Status) :
    (∀ (σ : Type) (fn : σ → List NestedValue → Except Status (σ × Bool)) (s : σ) (a : Assertion),
        unpackScan (types.map unpackKind) fn s rows ending ≠ .error (.assertion a)) ↔
      ∀ vals ∈ rows, cleanRow (types.map unpackKind) vals = true := by
  constructor
  · intro h vals hvals
    by_contra hdirty
    obtain ⟨a, ha⟩ := visit_fails htyped hvals (Bool.eq_false_of_not_eq_true hdirty) []
    refine h _ takeAll [] a ?_
    unfold unpackScan
    rw [ha]
  intro h σ fn s a
  have hvisit := visit_asserts
    (fun vals hvals s a => unpackRow_asserts (htyped vals hvals) (h vals hvals) fn s a) s a
  unfold unpackScan
  split
  · rename_i f hf
    intro hcon
    cases hcon
    exact hvisit hf
  · exact nofun
  · exact nofun

/-- The type `ARRAY<STRUCT<timestamp TIMESTAMP, value INT64>>`. -/
def historyInt64 : NestedType :=
  .array (.struct [("timestamp", .scalar .timestamp), ("value", .scalar .int64)])

theorem unpack_asserts_iff_keyed :
    ((∀ (σ : Type) (fn : σ → List NestedValue → Except Status (σ × Bool)) (s : σ)
          (a : Assertion),
        unpackScan ([.scalar .bytes, historyInt64].map unpackKind) fn s
          [[.scalar (.bytes [1]), historyOf [(7, .scalar (.int64 5)), (3, .null)]],
            [.scalar (.bytes [2]), .null]] none ≠ .error (.assertion a)) ↔
      ∀ vals ∈ [[.scalar (.bytes [1]), historyOf [(7, .scalar (.int64 5)), (3, .null)]],
          [.scalar (.bytes [2]), .null]],
        cleanRow ([.scalar .bytes, historyInt64].map unpackKind) vals = true) ∧
      cleanRow ([.scalar .bytes, historyInt64].map unpackKind)
        [.scalar (.bytes [1]), historyOf [(7, .scalar (.int64 5)), (3, .null)]] = true := by
  refine ⟨unpack_asserts_iff _ _ ?_ none, by decide⟩
  simp only [forall_mem_cons, not_mem_nil, false_implies, implies_true, and_true]
  constructor
  · refine .cons (.bytes (by decide)) (.cons ⟨by decide, ?_⟩ .nil)
    refine ⟨⟨by decide, .timestamp (by decide), .int64 (by decide), trivial⟩,
      ⟨by decide, .timestamp (by decide), trivial, trivial⟩, trivial⟩
  · exact .cons (.bytes (by decide)) (.cons trivial .nil)

/-- `STRUCT(…)`. -/
def structCtor (_now : Int) (args : List (Except Status SqlDatum)) : Except Status SqlDatum :=
  (collect args).map (fun vs => .compound (.struct (vs.map Datum.value)))

/-- `[…]`. -/
def arrayCtor (_now : Int) (args : List (Except Status SqlDatum)) : Except Status SqlDatum :=
  (collect args).map (fun vs => .compound (.array (vs.map Datum.value)))

/-- `SELECT [STRUCT(CAST(NULL AS TIMESTAMP) AS timestamp, 1 AS value)] AS h FROM
t(with_history => TRUE)`. -/
def nullTimestamp : SelectPlan where
  onTable := true
  whereExpr := none
  groupKeys := []
  aggs := []
  having := none
  outExprs := [.call .other arrayCtor [.call .other structCtor
    [.const .other .null, .const .other (.scalar (.int64 1))]]]
  order := []
  distinct := false
  limit := none
  offset := none

/-- The table with the row `a`. -/
def oneRow : GoMap Unit :=
  Std.ExtTreeMap.empty.insert [0x61] ()

/-- The inner query returns a value of its type, and the scan fails on the timestamp. -/
theorem unpack_crashes :
    (nullTimestamp.plan integersOnly (fun _ => .ok (fun _ : Unit => true))
        (fun _ _ _ => .ok .null)).run plainEnv oneRow =
      .ok [[.compound (.array [.struct [.null, .scalar (.int64 1)]])]] ∧
      RowHasType [.array [.struct [.null, .scalar (.int64 1)]]] [historyInt64] ∧
      unpackScan ([historyInt64].map unpackKind) takeAll []
        [[.array [.struct [.null, .scalar (.int64 1)]]]] none = .error (.assertion .timestamp) := by
  refine ⟨?_, ?_, rfl⟩
  · have hscanned : ([⟨[], none⟩].flatMap (scanRange oneRow)).filter (fun _ => true) =
        [([0x61], ())] := by
      decide +kernel
    have hrun : (nullTimestamp.plan integersOnly (fun _ => .ok (fun _ : Unit => true))
          (fun _ _ _ => .ok .null)).run plainEnv oneRow =
        (nullTimestamp.plan integersOnly (fun _ => .ok (fun _ : Unit => true))
          (fun _ _ _ => .ok .null)).runOver plainEnv
            ((nullTimestamp.plan integersOnly (fun _ => .ok (fun _ : Unit => true))
              (fun _ _ _ => .ok .null)).tableRows plainEnv [⟨[], none⟩] (fun _ => true) oneRow) :=
      run_eq_runOver rfl rfl oneRow
    rw [hrun]
    unfold QueryPlan.tableRows
    rw [hscanned]
    rfl
  · exact .cons ⟨by decide, ⟨by decide, trivial, .int64 (by decide), trivial⟩, trivial⟩ .nil

end Scans

end Gsql
end LittleBigtable
