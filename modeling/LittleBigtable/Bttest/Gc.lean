import LittleBigtable.Bttest.Row

/-!
# Garbage collection of rows

`gcDeletes` flags the cells of one column that a GC rule makes eligible,
`applyGCAt` splits the column by these flags, and `gcWithChanges` collects a
whole row and reports one `DeleteFromColumn` mutation for each removed cell, the
form in which change streams report garbage collection.

The facts below say what a collection does to each column of a normal row; no
later module looks at the loops again.
-/

namespace LittleBigtable
namespace Bttest

open StableSort List Std

mutual

/-- Per cell of a column, whether `rule` makes it eligible for collection.  Every
child of a union or intersection judges the same column.  An age is less than `2 ^ 63`
nanoseconds, so for readings of a clock its `int64` difference is the exact one. -/
def gcDeletes (cells : List Cell) (nowMicros : Int) :
    GcRule → List Bool
  | .unset => cells.map (fun _ => false)
  | .maxNumVersions n => (List.range cells.length).map (fun i : Nat => decide (n ≤ (i : Int)))
  | .maxAge micros => cells.map (fun c => decide (c.ts < nowMicros - micros))
  | .union rules => gcDeletesUnion cells nowMicros (cells.map (fun _ => false)) rules
  | .intersection [] => cells.map (fun _ => false)
  | .intersection (rule :: rules) =>
    gcDeletesIntersection cells nowMicros (cells.map (fun _ => true)) (rule :: rules)

/-- The loop over the children of a union. -/
def gcDeletesUnion (cells : List Cell) (nowMicros : Int) (flags : List Bool) :
    List GcRule → List Bool
  | [] => flags
  | sub :: rules =>
    gcDeletesUnion cells nowMicros
      (List.zipWith (fun a b => a || b) flags (gcDeletes cells nowMicros sub))
      rules

/-- The loop over the children of an intersection. -/
def gcDeletesIntersection (cells : List Cell) (nowMicros : Int) (flags : List Bool) :
    List GcRule → List Bool
  | [] => flags
  | sub :: rules =>
    gcDeletesIntersection cells nowMicros
      (List.zipWith (fun a b => a && b) flags (gcDeletes cells nowMicros sub))
      rules

end

/-- Split a column into the retained and the removed cells. -/
def applyGCAt (cells : List Cell) (rule : GcRule) (nowMicros : Int) : List Cell × List Cell :=
  if cells = [] then
    (cells, [])
  else
    let flagged := cells.zip (gcDeletes cells nowMicros rule)
    let kept := (flagged.filter (fun x => !x.2)).map Prod.fst
    let removed := (flagged.filter (fun x => x.2)).map Prod.fst
    if removed = [] then
      (cells, [])
    else
      (kept, removed)

/-- The mutation that reports the removal of one cell. -/
def gcChange (fam col : Bytes) (c : Cell) : Mutation :=
  Mutation.plain (.deleteFromColumn fam col (some ⟨c.ts, wrap64 (c.ts + 1000)⟩))

/-- Collect one family. -/
def Family.gc (f : Family) (rule : GcRule) (nowMicros : Int) : Family :=
  { f with
    cells := f.cells.map (fun col cs =>
      if col ∈ f.colNames then (applyGCAt cs rule nowMicros).1 else cs) }

/-- The removals of one family, column by column. -/
def Family.gcChanges (f : Family) (name : Bytes) (rule : GcRule)
    (nowMicros : Int) : List Mutation :=
  f.colNames.flatMap (fun col =>
    (applyGCAt (f.cells[col]?.getD []) rule nowMicros).2.map (gcChange name col))

/-- Apply GC rules to the row; the second component lists the removals. -/
def Row.gcWithChanges (r : Row) (rules : GoMap GcRule) (nowMicros : Int) : Row × List Mutation :=
  if rules.isEmpty then
    (r, [])
  else
    let collected : Row :=
      { r with
        families := r.families.map (fun name f =>
          match rules[name]? with
          | none => f
          | some rule => f.gc rule nowMicros) }
    let changes := r.sortedFamilies.flatMap (fun fam =>
      match rules[fam.1]? with
      | none => []
      | some rule => fam.2.gcChanges fam.1 rule nowMicros)
    (collected.normalize, changes)

/-- The row after garbage collection. -/
def Row.gc (r : Row) (rules : GoMap GcRule) (nowMicros : Int) : Row :=
  (r.gcWithChanges rules nowMicros).1

section Columns

mutual

theorem length_gcDeletes {cells : List Cell} {nowMicros : Int} :
    ∀ rule : GcRule, (gcDeletes cells nowMicros rule).length = cells.length
  | .unset => by simp [gcDeletes]
  | .maxNumVersions n => by simp [gcDeletes]
  | .maxAge micros => by simp [gcDeletes]
  | .union rules => by
    rw [gcDeletes]
    exact length_gcDeletesUnion rules _ (by simp)
  | .intersection [] => by simp [gcDeletes]
  | .intersection (rule :: rules) => by
    rw [gcDeletes]
    exact length_gcDeletesIntersection (rule :: rules) _ (by simp)

theorem length_gcDeletesUnion {cells : List Cell} {nowMicros : Int} :
    ∀ (rules : List GcRule) (flags : List Bool),
      flags.length = cells.length →
      (gcDeletesUnion cells nowMicros flags rules).length = cells.length
  | [], flags, h => by simpa [gcDeletesUnion] using h
  | sub :: rules, flags, h => by
    rw [gcDeletesUnion]
    refine length_gcDeletesUnion rules _ ?_
    rw [List.length_zipWith, h, length_gcDeletes sub]
    exact Nat.min_self _

theorem length_gcDeletesIntersection {cells : List Cell} {nowMicros : Int} :
    ∀ (rules : List GcRule) (flags : List Bool),
      flags.length = cells.length →
      (gcDeletesIntersection cells nowMicros flags rules).length = cells.length
  | [], flags, h => by simpa [gcDeletesIntersection] using h
  | sub :: rules, flags, h => by
    rw [gcDeletesIntersection]
    refine length_gcDeletesIntersection rules _ ?_
    rw [List.length_zipWith, h, length_gcDeletes sub]
    exact Nat.min_self _

end

variable (cells : List Cell) (rule : GcRule) (nowMicros : Int)

/-- Selecting the entries of a zip by the second component gives a sublist of
the first list. -/
theorem map_fst_filter_zip_sublist (flags : List Bool) (p : Cell × Bool → Bool) :
    (((cells.zip flags).filter p).map Prod.fst).Sublist cells := by
  induction cells generalizing flags with
  | nil => simp
  | cons c cells ih =>
    cases flags with
    | nil => simp
    | cons b flags =>
      simp only [zip_cons_cons, filter_cons]
      split_ifs
      · exact (ih flags).cons_cons c
      · exact (ih flags).cons c

/-- Retained and removed cells together are the column. -/
theorem perm_filter_zip (flags : List Bool) (h : flags.length = cells.length) :
    (((cells.zip flags).filter (fun x => !x.2)).map Prod.fst ++
      ((cells.zip flags).filter (fun x => x.2)).map Prod.fst).Perm cells := by
  induction cells generalizing flags with
  | nil => simp
  | cons c cells ih =>
    cases flags with
    | nil => simp at h
    | cons b flags =>
      have ih' := ih flags (by simpa using h)
      cases b with
      | true => simpa using perm_middle.trans (ih'.cons c)
      | false => simpa using ih'.cons c

theorem applyGCAt_fst_sublist :
    (applyGCAt cells rule nowMicros).1.Sublist cells := by
  unfold applyGCAt
  split_ifs with hnil
  · exact List.Sublist.refl _
  simp only
  split_ifs
  · exact List.Sublist.refl _
  · exact map_fst_filter_zip_sublist _ _ _

theorem applyGCAt_perm :
    ((applyGCAt cells rule nowMicros).1 ++ (applyGCAt cells rule nowMicros).2).Perm cells := by
  unfold applyGCAt
  split_ifs with hnil
  · simp
  simp only
  split_ifs
  · simp
  · exact perm_filter_zip _ _ (length_gcDeletes rule)

@[simp] theorem applyGCAt_nil :
    applyGCAt [] rule nowMicros = ([], []) := by
  rfl

/-- What the rules of a table retain of one column. -/
def keptCells (rules : GoMap GcRule) (nowMicros : Int) (fam : Bytes)
    (cells : List Cell) : List Cell :=
  match rules[fam]? with
  | none => cells
  | some rule => (applyGCAt cells rule nowMicros).1

/-- What the rules of a table remove of one column. -/
def removedCells (rules : GoMap GcRule) (nowMicros : Int) (fam : Bytes)
    (cells : List Cell) : List Cell :=
  match rules[fam]? with
  | none => []
  | some rule => (applyGCAt cells rule nowMicros).2

theorem keptCells_sublist (rules : GoMap GcRule) (nowMicros : Int) (fam : Bytes)
    (cells : List Cell) :
    (keptCells rules nowMicros fam cells).Sublist cells := by
  unfold keptCells
  cases rules[fam]? with
  | none => exact List.Sublist.refl _
  | some rule => exact applyGCAt_fst_sublist cells rule nowMicros

theorem keptCells_removedCells_perm {rules : GoMap GcRule} {nowMicros : Int} {fam : Bytes}
    {cells : List Cell} :
    (keptCells rules nowMicros fam cells ++ removedCells rules nowMicros fam cells).Perm cells := by
  unfold keptCells removedCells
  cases rules[fam]? with
  | none => simp
  | some rule => exact applyGCAt_perm cells rule nowMicros

@[simp] theorem gcWithChanges_key {r : Row} {rules : GoMap GcRule} {nowMicros : Int} :
    (r.gcWithChanges rules nowMicros).1.key = r.key := by
  unfold Row.gcWithChanges
  split_ifs <;> rfl

theorem Family.Normal.gc_cells {f : Family} (h : f.Normal) (rule : GcRule) (nowMicros : Int)
    (col : Bytes) :
    (f.gc rule nowMicros).cells[col]? =
      f.cells[col]?.map (fun cs => (applyGCAt cs rule nowMicros).1) := by
  unfold Family.gc
  rw [ExtTreeMap.getElem?_map]
  cases hcol : f.cells[col]? with
  | none => rfl
  | some cs =>
    have hmem : col ∈ f.colNames := by
      rw [h.colNames_eq, ExtTreeMap.mem_keys, ExtTreeMap.mem_iff_isSome_getElem?, hcol]
      rfl
    simp [hmem]

variable {r : Row}

/-- A collection retains, in each column, what the rule of the family
retains. -/
theorem gcWithChanges_column (h : r.Normal) (rules : GoMap GcRule) (nowMicros : Int)
    (fam col : Bytes) :
    (r.gcWithChanges rules nowMicros).1.column fam col =
      keptCells rules nowMicros fam (r.column fam col) := by
  unfold Row.gcWithChanges
  split_ifs with hempty
  · have hnone : rules[fam]? = none := by
      rw [ExtTreeMap.isEmpty_iff.mp hempty]
      simp
    simp [keptCells, hnone]
  simp only
  rw [normalize_column]
  have hcol : ({ r with families := r.families.map (fun name f =>
        match rules[name]? with
        | none => f
        | some rule => f.gc rule nowMicros) } : Row).column fam col =
      keptCells rules nowMicros fam (r.column fam col) := by
    unfold Row.column keptCells
    simp only [ExtTreeMap.getElem?_map]
    cases hfam : r.families[fam]? with
    | none => cases rules[fam]? <;> simp
    | some f =>
      cases hrule : rules[fam]? with
      | none => simp
      | some rule =>
        simp only [Option.map_some]
        rw [(h fam f hfam).gc_cells rule nowMicros col]
        cases f.cells[col]? <;> simp
  rw [hcol]
  exact sortDesc_eq_self _ ((h.descending fam col).sublist (keptCells_sublist _ _ _ _))

theorem gc_column (h : r.Normal) (rules : GoMap GcRule) (nowMicros : Int) (fam col : Bytes) :
    (r.gc rules nowMicros).column fam col = keptCells rules nowMicros fam (r.column fam col) :=
  gcWithChanges_column h rules nowMicros fam col

theorem gc_column_of_no_rule (h : r.Normal) {rules : GoMap GcRule} {fam : Bytes}
    (hrule : rules[fam]? = none) (nowMicros : Int) (col : Bytes) :
    (r.gc rules nowMicros).column fam col = r.column fam col := by
  rw [gc_column h, keptCells, hrule]

theorem Row.Normal.gcWithChanges (h : r.Normal) (rules : GoMap GcRule) (nowMicros : Int) :
    (r.gcWithChanges rules nowMicros).1.Normal := by
  unfold Row.gcWithChanges
  split_ifs
  · exact h
  · exact normalize_normal _

/-- A collection keeps the order number of every family it keeps. -/
theorem gcWithChanges_order {rules : GoMap GcRule} {nowMicros : Int} {fam : Bytes} {f' : Family}
    (h : (r.gcWithChanges rules nowMicros).1.families[fam]? = some f') :
    ∃ f, r.families[fam]? = some f ∧ f'.order = f.order := by
  unfold Row.gcWithChanges at h
  split_ifs at h
  · exact ⟨f', h, rfl⟩
  rw [normalize_families, ExtTreeMap.getElem?_map] at h
  cases hfam : r.families[fam]? with
  | none => simp [hfam] at h
  | some f =>
    simp only [hfam, Option.map_some, Option.bind_some] at h
    refine ⟨f, rfl, ?_⟩
    rw [Family.normalize_order h]
    cases rules[fam]? <;> rfl

/-- The reported removals are the removed cells of all columns. -/
theorem mem_gcWithChanges_snd (h : r.Normal) (rules : GoMap GcRule) (nowMicros : Int)
    (m : Mutation) :
    m ∈ (r.gcWithChanges rules nowMicros).2 ↔
      ∃ fam col c,
        c ∈ removedCells rules nowMicros fam (r.column fam col) ∧
        m = gcChange fam col c := by
  unfold Row.gcWithChanges
  split_ifs with hempty
  · have hnone : ∀ fam : Bytes, rules[fam]? = none := by
      rw [ExtTreeMap.isEmpty_iff.mp hempty]
      simp
    simp [removedCells, hnone]
  simp only [mem_flatMap, Prod.exists]
  constructor
  · rintro ⟨fam, f, hmem, hm⟩
    rw [mem_sortedFamilies] at hmem
    cases hrule : rules[fam]? with
    | none => simp [hrule] at hm
    | some rule =>
      simp only [hrule, Family.gcChanges, mem_flatMap, mem_map] at hm
      obtain ⟨col, _, c, hc, rfl⟩ := hm
      refine ⟨fam, col, c, ?_, rfl⟩
      simpa [removedCells, hrule, Row.column, hmem] using hc
  rintro ⟨fam, col, c, hc, rfl⟩
  unfold removedCells at hc
  cases hrule : rules[fam]? with
  | none => simp [hrule] at hc
  | some rule =>
    simp only [hrule] at hc
    have hne : r.column fam col ≠ [] := by
      intro hnil
      simp [hnil] at hc
    obtain ⟨f, hfam⟩ := exists_family_of_column hne
    refine ⟨fam, f, mem_sortedFamilies.mpr hfam, ?_⟩
    simp only [hrule, Family.gcChanges, mem_flatMap, mem_map]
    refine ⟨col, ?_, c, ?_, rfl⟩
    · have hcell := h.cells_eq hfam col
      rw [if_neg hne] at hcell
      rw [(h fam f hfam).colNames_eq, ExtTreeMap.mem_keys,
        ExtTreeMap.mem_iff_isSome_getElem?, hcell]
      rfl
    · simpa [Row.column, hfam] using hc

end Columns

end Bttest
end LittleBigtable
