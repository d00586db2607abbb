import LittleBigtable.Bttest.ReadResult
import LittleBigtable.Bttest.RowInvariant

/-!
# The restriction of a row to a view

A view decides cell by cell, by row key, family and column.  The restriction of a
row therefore keeps whole columns, and it commutes with garbage collection, which
treats each column by itself.
-/

namespace LittleBigtable
namespace Bttest

section Restriction

/-- The view contains the cells of the column. -/
def ViewPolicy.contains (p : ViewPolicy) (key fam col : Bytes) : Bool :=
  p.rowAllowed key && p.cellAllowed fam col

/-- The cells of a row that the target of a request may see. -/
def restrictTo (view : Option ViewPolicy) (r : Row) : Row :=
  match view with
  | none => r
  | some p => p.restrict r

variable {p : ViewPolicy} {view : Option ViewPolicy} {r : Row}

theorem restrict_column (h : r.Normal) (fam col : Bytes) :
    (p.restrict r).column fam col =
      if p.contains r.key fam col then r.column fam col else [] := by
  unfold ViewPolicy.restrict ViewPolicy.contains
  by_cases hrow : p.rowAllowed r.key = true
  · rw [if_pos hrow, normalize_column, hrow, Bool.true_and]
    have hcells : ({ r with
        families := r.families.map (fun name fam =>
          { fam with
            colNames := []
            cells := fam.cells.filter (fun col cs =>
              p.cellAllowed name col && decide (cs ≠ [])) }) } : Row).column fam col =
        if p.cellAllowed fam col then r.column fam col else [] := by
      unfold Row.column
      simp only [Std.ExtTreeMap.getElem?_map]
      cases r.families[fam]? with
      | none => simp
      | some f =>
        simp only [Option.map_some, Std.ExtTreeMap.getElem?_filter']
        cases hcol : f.cells[col]? with
        | none => simp
        | some cs =>
          cases p.cellAllowed fam col with
          | false => simp
          | true =>
            by_cases hcs : cs = []
            · simp [hcs, Option.filter_some]
            · simp [hcs, Option.filter_some]
    rw [hcells]
    split_ifs
    · exact StableSort.sortDesc_eq_self _ (h.descending fam col)
    · rfl
  · rw [if_neg hrow, newRow_column, Bool.not_eq_true] at *
    rw [hrow]
    rfl

theorem restrict_order {fam : Bytes} {f : Family} (h : (p.restrict r).families[fam]? = some f) :
    ∃ f₀, r.families[fam]? = some f₀ ∧ f.order = f₀.order := by
  unfold ViewPolicy.restrict at h
  split_ifs at h
  · rw [normalize_families, Std.ExtTreeMap.getElem?_map] at h
    cases hfam : r.families[fam]? with
    | none => simp [hfam] at h
    | some f₀ =>
      simp only [hfam, Option.map_some, Option.bind_some] at h
      have horder := Family.normalize_order h
      exact ⟨f₀, rfl, horder⟩
  · simp [newRow] at h

@[simp] theorem gc_key (r : Row) (rules : GoMap GcRule) (nowMicros : Int) :
    (r.gc rules nowMicros).key = r.key :=
  gcWithChanges_key

theorem gc_normal (h : r.Normal) (rules : GoMap GcRule) (nowMicros : Int) :
    (r.gc rules nowMicros).Normal :=
  h.gcWithChanges rules nowMicros

/-- Restriction and garbage collection commute. -/
theorem gc_restrict (h : r.Normal) (rules : GoMap GcRule) (nowMicros : Int) :
    (p.restrict r).gc rules nowMicros = p.restrict (r.gc rules nowMicros) := by
  refine Row.Normal.ext (gc_normal (restrict_normal) rules nowMicros)
    (restrict_normal) ?_ ?_ ?_
  · rw [gc_key, restrict_key, restrict_key, gc_key]
  · intro fam col
    rw [gc_column (restrict_normal), restrict_column h,
      restrict_column (gc_normal h rules nowMicros), gc_key, gc_column h]
    split_ifs
    · rfl
    · exact List.sublist_nil.mp (keptCells_sublist rules nowMicros fam [])
  · intro fam f₁ f₂ hf₁ hf₂
    obtain ⟨f₃, hf₃, ho₁⟩ := gcWithChanges_order hf₁
    obtain ⟨f₄, hf₄, ho₂⟩ := restrict_order hf₃
    obtain ⟨f₅, hf₅, ho₃⟩ := restrict_order hf₂
    obtain ⟨f₆, hf₆, ho₄⟩ := gcWithChanges_order hf₅
    rw [hf₄] at hf₆
    cases hf₆
    rw [ho₁, ho₂, ho₃, ho₄]

theorem restrictTo_normal (view : Option ViewPolicy) (h : r.Normal) :
    (restrictTo view r).Normal := by
  cases view with
  | none => exact h
  | some p => exact restrict_normal

@[simp] theorem restrictTo_key :
    (restrictTo view r).key = r.key := by
  cases view with
  | none => rfl
  | some p => exact restrict_key p r

theorem restrictTo_column_sublist (view : Option ViewPolicy) (h : r.Normal) (fam col : Bytes) :
    ((restrictTo view r).column fam col).Sublist (r.column fam col) := by
  cases view with
  | none => exact List.Sublist.refl _
  | some p =>
    change ((p.restrict r).column fam col).Sublist (r.column fam col)
    rw [restrict_column h]
    split_ifs
    · exact List.Sublist.refl _
    · exact List.nil_sublist _

theorem isEmpty_gc (h : r.Normal) (hempty : r.isEmpty = true) (rules : GoMap GcRule)
    (nowMicros : Int) :
    (r.gc rules nowMicros).isEmpty = true := by
  rw [isEmpty_iff] at hempty ⊢
  intro fam col
  rw [gc_column h, hempty fam col]
  exact List.sublist_nil.mp (keptCells_sublist rules nowMicros fam [])

/-- A read shows what is left of the restricted row after garbage collection; of a
row outside the view, nothing is left. -/
theorem visibleRow_eq {tbl : Table} (h : r.WellFormed tbl.families tbl.granularity) {micros : Int} :
    visibleRow tbl view micros r = some ((restrictTo view r).gc tbl.gcRules micros) ∨
      (visibleRow tbl view micros r = none ∧
        ((restrictTo view r).gc tbl.gcRules micros).isEmpty = true) := by
  have hknown : dropUnknownFamilies tbl.families r = r := by
    refine dropUnknownFamilies_eq_self (fun fam f hf => ?_)
    obtain ⟨cf, hcf, _⟩ := h.schema fam f hf
    simp [hcf]
  unfold visibleRow restrictTo
  rw [hknown]
  cases view with
  | none => exact .inl rfl
  | some p =>
    simp only
    rw [gc_restrict h.normal]
    split_ifs with hrow
    · exact .inl rfl
    refine .inr ⟨rfl, ?_⟩
    unfold ViewPolicy.restrict
    rw [if_neg hrow, isEmpty_iff]
    intro fam col
    exact newRow_column _ fam col

end Restriction

end Bttest
end LittleBigtable
