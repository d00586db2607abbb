import LittleBigtable.Bttest.Wire
import LittleBigtable.Lib.StableSort
import LittleBigtable.Lib.Lexicographic
import LittleBigtable.Lib.FiniteMap

/-!
# Rows, families and cells

The in-memory row of the emulator: a map from family names to families, each
with its creation order, its list of column names and its map from column names
to cells.  The representation is redundant, since the column names are the keys
of the cell map; `normalize` re-establishes that and drops what is empty.

A family is stored under its own name wherever the code creates or copies one,
so the name is the key of the map and not a second field.  Rows are values here,
so the deep copies the code takes before it changes a row are the rows
themselves.
-/

namespace LittleBigtable
namespace Bttest

open StableSort List FiniteMap Std

/-- One cell of a column. -/
structure Cell where
  ts : Int
  value : Bytes
  labels : List Bytes
deriving DecidableEq

/-- A family of a row: its creation order, its column names in ascending order
and its cells by column name, newest first. -/
structure Family where
  order : Nat
  colNames : List Bytes
  cells : GoMap (List Cell)
deriving DecidableEq

/-- A row: its key and its families by name. -/
structure Row where
  key : Bytes
  families : GoMap Family
deriving DecidableEq

def newRow (key : Bytes) : Row :=
  ⟨key, ∅⟩

/-- `sort.Strings`. -/
def sortStrings (l : List Bytes) : List Bytes :=
  l.insertionSort (fun a b => a ≤ b)

/-- `sort.Stable(byDescTS(cs))`.  The code sorts with the unstable `sort.Sort`
only where all timestamps differ. -/
def sortCells (cs : List Cell) : List Cell :=
  sortDesc Cell.ts cs

/-- The row holds no cell. -/
def Row.isEmpty (r : Row) : Bool :=
  r.families.toList.all (fun fam => fam.2.cells.toList.all (fun col => col.2.isEmpty))

/-- `byCreationOrder`: ascending order number, then name. -/
def byCreationOrder (a b : Bytes × Family) : Prop :=
  a.2.order < b.2.order ∨ (a.2.order = b.2.order ∧ a.1 ≤ b.1)

instance : DecidableRel byCreationOrder := by
  intro a b
  unfold byCreationOrder
  infer_instance

/-- The families of the row, with their names, in ascending creation order. -/
def Row.sortedFamilies (r : Row) : List (Bytes × Family) :=
  r.families.toList.insertionSort byCreationOrder

/-- The family `name` of the row, or a new empty one. -/
def Row.getOrCreateFamily (r : Row) (name : Bytes) (order : Nat) : Family :=
  r.families[name]?.getD ⟨order, [], ∅⟩

/-- The cells of a column; a column that is not there yet enters the column
names. -/
def Family.cellsByColumn (f : Family) (name : Bytes) : Family × List Cell :=
  match f.cells[name]? with
  | some cs => (f, cs)
  | none => ({ f with colNames := sortStrings (f.colNames ++ [name]) }, [])

/-- `f.Cells[col] = change(f.cellsByColumn(col))` on the family `fam` of the row,
which is created when it is not there. -/
def Row.updateColumn (r : Row) (fam : Bytes) (order : Nat) (col : Bytes)
    (change : List Cell → List Cell) : Row :=
  let (f, cs) := (r.getOrCreateFamily fam order).cellsByColumn col
  { r with
    families := r.families.insert fam
      { f with cells := f.cells.insert col (change cs) } }

/-- The family part of `normalize`: drop empty columns, sort the others by
descending timestamp, and list the column names; `none` when nothing is left. -/
def Family.normalize (f : Family) : Option Family :=
  let cells := f.cells.filterMap (fun _ cs => if cs = [] then none else some (sortCells cs))
  if cells.isEmpty then
    none
  else
    some { f with colNames := cells.keys, cells := cells }

/-- Sort columns and cells and drop empty columns and families. -/
def Row.normalize (r : Row) : Row :=
  { r with families := r.families.filterMap (fun _ f => f.normalize) }

/-- The cells that the row holds in one column, newest first. -/
def Row.column (r : Row) (fam col : Bytes) : List Cell :=
  match r.families[fam]? with
  | none => []
  | some f => f.cells[col]?.getD []

/-- The order number of a family of the row. -/
def Row.order (r : Row) (fam : Bytes) : Option Nat :=
  r.families[fam]?.map Family.order

section NormalForm

/-- A family as `normalize` leaves it. -/
structure Family.Normal (f : Family) : Prop where
  colNames_eq : f.colNames = f.cells.keys
  nonempty : f.cells ≠ ∅
  columns : ∀ (col : Bytes) (cs : List Cell), f.cells[col]? = some cs →
    cs ≠ [] ∧ Descending Cell.ts cs

/-- A row as `normalize` leaves it. -/
def Row.Normal (r : Row) : Prop :=
  ∀ (name : Bytes) (f : Family), r.families[name]? = some f → f.Normal

variable (key : Bytes) {fam : Bytes}

theorem newRow_normal :
    (newRow key).Normal := by
  intro name f h
  simp [newRow] at h

@[simp] theorem newRow_key :
    (newRow key).key = key := by
  rfl

@[simp] theorem newRow_column (fam col : Bytes) :
    (newRow key).column fam col = [] := by
  simp [Row.column, newRow]

theorem normalize_families (r : Row) (name : Bytes) :
    r.normalize.families[name]? = r.families[name]?.bind Family.normalize := by
  simp [Row.normalize]

variable {f f' : Family}

theorem Family.normalize_cells (h : f.normalize = some f') (col : Bytes) :
    f'.cells[col]? =
      f.cells[col]?.bind (fun cs => if cs = [] then none else some (sortCells cs)) := by
  unfold Family.normalize at h
  simp only at h
  split_ifs at h
  cases h
  simp

theorem Family.normalize_order (h : f.normalize = some f') :
    f'.order = f.order := by
  unfold Family.normalize at h
  simp only at h
  split_ifs at h
  cases h
  rfl

/-- A family disappears exactly when all its columns are empty. -/
theorem Family.normalize_eq_none_iff (f : Family) :
    f.normalize = none ↔ ∀ (col : Bytes) (cs : List Cell), f.cells[col]? = some cs → cs = [] := by
  unfold Family.normalize
  simp only [ite_eq_left_iff, reduceCtorEq, imp_false, not_not, ExtTreeMap.isEmpty_iff]
  rw [eq_empty_iff]
  constructor
  · intro h col cs hcol
    have hcol' := h col
    simpa [hcol] using hcol'
  intro h col
  cases hcol : f.cells[col]? with
  | none => simp [hcol]
  | some cs => simp [hcol, h col cs hcol]

theorem Family.normalize_normal (h : f.normalize = some f') :
    f'.Normal := by
  have hcells := Family.normalize_cells h
  unfold Family.normalize at h
  simp only at h
  split_ifs at h with hempty
  cases h
  refine ⟨rfl, ?_, ?_⟩
  · simpa using hempty
  intro col cs hcol
  rw [hcells] at hcol
  cases hf : f.cells[col]? with
  | none => simp [hf] at hcol
  | some cs' =>
    simp only [hf, Option.bind_some] at hcol
    split_ifs at hcol with hnil
    cases hcol
    exact ⟨by simpa [sortCells] using hnil, descending_sortDesc _ _⟩

theorem normalize_normal (r : Row) :
    r.normalize.Normal := by
  intro name f h
  rw [normalize_families] at h
  obtain ⟨f₀, _, hf⟩ := Option.bind_eq_some_iff.mp h
  exact Family.normalize_normal hf

/-- The columns of a normalized row are the sorted columns of the row. -/
theorem normalize_column (r : Row) (fam col : Bytes) :
    r.normalize.column fam col = sortCells (r.column fam col) := by
  unfold Row.column
  rw [normalize_families]
  cases hfam : r.families[fam]? with
  | none => rfl
  | some f =>
    simp only [Option.bind_some]
    cases hnorm : f.normalize with
    | none =>
      have hempty := (Family.normalize_eq_none_iff f).mp hnorm
      cases hcol : f.cells[col]? with
      | none => rfl
      | some cs =>
        rw [hempty col cs hcol]
        rfl
    | some f' =>
      simp only [Family.normalize_cells hnorm col]
      cases hcol : f.cells[col]? with
      | none => rfl
      | some cs =>
        by_cases hnil : cs = []
        · simp [hnil, sortCells]
        · simp [hnil]

variable {r : Row}

theorem Row.Normal.descending (h : r.Normal) (fam col : Bytes) :
    Descending Cell.ts (r.column fam col) := by
  unfold Row.column
  cases hfam : r.families[fam]? with
  | none => exact List.Pairwise.nil
  | some f =>
    cases hcol : f.cells[col]? with
    | none => simp [hcol, Descending]
    | some cs => simpa [hcol] using ((h fam f hfam).columns col cs hcol).2

theorem Row.Normal.exists_column (h : r.Normal) (hfam : r.families[fam]? = some f) :
    ∃ col, r.column fam col ≠ [] := by
  have hne := (h fam f hfam).nonempty
  rw [ne_eq, eq_empty_iff, not_forall] at hne
  obtain ⟨col, hcol⟩ := hne
  obtain ⟨cs, hcs⟩ := Option.ne_none_iff_exists'.mp hcol
  refine ⟨col, ?_⟩
  simpa [Row.column, hfam, hcs] using ((h fam f hfam).columns col cs hcs).1

theorem exists_family_of_column {col : Bytes} (h : r.column fam col ≠ []) :
    ∃ f, r.families[fam]? = some f := by
  unfold Row.column at h
  cases hfam : r.families[fam]? with
  | none => simp [hfam] at h
  | some f => exact ⟨f, rfl⟩

theorem Row.Normal.cells_eq (h : r.Normal) (hfam : r.families[fam]? = some f) (col : Bytes) :
    f.cells[col]? =
      if r.column fam col = [] then none else some (r.column fam col) := by
  cases hcol : f.cells[col]? with
  | none => simp [Row.column, hfam, hcol]
  | some cs =>
    have hne := ((h fam f hfam).columns col cs hcol).1
    simp [Row.column, hfam, hcol, hne]

/-- A normal row is determined by its key, its columns and the order numbers of
the families that hold cells. -/
theorem Row.Normal.ext {r₁ r₂ : Row} (h₁ : r₁.Normal) (h₂ : r₂.Normal) (hkey : r₁.key = r₂.key)
    (hcol : ∀ fam col, r₁.column fam col = r₂.column fam col)
    (hord : ∀ (fam : Bytes) (f₁ f₂ : Family), r₁.families[fam]? = some f₁ →
      r₂.families[fam]? = some f₂ → f₁.order = f₂.order) :
    r₁ = r₂ := by
  obtain ⟨key₁, fams₁⟩ := r₁
  obtain ⟨key₂, fams₂⟩ := r₂
  simp only [Row.mk.injEq]
  refine ⟨hkey, ExtTreeMap.ext_getElem? (fun fam => ?_)⟩
  cases hf₁ : fams₁[fam]? with
  | none =>
    cases hf₂ : fams₂[fam]? with
    | none => rfl
    | some f₂ =>
      obtain ⟨col, hne⟩ := h₂.exists_column hf₂
      rw [← hcol] at hne
      obtain ⟨f₁, hf⟩ := exists_family_of_column hne
      rw [hf₁] at hf
      cases hf
  | some f₁ =>
    cases hf₂ : fams₂[fam]? with
    | none =>
      obtain ⟨col, hne⟩ := h₁.exists_column hf₁
      rw [hcol] at hne
      obtain ⟨f₂, hf⟩ := exists_family_of_column hne
      rw [hf₂] at hf
      cases hf
    | some f₂ =>
      have hcells : f₁.cells = f₂.cells := by
        refine ExtTreeMap.ext_getElem? (fun col => ?_)
        rw [h₁.cells_eq hf₁ col, h₂.cells_eq hf₂ col, hcol]
      have hnames : f₁.colNames = f₂.colNames := by
        rw [(h₁ fam f₁ hf₁).colNames_eq, (h₂ fam f₂ hf₂).colNames_eq, hcells]
      have horder := hord fam f₁ f₂ hf₁ hf₂
      obtain ⟨o₁, n₁, c₁⟩ := f₁
      obtain ⟨o₂, n₂, c₂⟩ := f₂
      simp_all

theorem Row.Normal.normalize_eq (h : r.Normal) :
    r.normalize = r := by
  refine Row.Normal.ext (normalize_normal r) h rfl ?_ ?_
  · intro fam col
    rw [normalize_column]
    exact sortDesc_eq_self _ (h.descending fam col)
  · intro fam f₁ f₂ hf₁ hf₂
    rw [normalize_families, hf₂, Option.bind_some] at hf₁
    exact Family.normalize_order hf₁

/-- A row is empty exactly when all its columns are. -/
theorem isEmpty_iff (r : Row) :
    r.isEmpty = true ↔ ∀ fam col, r.column fam col = [] := by
  unfold Row.isEmpty
  rw [all_toList_iff]
  constructor
  · intro h fam col
    unfold Row.column
    cases hfam : r.families[fam]? with
    | none => rfl
    | some f =>
      have hall := (all_toList_iff _ _).mp (h fam f hfam)
      cases hcol : f.cells[col]? with
      | none => simp [hcol]
      | some cs => simpa [hcol] using hall col cs hcol
  · intro h fam f hfam
    rw [all_toList_iff]
    intro col cs hcol
    have hcolumn := h fam col
    simpa [Row.column, hfam, hcol] using hcolumn

/-- A normal row is empty exactly when it has no family. -/
theorem Row.Normal.isEmpty_iff_families (h : r.Normal) :
    r.isEmpty = true ↔ r.families = ∅ := by
  rw [isEmpty_iff, eq_empty_iff]
  constructor
  · intro hcol fam
    cases hfam : r.families[fam]? with
    | none => rfl
    | some f =>
      obtain ⟨col, hne⟩ := h.exists_column hfam
      exact absurd (hcol fam col) hne
  · intro hfam fam col
    simp [Row.column, hfam fam]

theorem mem_sortedFamilies :
    (fam, f) ∈ r.sortedFamilies ↔ r.families[fam]? = some f := by
  unfold Row.sortedFamilies
  rw [(perm_insertionSort _ _).mem_iff, ExtTreeMap.mem_toList_iff_getElem?_eq_some]

end NormalForm

section ColumnUpdates

variable {β : Type} (m : GoMap β)

theorem keys_pairwise_lt :
    m.keys.Pairwise (fun a b => a < b) := by
  refine ExtTreeMap.ordered_keys.imp (fun {a b} h => ?_)
  exact (Lexicographic.compare_eq_lt_iff a b).mp h

theorem keys_nodup :
    m.keys.Nodup :=
  (keys_pairwise_lt m).imp (fun {a b} h heq => by
    subst heq
    exact Std.lt_irrefl h)

theorem eq_of_pairwise_lt {l₁ l₂ : List Bytes} (h₁ : l₁.Pairwise (fun a b => a < b))
    (h₂ : l₂.Pairwise (fun a b => a < b)) (hmem : ∀ a, a ∈ l₁ ↔ a ∈ l₂) :
    l₁ = l₂ := by
  have hnodup : ∀ {l : List Bytes}, l.Pairwise (fun a b => a < b) → l.Nodup :=
    fun h => h.imp (fun {a b} hab heq => by
      subst heq
      exact Std.lt_irrefl hab)
  have hanti : ∀ a b, a ∈ l₁ → b ∈ l₂ → a < b → b < a → a = b :=
    fun a b _ _ hab hba => absurd hba (Std.not_gt_of_lt hab)
  have hperm : l₁.Perm l₂ := (perm_ext_iff_of_nodup (hnodup h₁) (hnodup h₂)).mpr hmem
  exact hperm.eq_of_pairwise hanti h₁ h₂

theorem mem_sortStrings {a : Bytes} {l : List Bytes} :
    a ∈ sortStrings l ↔ a ∈ l :=
  (List.perm_insertionSort _ l).mem_iff

theorem sortStrings_pairwise_lt {l : List Bytes} (h : l.Nodup) :
    (sortStrings l).Pairwise (fun a b => a < b) := by
  have htotal : Std.Total (fun a b : Bytes => a ≤ b) := ⟨fun a b => Std.le_total⟩
  have htrans : IsTrans Bytes (fun a b => a ≤ b) := ⟨fun _ _ _ => Std.le_trans⟩
  have hle := pairwise_insertionSort (fun a b : Bytes => a ≤ b) l
  have hne : (sortStrings l).Pairwise (fun a b => a ≠ b) :=
    (perm_insertionSort _ l).nodup_iff.mpr h
  exact (hle.and hne).imp (fun {a b} hab =>
    Std.lt_of_le_of_ne hab.1 hab.2)

/-- Adding a new column name to the sorted names gives the keys of the map with
the new column. -/
theorem sortStrings_keys_append {m : GoMap β} {name : Bytes} (hnew : m[name]? = none) (v : β) :
    sortStrings (m.keys ++ [name]) = (m.insert name v).keys := by
  have hnot : name ∉ m := by
    rw [ExtTreeMap.mem_iff_isSome_getElem?, hnew]
    simp
  refine eq_of_pairwise_lt (sortStrings_pairwise_lt ?_) (keys_pairwise_lt _) ?_
  · rw [nodup_append]
    refine ⟨keys_nodup m, nodup_singleton name, ?_⟩
    intro a ha b hb heq
    rw [mem_singleton] at hb
    subst heq
    subst hb
    exact hnot (ExtTreeMap.mem_keys.mp ha)
  intro a
  rw [mem_sortStrings]
  simp only [mem_append, ExtTreeMap.mem_keys, mem_singleton,
    ExtTreeMap.mem_insert, Std.compare_eq_iff_eq]
  constructor
  · rintro (h | h)
    · exact .inr h
    · exact .inl h.symm
  · rintro (h | h)
    · exact .inr h.symm
    · exact .inl h

/-- Removing a column name from the sorted names gives the keys of the map
without the column. -/
theorem keys_erase (name : Bytes) :
    m.keys.erase name = (m.erase name).keys := by
  refine eq_of_pairwise_lt ?_ (keys_pairwise_lt _) ?_
  · exact (keys_pairwise_lt m).sublist erase_sublist
  intro a
  rw [(keys_nodup m).mem_erase_iff]
  simp only [ExtTreeMap.mem_keys, ExtTreeMap.mem_erase, ne_eq,
    Std.compare_eq_iff_eq, and_congr_left_iff]
  intro _
  constructor
  · exact fun h heq => h heq.symm
  · exact fun h heq => h heq.symm

variable (r : Row) (fam : Bytes) (order : Nat) (col : Bytes) (change : List Cell → List Cell)

@[simp] theorem updateColumn_key :
    (r.updateColumn fam order col change).key = r.key := by
  rfl

/-- The cells that `cellsByColumn` returns are the cells of the column. -/
theorem cellsByColumn_snd :
    ((r.getOrCreateFamily fam order).cellsByColumn col).2 = r.column fam col := by
  unfold Row.getOrCreateFamily Family.cellsByColumn Row.column
  cases hfam : r.families[fam]? with
  | none => simp
  | some f =>
    cases hcol : f.cells[col]? with
    | none | some => simp [hcol]

/-- `cellsByColumn` changes no cell and no order number. -/
theorem cellsByColumn_fst (f : Family) (col : Bytes) :
    (f.cellsByColumn col).1.cells = f.cells ∧ (f.cellsByColumn col).1.order = f.order := by
  unfold Family.cellsByColumn
  cases f.cells[col]? with
  | none | some => exact ⟨rfl, rfl⟩

/-- Looking up a family after a column update. -/
theorem updateColumn_families (fam' : Bytes) :
    (r.updateColumn fam order col change).families[fam']? =
      if fam' = fam then
        some { ((r.getOrCreateFamily fam order).cellsByColumn col).1 with
          cells := (r.getOrCreateFamily fam order).cells.insert col
            (change (r.column fam col)) }
      else
        r.families[fam']? := by
  have hsnd := cellsByColumn_snd r fam order col
  have hfst := (cellsByColumn_fst (r.getOrCreateFamily fam order) col).1
  unfold Row.updateColumn
  simp only [ExtTreeMap.getElem?_insert, Std.compare_eq_iff_eq, hsnd, hfst]
  by_cases h : fam' = fam
  · subst h
    simp
  · have h' : fam ≠ fam' := fun heq => h heq.symm
    simp [h, h']

/-- A column update changes one column of the row. -/
theorem updateColumn_column (fam' col' : Bytes) :
    (r.updateColumn fam order col change).column fam' col' =
      if fam' = fam ∧ col' = col then
        change (r.column fam col)
      else
        r.column fam' col' := by
  rw [Row.column, updateColumn_families]
  by_cases hfam : fam' = fam
  · subst hfam
    by_cases hcol : col' = col
    · subst hcol
      simp
    have hcol' : col ≠ col' := fun heq => hcol heq.symm
    simp only [if_true, true_and, hcol, if_false,
      ExtTreeMap.getElem?_insert, Std.compare_eq_iff_eq, hcol']
    unfold Row.column Row.getOrCreateFamily
    cases r.families[fam']? with
    | none | some => simp
  · simp [hfam, Row.column]

/-- A column update leaves a normal row normal when the new column is neither
empty nor out of order. -/
theorem Row.Normal.updateColumn {r : Row} (h : r.Normal) (fam : Bytes) (order : Nat) (col : Bytes)
    {change : List Cell → List Cell} (hne : change (r.column fam col) ≠ [])
    (hdesc : Descending Cell.ts (change (r.column fam col))) :
    (r.updateColumn fam order col change).Normal := by
  intro name f hf
  rw [updateColumn_families] at hf
  split_ifs at hf with hname
  · cases hf
    -- the family before the update, existing or new, lists exactly its columns
    have hnames : (r.getOrCreateFamily fam order).colNames =
        (r.getOrCreateFamily fam order).cells.keys := by
      unfold Row.getOrCreateFamily
      cases hfam : r.families[fam]? with
      | none => simp
      | some f => simpa using (h fam f hfam).colNames_eq
    have hcols : ∀ (col : Bytes) (cs : List Cell),
        (r.getOrCreateFamily fam order).cells[col]? = some cs →
          cs ≠ [] ∧ Descending Cell.ts cs := by
      unfold Row.getOrCreateFamily
      cases hfam : r.families[fam]? with
      | none => simp
      | some f => simpa using (h fam f hfam).columns
    refine ⟨?_, ?_, ?_⟩
    · unfold Family.cellsByColumn
      cases hcol : (r.getOrCreateFamily fam order).cells[col]? with
      | none =>
        simp only [hnames]
        exact sortStrings_keys_append hcol _
      | some cs =>
        simp only [hnames]
        refine eq_of_pairwise_lt (keys_pairwise_lt _) (keys_pairwise_lt _) ?_
        intro a
        simp only [ExtTreeMap.mem_keys, ExtTreeMap.mem_insert, Std.compare_eq_iff_eq]
        constructor
        · exact .inr
        · rintro (rfl | h)
          · exact ExtTreeMap.mem_iff_isSome_getElem?.mpr (by simp [hcol])
          · exact h
    · intro hempty
      have hcol := (eq_empty_iff _).mp hempty col
      simp at hcol
    · intro col' cs hcs
      simp only [ExtTreeMap.getElem?_insert, Std.compare_eq_iff_eq] at hcs
      split_ifs at hcs with hcol
      · cases hcs
        exact ⟨hne, hdesc⟩
      · exact hcols col' cs hcs
  · exact h name f hf

end ColumnUpdates

end Bttest
end LittleBigtable
