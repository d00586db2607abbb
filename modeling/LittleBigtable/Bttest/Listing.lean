import Mathlib.Data.Prod.Lex
import Mathlib.Order.Std
import LittleBigtable.Bttest.Filter
import LittleBigtable.Lib.Grouped

/-!
# The listing of a row

The cells of a row as one list: families in creation order, columns in ascending
order, cells by descending timestamp.  The listing of a normal row is sorted, and
it is determined by its columns; so every operation on rows that is known column
by column is known on listings.
-/

namespace LittleBigtable
namespace Bttest

open StableSort List
open Grouped

instance instLinearOrderBytes : LinearOrder Bytes :=
  LinearOrder.ofStd Bytes

/-- A cell with its place in the row. -/
structure ListedCell where
  family : Bytes
  order : Nat
  column : Bytes
  cell : Cell
deriving DecidableEq

/-- The place of a cell in a listing; a cell with a greater key comes first. -/
def ListedCell.key (x : ListedCell) : (ℕ ×ₗ Bytes ×ₗ Bytes ×ₗ ℤᵒᵈ)ᵒᵈ :=
  OrderDual.toDual (toLex (x.order, toLex (x.family, toLex (x.column, OrderDual.toDual x.cell.ts))))

/-- The column of a listed cell. -/
def ListedCell.place (x : ListedCell) : Bytes × Bytes :=
  (x.family, x.column)

/-- Order cells by family, column and descending timestamp; cells with the same
timestamp in a column keep their order. -/
def sortListing (l : List ListedCell) : List ListedCell :=
  sortDesc ListedCell.key l

/-- The cells of one column. -/
def listColumn (family : Bytes) (order : Nat) (column : Bytes) (cs : List Cell) : List ListedCell :=
  cs.map (fun c => ⟨family, order, column, c⟩)

def Family.listing (f : Family) (name : Bytes) : List ListedCell :=
  f.colNames.flatMap (fun col =>
    listColumn name f.order col (f.cells[col]?.getD []))

/-- The cells of a row in the order in which they are read. -/
def Row.listing (r : Row) : List ListedCell :=
  r.sortedFamilies.flatMap (fun fam => fam.2.listing fam.1)

section Keys

theorem key_le_key_iff (x y : ListedCell) :
    y.key ≤ x.key ↔
      x.order < y.order ∨ (x.order = y.order ∧
        (x.family < y.family ∨ (x.family = y.family ∧
          (x.column < y.column ∨ (x.column = y.column ∧ y.cell.ts ≤ x.cell.ts))))) := by
  unfold ListedCell.key
  rw [OrderDual.toDual_le_toDual, Prod.Lex.toLex_le_toLex,
    Prod.Lex.toLex_le_toLex, Prod.Lex.toLex_le_toLex, OrderDual.toDual_le_toDual]

theorem place_eq_of_key_eq (x y : ListedCell) (h : x.key = y.key) :
    x.place = y.place := by
  have hfst := congrArg (fun k => (ofLex (ofLex (OrderDual.ofDual k)).2).1) h
  have hsnd := congrArg (fun k => (ofLex (ofLex (ofLex (OrderDual.ofDual k)).2).2).1) h
  exact Prod.ext hfst hsnd

theorem sortListing_listColumn (family : Bytes) (order : Nat) (column : Bytes) (cs : List Cell) :
    sortListing (listColumn family order column cs) =
      listColumn family order column (sortCells cs) := by
  refine sortDesc_map ListedCell.key Cell.ts _ (fun a b => ?_) cs
  rw [key_le_key_iff]
  simp

theorem filter_listColumn (family : Bytes) (order : Nat) (column : Bytes) (cs : List Cell)
    (place : Bytes × Bytes) :
    (listColumn family order column cs).filter (fun x => x.place = place) =
      if (family, column) = place then
        listColumn family order column cs
      else
        [] := by
  unfold listColumn ListedCell.place
  split_ifs with hplace
  · rw [filter_eq_self]
    simp [hplace]
  · rw [filter_eq_nil_iff]
    simp [hplace]

end Keys

section Rows

variable {r : Row}

/-- The families of the row have the order numbers `ord`. -/
def Row.OrderedBy (r : Row) (ord : Bytes → Nat) : Prop :=
  ∀ (fam : Bytes) (f : Family), r.families[fam]? = some f → f.order = ord fam

/-- The order numbers of the families of the row. -/
def Row.orders (r : Row) (fam : Bytes) : Nat :=
  (r.order fam).getD 0

theorem orderedBy_orders (r : Row) :
    r.OrderedBy r.orders := by
  intro fam f hf
  simp [Row.orders, Row.order, hf]

/-- The column names of each family are those of its cells. -/
def Row.Listable (r : Row) : Prop :=
  ∀ (fam : Bytes) (f : Family), r.families[fam]? = some f → f.colNames = f.cells.keys

theorem Row.Normal.listable (h : r.Normal) :
    r.Listable :=
  fun fam f hf => (h fam f hf).colNames_eq

theorem sortedFamilies_nodup (r : Row) :
    (r.sortedFamilies.map Prod.fst).Nodup := by
  have hperm : (r.sortedFamilies.map Prod.fst).Perm r.families.keys := by
    rw [← Std.ExtTreeMap.map_fst_toList_eq_keys]
    exact (perm_insertionSort _ _).map _
  exact hperm.nodup_iff.mpr (keys_nodup _)

/-- The families are listed in strictly ascending order. -/
theorem sortedFamilies_pairwise (r : Row) :
    r.sortedFamilies.Pairwise (fun a b =>
      a.2.order < b.2.order ∨ (a.2.order = b.2.order ∧ a.1 < b.1)) := by
  have htotal : Std.Total byCreationOrder := by
    refine ⟨fun a b => ?_⟩
    unfold byCreationOrder
    rcases Nat.lt_trichotomy a.2.order b.2.order with h | h | h
    · exact .inl (.inl h)
    · rcases le_total a.1 b.1 with hle | hle
      · exact .inl (.inr ⟨h, hle⟩)
      · exact .inr (.inr ⟨h.symm, hle⟩)
    · exact .inr (.inl h)
  have htrans : IsTrans (Bytes × Family) byCreationOrder := by
    refine ⟨fun a b c hab hbc => ?_⟩
    unfold byCreationOrder at *
    rcases hab with hab | ⟨hab, hab'⟩
    · rcases hbc with hbc | ⟨hbc, _⟩
      · exact .inl (hab.trans hbc)
      · exact .inl (hbc ▸ hab)
    · rcases hbc with hbc | ⟨hbc, hbc'⟩
      · exact .inl (hab ▸ hbc)
      · exact .inr ⟨hab.trans hbc, hab'.trans hbc'⟩
  have hsorted : r.sortedFamilies.Pairwise byCreationOrder := pairwise_insertionSort _ _
  have hne := pairwise_map.mp (sortedFamilies_nodup r)
  refine (hsorted.and hne).imp (fun {a b} hab => ?_)
  rcases hab.1 with hlt | ⟨heq, hle⟩
  · exact .inl hlt
  · exact .inr ⟨heq, lt_of_le_of_ne hle hab.2⟩

/-- The cells of one place in a listing are those of the column. -/
theorem Row.Listable.filter_listing (h : r.Listable) {ord : Bytes → Nat} (hord : r.OrderedBy ord)
    (fam col : Bytes) :
    r.listing.filter (fun x => x.place = (fam, col)) =
      listColumn fam (ord fam) col (r.column fam col) := by
  have hfam : ∀ (name : Bytes) (f : Family), r.families[name]? = some f →
      (f.listing name).filter (fun x => x.place = (fam, col)) =
        if name = fam then
          listColumn fam (ord fam) col (f.cells[col]?.getD [])
        else
          [] := by
    intro name f hf
    have hkeys := h name f hf
    unfold Family.listing
    rw [filter_flatMap]
    simp only [filter_listColumn, Prod.mk.injEq]
    split_ifs with hname
    · subst hname
      rw [hord name f hf]
      by_cases hcol : col ∈ f.colNames
      · rw [flatMap_eq_of_unique (hkeys ▸ keys_nodup _) hcol]
        · simp
        · intro col' _ hne
          simp [hne]
      have hnone : f.cells[col]? = none := by
        rw [hkeys, Std.ExtTreeMap.mem_keys, Std.ExtTreeMap.mem_iff_isSome_getElem?] at hcol
        simpa using hcol
      rw [hnone, flatMap_eq_nil_iff.mpr]
      · rfl
      intro col' hcol'
      rw [if_neg]
      rintro ⟨_, rfl⟩
      exact hcol hcol'
    · rw [flatMap_eq_nil_iff]
      intro col' _
      simp [hname]
  unfold Row.listing
  rw [filter_flatMap]
  cases hf : r.families[fam]? with
  | none =>
    have hcolumn : r.column fam col = [] := by
      simp [Row.column, hf]
    rw [hcolumn, flatMap_eq_nil_iff.mpr]
    · rfl
    rintro ⟨name, f⟩ hmem
    rw [mem_sortedFamilies] at hmem
    rw [hfam name f hmem, if_neg]
    rintro rfl
    rw [hf] at hmem
    cases hmem
  | some f =>
    have hcolumn : r.column fam col = f.cells[col]?.getD [] := by
      simp [Row.column, hf]
    rw [hcolumn, flatMap_eq_of_unique (List.Nodup.of_map _
      (sortedFamilies_nodup r)) (mem_sortedFamilies.mpr hf)]
    · rw [hfam fam f hf, if_pos rfl]
    rintro ⟨name, f'⟩ hmem hne
    rw [mem_sortedFamilies] at hmem
    rw [hfam name f' hmem, if_neg]
    rintro rfl
    rw [hf] at hmem
    cases hmem
    exact hne rfl

/-- The listing of a normal row is sorted. -/
theorem Row.Normal.descending_listing (h : r.Normal) :
    Descending ListedCell.key r.listing := by
  have hmem : ∀ {name : Bytes} {f : Family} {x : ListedCell},
      x ∈ f.listing name → x.family = name ∧ x.order = f.order := by
    intro name f x hx
    unfold Family.listing listColumn at hx
    simp only [mem_flatMap, mem_map] at hx
    obtain ⟨_, _, _, _, rfl⟩ := hx
    exact ⟨rfl, rfl⟩
  unfold Descending Row.listing
  rw [pairwise_flatMap]
  refine ⟨?_, ?_⟩
  · rintro ⟨name, f⟩ hf
    rw [mem_sortedFamilies] at hf
    have hnormal := h name f hf
    unfold Family.listing
    rw [pairwise_flatMap]
    refine ⟨?_, ?_⟩
    · intro col _
      unfold listColumn
      rw [pairwise_map]
      have hdesc : Descending Cell.ts (f.cells[col]?.getD []) := by
        cases hcol : f.cells[col]? with
        | none => exact List.Pairwise.nil
        | some cs => exact (hnormal.columns col cs hcol).2
      refine hdesc.imp (fun {a b} hab => ?_)
      rw [key_le_key_iff]
      simpa using hab
    · have hlt := keys_pairwise_lt f.cells
      rw [← hnormal.colNames_eq] at hlt
      refine hlt.imp (fun {a b} hab x hx y hy => ?_)
      unfold listColumn at hx hy
      obtain ⟨_, _, rfl⟩ := mem_map.mp hx
      obtain ⟨_, _, rfl⟩ := mem_map.mp hy
      rw [key_le_key_iff]
      simp [hab]
  · refine (sortedFamilies_pairwise r).imp (fun {a b} hab x hx y hy => ?_)
    obtain ⟨hxf, hxo⟩ := hmem hx
    obtain ⟨hyf, hyo⟩ := hmem hy
    rw [key_le_key_iff, hxf, hxo, hyf, hyo]
    rcases hab with hlt | ⟨heq, hlt⟩
    · exact .inl hlt
    · exact .inr ⟨heq, .inl hlt⟩

theorem Row.Normal.listing_eq (h : r.Normal) {ord : Bytes → Nat} (hord : r.OrderedBy ord)
    {l : List ListedCell} (hsorted : Descending ListedCell.key l)
    (hcols : ∀ fam col, l.filter (fun x => x.place = (fam, col)) =
      listColumn fam (ord fam) col (r.column fam col)) :
    r.listing = l := by
  refine eq_of_groups_eq ListedCell.key ListedCell.place place_eq_of_key_eq
    h.descending_listing hsorted ?_
  rintro ⟨fam, col⟩
  rw [h.listable.filter_listing hord, hcols]

/-- A normal row is empty exactly when its listing is. -/
theorem Row.Normal.isEmpty_iff_listing (h : r.Normal) :
    r.isEmpty = true ↔ r.listing = [] := by
  have hord := orderedBy_orders r
  rw [isEmpty_iff]
  constructor
  · intro hcol
    refine h.listing_eq hord List.Pairwise.nil (fun fam col => ?_)
    rw [hcol]
    rfl
  intro hnil fam col
  have hfilter := h.listable.filter_listing hord fam col
  rw [hnil] at hfilter
  unfold listColumn at hfilter
  exact map_eq_nil_iff.mp hfilter.symm

/-- A normal row is determined by its key and its listing. -/
theorem Row.Normal.eq_of_listing {r' : Row} (h : r.Normal) (h' : r'.Normal) (hkey : r.key = r'.key)
    (hlisting : r.listing = r'.listing) :
    r = r' := by
  have hcells : ∀ fam col,
      listColumn fam (r.orders fam) col (r.column fam col) =
        listColumn fam (r'.orders fam) col (r'.column fam col) := by
    intro fam col
    rw [← h.listable.filter_listing (orderedBy_orders r),
      ← h'.listable.filter_listing (orderedBy_orders r'), hlisting]
  have hcol : ∀ fam col, r.column fam col = r'.column fam col := by
    intro fam col
    have hmap := congrArg (List.map ListedCell.cell) (hcells fam col)
    unfold listColumn at hmap
    simpa [Function.comp_def] using hmap
  refine h.ext h' hkey hcol (fun fam f f' hf hf' => ?_)
  rw [orderedBy_orders r fam f hf, orderedBy_orders r' fam f' hf']
  -- a family of a normal row has a cell, which carries the order number
  obtain ⟨col, hne⟩ := h.exists_column hf
  obtain ⟨c, cs, hcs⟩ := exists_cons_of_ne_nil hne
  have hhead := hcells fam col
  rw [← hcol, hcs] at hhead
  unfold listColumn at hhead
  rw [map_cons, map_cons, List.cons.injEq] at hhead
  exact congrArg ListedCell.order hhead.1

@[simp] theorem newRow_listing (key : Bytes) :
    (newRow key).listing = [] := by
  rw [← (newRow_normal key).isEmpty_iff_listing, isEmpty_iff]
  exact newRow_column key

end Rows

section Operations

variable {ord : Bytes → Nat} {key : Bytes}

/-- A row that the evaluation of a filter works on. -/
structure Row.Evaluable (r : Row) (ord : Bytes → Nat) (key : Bytes) : Prop where
  normal : r.Normal
  ordered : r.OrderedBy ord
  key_eq : r.key = key

theorem newRow_evaluable {ord : Bytes → Nat} {key : Bytes} :
    (newRow key).Evaluable ord key where
  normal := newRow_normal key
  ordered := by
    intro fam f hf
    simp [newRow] at hf
  key_eq := rfl

theorem Row.OrderedBy.normalize {r : Row} (h : r.OrderedBy ord) (hkey : r.key = key) :
    r.normalize.Evaluable ord key where
  normal := normalize_normal r
  ordered := by
    intro fam f hf
    rw [normalize_families] at hf
    obtain ⟨f₀, hf₀, hnorm⟩ := Option.bind_eq_some_iff.mp hf
    rw [Family.normalize_order hnorm, h fam f₀ hf₀]
  key_eq := hkey

theorem Row.OrderedBy.normalize_listing {r : Row} (h : r.OrderedBy ord) {l : List ListedCell}
    (hsorted : Descending ListedCell.key l)
    (hcols : ∀ fam col, l.filter (fun x => x.place = (fam, col)) =
      listColumn fam (ord fam) col (sortCells (r.column fam col))) :
    r.normalize.listing = l := by
  refine (normalize_normal r).listing_eq (h.normalize rfl).ordered hsorted ?_
  intro fam col
  rw [hcols, normalize_column]

section Merge

variable {dst src : Row}

/-- The cells of a row with those of another appended, before normalization. -/
def appendCells (dst src : Row) : Row :=
  { dst with
    families := FiniteMap.update dst.families src.families (fun _ old fam =>
        let df := old.getD ⟨fam.order, [], ∅⟩
        { df with
          cells := FiniteMap.update df.cells fam.cells
            (fun _ old cs => old.getD [] ++ cs) }) }

theorem mergeCells_eq (dst src : Row) :
    mergeCells dst src = (appendCells dst src).normalize := by
  rfl

theorem appendCells_column (dst src : Row) (fam col : Bytes) :
    (appendCells dst src).column fam col = dst.column fam col ++ src.column fam col := by
  unfold Row.column appendCells
  rw [FiniteMap.getElem?_update]
  cases hsrc : src.families[fam]? with
  | none => simp
  | some f =>
    simp only
    rw [FiniteMap.getElem?_update]
    cases hdst : dst.families[fam]? with
    | none | some => cases hcol : f.cells[col]? <;> simp

theorem appendCells_orderedBy (hdst : dst.OrderedBy ord) (hsrc : src.OrderedBy ord) :
    (appendCells dst src).OrderedBy ord := by
  intro fam f hf
  unfold appendCells at hf
  rw [FiniteMap.getElem?_update] at hf
  cases hs : src.families[fam]? with
  | none =>
    simp only [hs] at hf
    exact hdst fam f hf
  | some fs =>
    simp only [hs, Option.some.injEq] at hf
    rw [← hf]
    cases hd : dst.families[fam]? with
    | none => exact hsrc fam fs hs
    | some fd => exact hdst fam fd hd

theorem Row.Evaluable.mergeCells (hdst : dst.Evaluable ord key) (hsrc : src.Evaluable ord key) :
    (mergeCells dst src).Evaluable ord key := by
  rw [mergeCells_eq]
  exact (appendCells_orderedBy hdst.ordered hsrc.ordered).normalize hdst.key_eq

/-- Merging two rows merges their listings: the cells of the second come after
those of the first with the same timestamp. -/
theorem Row.Evaluable.mergeCells_listing (hdst : dst.Evaluable ord key)
    (hsrc : src.Evaluable ord key) :
    (Bttest.mergeCells dst src).listing = sortListing (dst.listing ++ src.listing) := by
  rw [mergeCells_eq]
  refine (appendCells_orderedBy hdst.ordered hsrc.ordered).normalize_listing
    (descending_sortDesc _ _) (fun fam col => ?_)
  unfold sortListing
  rw [filter_sortDesc, filter_append,
    hdst.normal.listable.filter_listing hdst.ordered,
    hsrc.normal.listable.filter_listing hsrc.ordered, appendCells_column,
    ← sortListing_listColumn]
  unfold sortListing listColumn
  rw [map_append]

end Merge

section Columns

variable {input : Row}

/-- A row whose columns are changed one by one. -/
def Row.mapColumns (r : Row) (colNames : List Bytes → List Bytes)
    (change : Bytes → Bytes → List Cell → List Cell) : Row :=
  { r with
    families := r.families.map (fun name fam =>
      { fam with
        colNames := colNames fam.colNames
        cells := fam.cells.map (fun col cs => change name col cs) }) }

theorem mapColumns_column (r : Row) (colNames : List Bytes → List Bytes)
    {change : Bytes → Bytes → List Cell → List Cell} (hnil : ∀ fam col, change fam col [] = [])
    (fam col : Bytes) :
    (r.mapColumns colNames change).column fam col = change fam col (r.column fam col) := by
  unfold Row.column Row.mapColumns
  rw [Std.ExtTreeMap.getElem?_map]
  cases hfam : r.families[fam]? with
  | none => simp [hnil]
  | some f =>
    simp only [Option.map_some, Std.ExtTreeMap.getElem?_map]
    cases hcol : f.cells[col]? <;> simp [hnil]

theorem mapColumns_orderedBy (h : input.OrderedBy ord) (colNames : List Bytes → List Bytes)
    (change : Bytes → Bytes → List Cell → List Cell) :
    (input.mapColumns colNames change).OrderedBy ord := by
  intro fam f hf
  unfold Row.mapColumns at hf
  rw [Std.ExtTreeMap.getElem?_map] at hf
  obtain ⟨f₀, hf₀, rfl⟩ := Option.map_eq_some_iff.mp hf
  exact h fam f₀ hf₀

theorem Row.Evaluable.mapColumns_listing (h : input.Evaluable ord key)
    (colNames : List Bytes → List Bytes) (change : Bytes → Bytes → List Cell → List Cell)
    (hnil : ∀ fam col, change fam col [] = []) {l : List ListedCell}
    (hsorted : Descending ListedCell.key l)
    (hdesc : ∀ fam col, Descending Cell.ts (change fam col (input.column fam col)))
    (hcols : ∀ fam col, l.filter (fun x => x.place = (fam, col)) =
      listColumn fam (ord fam) col (change fam col (input.column fam col))) :
    (input.mapColumns colNames change).normalize.Evaluable ord key ∧
    (input.mapColumns colNames change).normalize.listing = l := by
  have hord := mapColumns_orderedBy h.ordered colNames change
  refine ⟨hord.normalize h.key_eq, hord.normalize_listing hsorted ?_⟩
  intro fam col
  rw [hcols, mapColumns_column _ _ hnil]
  unfold sortCells
  rw [sortDesc_eq_self _ (hdesc fam col)]

theorem Row.Evaluable.limitColumns_listing (h : input.Evaluable ord key) (n : Nat) :
    (limitColumns n input).Evaluable ord key ∧
    (limitColumns n input).listing = limitPerGroup ListedCell.place n input.listing := by
  refine h.mapColumns_listing id (fun _ _ cs => cs.take n) (by simp) ?_ ?_ ?_
  · exact List.Pairwise.sublist (limitPerGroup_sublist _ _ _) h.normal.descending_listing
  · exact fun fam col => List.Pairwise.sublist (take_sublist _ _) (h.normal.descending fam col)
  · intro fam col
    rw [filter_limitPerGroup, h.normal.listable.filter_listing h.ordered]
    unfold listColumn
    rw [map_take]

theorem filterCells_eq {compile : RegexpCompiler} {f : RowFilter}
    {kept : Bytes → Bytes → Cell → Option Cell}
    (hkept : ∀ fam col c, filterCell compile f fam col c = .ok (kept fam col c)) (input : Row) :
    filterCells compile f input =
      .ok (input.mapColumns (fun _ => [])
        (fun fam col cs => cs.filterMap (kept fam col))).normalize := by
  unfold filterCells Row.mapColumns
  simp only [hkept]
  have hnone : (input.families.toList.findSome? (fun fam =>
      fam.2.cells.toList.findSome? (fun col =>
        col.2.findSome? (fun _ => (none : Option Status))))) = none := by
    simp
  rw [hnone]

theorem filterMap_select (p : Cell → Bool) (change : Cell → Cell) (cs : List Cell) :
    cs.filterMap (fun c => if p c then some (change c) else none) = (cs.filter p).map change := by
  induction cs with
  | nil => rfl
  | cons c cs ih => by_cases hp : p c = true <;> simp [hp, ih]

/-- A per-cell filter that selects cells and changes them in place. -/
theorem Row.Evaluable.filterCells_listing (h : input.Evaluable ord key) {compile : RegexpCompiler}
    {f : RowFilter} (selects : Bytes → Bytes → Cell → Bool) (change : Cell → Cell)
    (hts : ∀ c, (change c).ts = c.ts)
    (hcell : ∀ fam col c, filterCell compile f fam col c =
      .ok (if selects fam col c then some (change c) else none)) :
    ∃ out,
      filterCells compile f input = .ok out ∧
      out.Evaluable ord key ∧
      out.listing =
        (input.listing.filter (fun x => selects x.family x.column x.cell)).map
          (fun x => { x with cell := change x.cell }) := by
  refine ⟨_, filterCells_eq hcell input, h.mapColumns_listing _ _ (by simp) ?_ ?_ ?_⟩
  · refine (h.normal.descending_listing.filter _).map _ (fun x => ?_)
    unfold ListedCell.key
    simp only [hts]
  · intro fam col
    rw [filterMap_select]
    exact ((h.normal.descending fam col).filter _).map change hts
  intro fam col
  have hplace : ∀ x : ListedCell,
      ({ x with cell := change x.cell } : ListedCell).place = x.place :=
    fun _ => rfl
  rw [filter_map, Function.comp_def]
  simp only [hplace]
  rw [filter_filter, filter_congr (fun x _ => Bool.and_comm _ _),
    ← filter_filter, h.normal.listable.filter_listing h.ordered,
    filterMap_select]
  unfold listColumn
  rw [filter_map, map_map, map_map]
  rfl

end Columns

section Slices

/-- The slices of columns are those of the listing: what is left for a later
column is what the earlier ones have not used up. -/
structure SlicesAs (slice : Nat → List Cell → Nat × List Cell)
    (op : Nat → List ListedCell → List ListedCell) : Prop where
  nil : ∀ n, op n [] = []
  append : ∀ n l₁ l₂, op n (l₁ ++ l₂) = op n l₁ ++ op (n - l₁.length) l₂
  sublist : ∀ n l, (op n l).Sublist l
  column : ∀ n fam order col cs, listColumn fam order col (slice n cs).2 =
    op n (listColumn fam order col cs)
  rest : ∀ n cs, (slice n cs).1 = n - cs.length

theorem limitSlice_slicesAs :
    SlicesAs limitSlice List.take where
  nil n := List.take_nil
  append n l₁ l₂ := List.take_append
  sublist n l := List.take_sublist n l
  column n fam order col cs := by
    unfold limitSlice listColumn
    rw [← map_take]
    split_ifs with hlen
    · rfl
    · rw [take_of_length_le (by omega)]
  rest n cs := by
    unfold limitSlice
    split_ifs with hlen
    · simp only [length_take]
      omega
    · rfl

theorem offsetSlice_slicesAs :
    SlicesAs offsetSlice List.drop where
  nil n := List.drop_nil
  append n l₁ l₂ := List.drop_append
  sublist n l := List.drop_sublist n l
  column n fam order col cs := by
    unfold offsetSlice listColumn
    rw [← map_drop]
    split_ifs with hlen
    · rw [drop_of_length_le hlen]
    · rfl
  rest n cs := by
    unfold offsetSlice
    split_ifs with hlen
    · rfl
    · simp only
      omega

variable {slice : Nat → List Cell → Nat × List Cell} {op : Nat → List ListedCell → List ListedCell}

/-- The cells of a family in the order of the given columns. -/
def listColumns (name : Bytes) (order : Nat) (cols : List Bytes)
    (cells : GoMap (List Cell)) : List ListedCell :=
  cols.flatMap (fun col => listColumn name order col (cells[col]?.getD []))

theorem listColumns_congr {name : Bytes} {order : Nat} {cols : List Bytes}
    {cells cells' : GoMap (List Cell)} (h : ∀ col ∈ cols, cells[col]? = cells'[col]?) :
    listColumns name order cols cells = listColumns name order cols cells' := by
  induction cols with
  | nil => rfl
  | cons col cols ih =>
    unfold listColumns at ih ⊢
    rw [flatMap_cons, flatMap_cons, h col (by simp),
      ih (fun c hc => h c (mem_cons_of_mem _ hc))]

/-- What the loop over the columns of a family leaves. -/
theorem SlicesAs.sliceColumns (h : SlicesAs slice op) (name : Bytes) (order n : Nat)
    {cols : List Bytes} (hnodup : cols.Nodup) (cells : GoMap (List Cell)) :
    (Bttest.sliceColumns slice n cols cells).1 = n - (listColumns name order cols cells).length ∧
    listColumns name order cols (Bttest.sliceColumns slice n cols cells).2 =
      op n (listColumns name order cols cells) ∧
    ∀ col : Bytes, col ∉ cols → (Bttest.sliceColumns slice n cols cells).2[col]? = cells[col]? := by
  induction cols generalizing n cells with
  | nil => exact ⟨rfl, (h.nil n).symm, fun _ _ => rfl⟩
  | cons col cols ih =>
    obtain ⟨hnot, hnodup'⟩ := nodup_cons.mp hnodup
    unfold Bttest.sliceColumns
    simp only
    obtain ⟨hrest, hlist, hframe⟩ := ih (slice n (cells[col]?.getD [])).1 hnodup'
      (cells.insert col (slice n (cells[col]?.getD [])).2)
    -- the later columns are still as they were
    have hsame : listColumns name order cols
        (cells.insert col (slice n (cells[col]?.getD [])).2) =
          listColumns name order cols cells := by
      refine listColumns_congr (fun c hc => ?_)
      have hne : col ≠ c := fun heq => hnot (heq ▸ hc)
      simp [Std.ExtTreeMap.getElem?_insert, hne]
    rw [hsame] at hrest hlist
    have hcons : ∀ m : GoMap (List Cell), listColumns name order (col :: cols) m =
        listColumn name order col (m[col]?.getD []) ++
          listColumns name order cols m :=
      fun m => flatMap_cons
    have hlen : (listColumn name order col (cells[col]?.getD [])).length =
        (cells[col]?.getD []).length :=
      length_map _
    refine ⟨?_, ?_, ?_⟩
    · rw [hrest, h.rest, hcons, length_append, hlen]
      omega
    · rw [hcons, hcons, hlist, hframe col hnot, h.append, ← h.column, hlen, h.rest]
      simp
    · intro c hc
      rw [mem_cons, not_or] at hc
      have hne : col ≠ c := fun heq => hc.1 heq.symm
      rw [hframe c hc.2]
      simp [Std.ExtTreeMap.getElem?_insert, hne]

theorem sliceColumns_isSome (slice : Nat → List Cell → Nat × List Cell) (n : Nat)
    (cols : List Bytes) (cells : GoMap (List Cell)) (col : Bytes) :
    (sliceColumns slice n cols cells).2[col]?.isSome = true ↔
      col ∈ cols ∨ cells[col]?.isSome = true := by
  induction cols generalizing n cells with
  | nil => simp [sliceColumns]
  | cons c cols ih =>
    unfold sliceColumns
    simp only
    rw [ih, Std.ExtTreeMap.getElem?_insert]
    simp only [Std.compare_eq_iff_eq, mem_cons]
    by_cases hc : c = col
    · simp [hc]
    · have hc' : col ≠ c := fun heq => hc heq.symm
      simp [hc, hc']

theorem sliceColumns_keys (slice : Nat → List Cell → Nat × List Cell) (n : Nat)
    (cells : GoMap (List Cell)) :
    (sliceColumns slice n cells.keys cells).2.keys = cells.keys := by
  refine eq_of_pairwise_lt (keys_pairwise_lt _) (keys_pairwise_lt _) (fun col => ?_)
  rw [Std.ExtTreeMap.mem_keys, Std.ExtTreeMap.mem_iff_isSome_getElem?,
    sliceColumns_isSome, ← Std.ExtTreeMap.mem_iff_isSome_getElem?,
    Std.ExtTreeMap.mem_keys, or_self]

/-- The listing of families, looked up in a map. -/
def listFamilies (fams : List (Bytes × Family)) (families : GoMap Family) : List ListedCell :=
  fams.flatMap (fun p => (families[p.1]?.getD p.2).listing p.1)

/-- What the loop over the families leaves. -/
theorem SlicesAs.sliceFamilies (h : SlicesAs slice op) (n : Nat) {fams : List (Bytes × Family)}
    (hnodup : (fams.map Prod.fst).Nodup) (hkeys : ∀ p ∈ fams, p.2.colNames = p.2.cells.keys)
    (families : GoMap Family) (hfams : ∀ p ∈ fams, families[p.1]? = some p.2) :
    listFamilies fams (Bttest.sliceFamilies slice n fams families) =
      op n (listFamilies fams families) ∧
    (∀ name : Bytes, name ∉ fams.map Prod.fst →
      (Bttest.sliceFamilies slice n fams families)[name]? = families[name]?) ∧
    ∀ p ∈ fams, ∃ f,
      (Bttest.sliceFamilies slice n fams families)[p.1]? = some f ∧
      f.order = p.2.order ∧ f.colNames = f.cells.keys := by
  induction fams generalizing n families with
  | nil => exact ⟨(h.nil n).symm, fun _ _ => rfl, by simp⟩
  | cons p fams ih =>
    obtain ⟨name, fam⟩ := p
    rw [map_cons] at hnodup
    obtain ⟨hnot, hnodup'⟩ := nodup_cons.mp hnodup
    have hnames : ∀ p ∈ fams, name ≠ p.1 := by
      intro p hp heq
      exact hnot (mem_map.mpr ⟨p, hp, heq.symm⟩)
    have hfam : fam.colNames = fam.cells.keys := hkeys (name, fam) (by simp)
    unfold Bttest.sliceFamilies
    simp only
    obtain ⟨hrest, hlist, _⟩ := h.sliceColumns name fam.order n
      (hfam ▸ keys_nodup fam.cells) fam.cells
    generalize hcells : Bttest.sliceColumns slice n fam.colNames fam.cells = x at hrest hlist
    have hx : x.2.keys = fam.cells.keys := by
      rw [← hcells, hfam]
      exact sliceColumns_keys slice n fam.cells
    have hlookup : ∀ name' : Bytes, name ≠ name' →
        (families.insert name { fam with cells := x.2 })[name']? = families[name']? := by
      intro name' hne
      simp [Std.ExtTreeMap.getElem?_insert, hne]
    obtain ⟨ihList, ihFrame, ihFams⟩ := ih x.1 hnodup'
      (fun p hp => hkeys p (mem_cons_of_mem _ hp))
      (families.insert name { fam with cells := x.2 })
      (fun p hp => by
        rw [hlookup p.1 (hnames p hp)]
        exact hfams p (mem_cons_of_mem _ hp))
    have hsame : listFamilies fams
        (families.insert name { fam with cells := x.2 }) =
          listFamilies fams families := by
      unfold listFamilies
      refine flatMap_congr (fun p hp => ?_)
      rw [hlookup p.1 (hnames p hp)]
    have hself : (Bttest.sliceFamilies slice x.1 fams
        (families.insert name { fam with cells := x.2 }))[name]? =
          some { fam with cells := x.2 } := by
      rw [ihFrame name hnot]
      simp
    have hcons : ∀ m : GoMap Family, listFamilies ((name, fam) :: fams) m =
        (m[name]?.getD fam).listing name ++ listFamilies fams m :=
      fun m => flatMap_cons
    refine ⟨?_, ?_, ?_⟩
    · rw [hcons, hcons, hself, hfams (name, fam) (by simp), ihList, hsame, h.append, hrest]
      exact congrArg (· ++ _) hlist
    · intro name' hname'
      rw [map_cons, mem_cons, not_or] at hname'
      rw [ihFrame name' hname'.2, hlookup name' (fun heq => hname'.1 heq.symm)]
    · intro p hp
      rcases mem_cons.mp hp with rfl | hmem
      · exact ⟨_, hself, rfl, hfam.trans hx.symm⟩
      · exact ihFams p hmem

variable {input : Row}

/-- Replacing families by others with the same order numbers. -/
theorem sortedFamilies_replace {r r' : Row}
    (hnone : ∀ name : Bytes, r.families[name]? = none → r'.families[name]? = none)
    (hsome : ∀ (name : Bytes) (f : Family), r.families[name]? = some f →
      ∃ f', r'.families[name]? = some f' ∧ f'.order = f.order) :
    r'.sortedFamilies = r.sortedFamilies.map (fun p => (p.1, r'.families[p.1]?.getD p.2)) := by
  have hmap : r'.families = r.families.map (fun name f => r'.families[name]?.getD f) := by
    refine Std.ExtTreeMap.ext_getElem? (fun name => ?_)
    rw [Std.ExtTreeMap.getElem?_map]
    cases hf : r.families[name]? with
    | none =>
      rw [hnone name hf]
      rfl
    | some f =>
      obtain ⟨f', hf', _⟩ := hsome name f hf
      rw [hf']
      rfl
  have hlist : r'.families.toList =
      r.families.toList.map (fun p => (p.1, r'.families[p.1]?.getD p.2)) := by
    conv_lhs => rw [hmap]
    exact Std.ExtTreeMap.toList_map
  unfold Row.sortedFamilies
  rw [hlist]
  refine (map_insertionSort byCreationOrder byCreationOrder _ _ ?_).symm
  rintro ⟨name₁, f₁⟩ h₁ ⟨name₂, f₂⟩ h₂
  rw [Std.ExtTreeMap.mem_toList_iff_getElem?_eq_some] at h₁ h₂
  obtain ⟨f₁', hf₁', ho₁⟩ := hsome name₁ f₁ h₁
  obtain ⟨f₂', hf₂', ho₂⟩ := hsome name₂ f₂ h₂
  simp only [byCreationOrder, hf₁', hf₂', Option.getD_some, ho₁, ho₂]

/-- Slicing a row slices its listing. -/
theorem SlicesAs.sliceRow_listing (h : SlicesAs slice op) (hinput : input.Evaluable ord key)
    (n : Nat) :
    (sliceRow slice n input).Evaluable ord key ∧
    (sliceRow slice n input).listing = op n input.listing := by
  obtain ⟨hlist, hframe, hfams⟩ := h.sliceFamilies n
    (sortedFamilies_nodup input)
    (fun p hp => hinput.normal.listable p.1 p.2 (mem_sortedFamilies.mp hp))
    input.families (fun p hp => mem_sortedFamilies.mp hp)
  unfold sliceRow
  generalize hsliced : Bttest.sliceFamilies slice n input.sortedFamilies
    input.families = sliced at hlist hframe hfams
  have hsome : ∀ (name : Bytes) (f : Family), input.families[name]? = some f →
      ∃ f', sliced[name]? = some f' ∧ f'.order = f.order ∧ f'.colNames = f'.cells.keys :=
    fun name f hf => hfams (name, f) (mem_sortedFamilies.mpr hf)
  have hnone : ∀ name : Bytes, input.families[name]? = none → sliced[name]? = none := by
    intro name hname
    rw [hframe name, hname]
    intro hmem
    obtain ⟨⟨name', f⟩, hf, rfl⟩ := mem_map.mp hmem
    rw [mem_sortedFamilies, hname] at hf
    cases hf
  have hfam : ∀ (name : Bytes) (f' : Family), sliced[name]? = some f' →
      f'.order = ord name ∧ f'.colNames = f'.cells.keys := by
    intro name f' hf'
    cases hf : input.families[name]? with
    | none =>
      rw [hnone name hf] at hf'
      cases hf'
    | some f =>
      obtain ⟨f'', hf'', horder, hcols⟩ := hsome name f hf
      rw [hf'] at hf''
      cases hf''
      exact ⟨horder.trans (hinput.ordered name f hf), hcols⟩
  have hordered : ({ input with families := sliced } : Row).OrderedBy ord :=
    fun name f' hf' => (hfam name f' hf').1
  have hlistable : ({ input with families := sliced } : Row).Listable :=
    fun name f' hf' => (hfam name f' hf').2
  have hlisting : ({ input with families := sliced } : Row).listing = op n input.listing := by
    unfold Row.listing
    rw [sortedFamilies_replace (r := input) hnone (fun name f hf => by
        obtain ⟨f', hf', horder, _⟩ := hsome name f hf
        exact ⟨f', hf', horder⟩), flatMap_map]
    refine hlist.trans (congrArg (op n) ?_)
    unfold listFamilies
    refine flatMap_congr (fun p hp => ?_)
    rw [mem_sortedFamilies.mp hp]
    rfl
  have hsorted : Descending ListedCell.key (op n input.listing) :=
    List.Pairwise.sublist (h.sublist n _) hinput.normal.descending_listing
  refine ⟨hordered.normalize hinput.key_eq, hordered.normalize_listing hsorted (fun fam col => ?_)⟩
  -- the cells of a sliced column are still sorted
  have hcol := hlistable.filter_listing hordered fam col
  rw [hlisting] at hcol
  rw [hcol, ← sortListing_listColumn, ← hcol]
  exact (sortDesc_eq_self _ (hsorted.filter _)).symm

end Slices

end Operations

end Bttest
end LittleBigtable
