import LittleBigtable.Bttest.MutationEngine
import LittleBigtable.Gsql.HllCodec
import LittleBigtable.Lib.BigEndian
import LittleBigtable.Lib.StrictDescending

/-!
# What mutations do to the columns of a row

Each kind of mutation is described once, by what it does to every column of a
row and to the cell at every position (family, column, timestamp).  From these
descriptions follows that validated mutations keep rows well formed.
-/

namespace LittleBigtable
namespace Bttest

open Gsql
open StableSort
open StrictDescending

section Int64

variable (v : Int)

@[simp] theorem length_encodeInt64 :
    (encodeInt64 v).length = 8 := by
  simp [encodeInt64]

theorem encodeInt64_eq_digits :
    encodeInt64 v = BigEndian.digits 8 (v % 2 ^ 64).toNat := by
  unfold encodeInt64 BigEndian.digits
  refine List.map_congr_left (fun k _ => ?_)
  rw [Nat.pow_mul]

theorem value_encodeInt64 :
    (BigEndian.value (encodeInt64 v) : Int) = v % 2 ^ 64 := by
  rw [encodeInt64_eq_digits, BigEndian.value_digits]
  omega

/-- Reading eight bytes as a signed number does not change the low 64 bits. -/
theorem decodeInt64_mod (b : Bytes) :
    decodeInt64 b % 2 ^ 64 = (BigEndian.value b : Int) % 2 ^ 64 := by
  have hfold : ∀ acc : Nat,
      b.foldl (fun acc c => acc * 256 + (c.toNat : Int)) (acc : Int) =
        ((b.foldl (fun acc c => acc * 256 + c.toNat) acc : Nat) : Int) := by
    induction b with
    | nil => simp
    | cons c b ih =>
      intro acc
      simpa using ih (acc * 256 + c.toNat)
  unfold decodeInt64 wrap64 BigEndian.value
  rw [← hfold 0]
  push_cast
  omega

/-- An `int64` is read back. -/
theorem decodeInt64_encodeInt64 {v : Int} (hlo : -2 ^ 63 ≤ v) (hhi : v < 2 ^ 63) :
    decodeInt64 (encodeInt64 v) = v := by
  have hmod := decodeInt64_mod (encodeInt64 v)
  rw [value_encodeInt64] at hmod
  unfold decodeInt64 wrap64 at hmod ⊢
  omega

end Int64

section Columns

/-- The cell of a row at one position. -/
def Row.cellAt (r : Row) (fam col : Bytes) (ts : Int) : Option Cell :=
  lookup Cell.ts ts (r.column fam col)

variable {n : Cell} {cs cs' : List Cell}

theorem replaceCell_eq_none_iff :
    replaceCell n cs = none ↔ ∀ c ∈ cs, c.ts ≠ n.ts := by
  induction cs with
  | nil => simp [replaceCell]
  | cons c cs ih =>
    by_cases hts : c.ts = n.ts
    · simp [replaceCell, hts]
    · simp [replaceCell, hts, ih]

theorem replaceCell_map_ts (h : replaceCell n cs = some cs') :
    cs'.map Cell.ts = cs.map Cell.ts := by
  induction cs generalizing cs' with
  | nil => simp [replaceCell] at h
  | cons c cs ih =>
    unfold replaceCell at h
    split_ifs at h with hts
    · cases h
      simp [hts]
    · obtain ⟨cs₁, hcs₁, rfl⟩ := Option.map_eq_some_iff.mp h
      simp [ih hcs₁]

theorem lookup_replaceCell (h : replaceCell n cs = some cs') (ts : Int) :
    lookup Cell.ts ts cs' =
      if n.ts = ts then some n else lookup Cell.ts ts cs := by
  induction cs generalizing cs' with
  | nil => simp [replaceCell] at h
  | cons c cs ih =>
    unfold replaceCell at h
    split_ifs at h with hts
    · cases h
      by_cases hn : n.ts = ts
      · simp [lookup, hn]
      · have hc : c.ts ≠ ts := fun heq => hn (hts.symm.trans heq)
        simp [lookup, hn, hc]
    obtain ⟨cs₁, hcs₁, rfl⟩ := Option.map_eq_some_iff.mp h
    have ih' := ih hcs₁
    unfold lookup at ih' ⊢
    simp only [List.find?_cons]
    by_cases hc : c.ts = ts
    · have hn : n.ts ≠ ts := fun heq => hts (hc.trans heq.symm)
      simp [hc, hn]
    · simp [hc, ih']

theorem strictDesc_of_map_ts (h : StrictDesc Cell.ts cs) (hmap : cs'.map Cell.ts = cs.map Cell.ts) :
    StrictDesc Cell.ts cs' := by
  have hts : (cs.map Cell.ts).Pairwise (fun a b => b < a) := List.pairwise_map.mpr h
  rw [← hmap] at hts
  exact List.pairwise_map.mp hts

theorem strictDesc_appendOrReplaceCell (h : StrictDesc Cell.ts cs) (n : Cell) :
    StrictDesc Cell.ts (appendOrReplaceCell n cs) := by
  unfold appendOrReplaceCell
  cases hrep : replaceCell n cs with
  | none => exact h.sortDesc_append (replaceCell_eq_none_iff.mp hrep)
  | some cs' => exact strictDesc_of_map_ts h (replaceCell_map_ts hrep)

theorem lookup_appendOrReplaceCell (h : StrictDesc Cell.ts cs) (n : Cell) (ts : Int) :
    lookup Cell.ts ts (appendOrReplaceCell n cs) =
      if n.ts = ts then some n else lookup Cell.ts ts cs := by
  unfold appendOrReplaceCell
  cases hrep : replaceCell n cs with
  | none => exact h.lookup_sortDesc_append (replaceCell_eq_none_iff.mp hrep) ts
  | some cs' => exact lookup_replaceCell hrep ts

theorem mem_appendOrReplaceCell_self (h : StrictDesc Cell.ts cs) (n : Cell) :
    n ∈ appendOrReplaceCell n cs := by
  have hlookup := lookup_appendOrReplaceCell h n n.ts
  rw [if_pos rfl] at hlookup
  exact ((strictDesc_appendOrReplaceCell h n).lookup_eq_some_iff.mp hlookup).1

/-- The cells of a column after adding one are the added cell and cells that
were there. -/
theorem mem_appendOrReplaceCell (h : StrictDesc Cell.ts cs) {c : Cell}
    (hc : c ∈ appendOrReplaceCell n cs) :
    c = n ∨ c ∈ cs := by
  have hlookup := (strictDesc_appendOrReplaceCell h n).lookup_eq_some_iff.mpr ⟨hc, rfl⟩
  rw [lookup_appendOrReplaceCell h n] at hlookup
  split_ifs at hlookup
  · left
    exact (Option.some.inj hlookup).symm
  · right
    exact (h.lookup_eq_some_iff.mp hlookup).1

theorem storeAggregate_eq {ts : Int} {value : Bytes} {cs : List Cell} :
    storeAggregate ts value cs =
      appendOrReplaceCell ⟨ts, value, ((lookup Cell.ts ts cs).map Cell.labels).getD []⟩ cs := by
  unfold storeAggregate lookup
  cases hfind : cs.find? (fun c => c.ts = ts) with
  | none => rfl
  | some c =>
    have hts : c.ts = ts := by
      simpa using List.find?_some hfind
    simp [hts]

variable (r : Row) (fam : Bytes)

theorem eraseFamily_column (fam' col : Bytes) :
    ({ r with families := r.families.erase fam } : Row).column fam' col =
      if fam' = fam then [] else r.column fam' col := by
  unfold Row.column
  simp only [Std.ExtTreeMap.getElem?_erase, Std.compare_eq_iff_eq]
  by_cases h : fam' = fam
  · subst h
    simp
  · have h' : fam ≠ fam' := fun heq => h heq.symm
    simp [h, h']

theorem Row.Normal.eraseFamily {r : Row} (h : r.Normal) (fam : Bytes) :
    ({ r with families := r.families.erase fam } : Row).Normal := by
  intro name f hf
  simp only [Std.ExtTreeMap.getElem?_erase, Std.compare_eq_iff_eq] at hf
  split_ifs at hf
  exact h name f hf

theorem deleteFromColumn_key (col : Bytes) (timeRange : Option TimestampRange) :
    (deleteFromColumn r fam col timeRange).key = r.key := by
  unfold deleteFromColumn
  cases r.families[fam]? with
  | none => rfl
  | some f =>
    simp only
    split_ifs <;> rfl

/-- `deleteFromColumn` keeps the families it does not name, and the order number
of the family it names. -/
theorem deleteFromColumn_family {r : Row} {fam col : Bytes} {timeRange : Option TimestampRange}
    {fam' : Bytes} {f' : Family}
    (h : (deleteFromColumn r fam col timeRange).families[fam']? = some f') :
    ∃ f, r.families[fam']? = some f ∧ f'.order = f.order := by
  unfold deleteFromColumn at h
  cases hfam : r.families[fam]? with
  | none =>
    simp only [hfam] at h
    exact ⟨f', h, rfl⟩
  | some f =>
    simp only [hfam] at h
    split_ifs at h
    all_goals
      simp only [Std.ExtTreeMap.getElem?_insert, Std.ExtTreeMap.getElem?_erase,
        Std.compare_eq_iff_eq] at h
      split_ifs at h with heq
    · cases h
      exact ⟨f, heq ▸ hfam, rfl⟩
    · exact ⟨f', h, rfl⟩
    · exact ⟨f', h, rfl⟩
    · cases h
      exact ⟨f, heq ▸ hfam, rfl⟩
    · exact ⟨f', h, rfl⟩

/-- `deleteFromColumn` filters one column. -/
theorem deleteFromColumn_column (col : Bytes) (timeRange : Option TimestampRange)
    (fam' col' : Bytes) :
    (deleteFromColumn r fam col timeRange).column fam' col' =
      if fam' = fam ∧ col' = col then
        (r.column fam col).filter (outsideRange timeRange)
      else
        r.column fam' col' := by
  by_cases hother : fam' = fam
  · subst hother
    unfold deleteFromColumn Row.column
    cases hfam : r.families[fam']? with
    | none => simp [hfam]
    | some f =>
      simp only [true_and]
      by_cases hcol : col' = col
      · subst hcol
        split_ifs with hkeep hnone <;> simp_all
      have hcol' : col ≠ col' := fun heq => hcol heq.symm
      split_ifs with hkeep hnone
      · simp [Std.ExtTreeMap.getElem?_insert, hcol']
      · -- the last column of the family is gone, so this one was not there
        have hempty := (FiniteMap.eq_empty_iff _).mp (Std.ExtTreeMap.isEmpty_iff.mp hnone) col'
        simp only [Std.ExtTreeMap.getElem?_erase, Std.compare_eq_iff_eq, if_neg hcol'] at hempty
        simp [hempty]
      · simp [Std.ExtTreeMap.getElem?_erase, hcol']
  · have hother' : fam ≠ fam' := fun heq => hother heq.symm
    unfold deleteFromColumn Row.column
    cases hfam : r.families[fam]? with
    | none => simp [hother]
    | some f =>
      simp only [hother, false_and, if_false]
      split_ifs <;>
        simp [Std.ExtTreeMap.getElem?_insert, Std.ExtTreeMap.getElem?_erase, hother']

theorem Row.Normal.deleteFromColumn {r : Row} (h : r.Normal) (fam col : Bytes)
    (timeRange : Option TimestampRange) :
    (deleteFromColumn r fam col timeRange).Normal := by
  unfold Bttest.deleteFromColumn
  cases hfam : r.families[fam]? with
  | none => exact h
  | some f =>
    have hf := h fam f hfam
    simp only
    split_ifs with hkeep hnone
    · intro name f' hf'
      simp only [Std.ExtTreeMap.getElem?_insert, Std.compare_eq_iff_eq] at hf'
      split_ifs at hf' with hname
      · cases hf'
        have hmem : col ∈ f.cells := by
          rw [Std.ExtTreeMap.mem_iff_isSome_getElem?]
          cases hcol : f.cells[col]? with
          | none => simp [hcol] at hkeep
          | some cs => rfl
        refine ⟨?_, ?_, ?_⟩
        · simp only [hf.colNames_eq]
          refine eq_of_pairwise_lt (keys_pairwise_lt _) (keys_pairwise_lt _) ?_
          intro a
          simp only [Std.ExtTreeMap.mem_keys, Std.ExtTreeMap.mem_insert, Std.compare_eq_iff_eq]
          constructor
          · exact .inr
          · rintro (rfl | ha)
            · exact hmem
            · exact ha
        · intro hempty
          have hcol := (FiniteMap.eq_empty_iff _).mp hempty col
          simp at hcol
        · intro col' cs hcs
          simp only [Std.ExtTreeMap.getElem?_insert, Std.compare_eq_iff_eq] at hcs
          split_ifs at hcs with hcol
          · cases hcs
            refine ⟨hkeep, Descending.filter ?_ _⟩
            have hdesc := h.descending fam col
            simpa [Row.column, hfam] using hdesc
          · exact hf.columns col' cs hcs
      · exact h name f' hf'
    · exact h.eraseFamily fam
    · intro name f' hf'
      simp only [Std.ExtTreeMap.getElem?_insert, Std.compare_eq_iff_eq] at hf'
      split_ifs at hf' with hname
      · cases hf'
        refine ⟨?_, ?_, ?_⟩
        · simp only [hf.colNames_eq]
          exact keys_erase f.cells col
        · simpa using hnone
        · intro col' cs hcs
          simp only [Std.ExtTreeMap.getElem?_erase, Std.compare_eq_iff_eq] at hcs
          split_ifs at hcs
          exact hf.columns col' cs hcs
      · exact h name f' hf'

end Columns

section WellFormed

theorem exceptMap_eq_ok {ε α β : Type} {f : α → β} {x : Except ε α} {b : β} (h : x.map f = .ok b) :
    ∃ a, x = .ok a ∧ f a = b := by
  cases x with
  | error e => cases h
  | ok a =>
    cases h
    exact ⟨a, rfl, rfl⟩

/-- The timestamps that a table of granularity `g` stores. -/
def Granularity.Storable (g : Granularity) (ts : Int) : Prop :=
  0 ≤ ts ∧ (g.micros = false → ts % 1000 = 0)

/-- A row that a table with the families `fams` may hold. -/
structure Row.WellFormed (fams : Families) (g : Granularity) (r : Row) : Prop where
  normal : r.Normal
  strict : ∀ fam col, StrictDesc Cell.ts (r.column fam col)
  storable : ∀ fam col, ∀ c ∈ r.column fam col, g.Storable c.ts
  schema : ∀ (fam : Bytes) (f : Family), r.families[fam]? = some f →
    ∃ cf, fams[fam]? = some cf ∧ f.order = cf.order

variable {fams : Families} {g : Granularity} {r : Row}

theorem newRow_wellFormed (key : Bytes) :
    (newRow key).WellFormed fams g where
  normal := newRow_normal key
  strict fam col := by
    rw [newRow_column]
    exact List.Pairwise.nil
  storable fam col c hc := by
    simp at hc
  schema fam f hf := by
    simp [newRow] at hf

theorem Granularity.storable_of_valid {ts : Int} (h : g.valid ts = true) :
    g.Storable ts := by
  unfold Granularity.valid at h
  unfold Granularity.Storable
  split_ifs at h with hmicros
  · exact ⟨of_decide_eq_true h, fun hfalse => by simp [hmicros] at hfalse⟩
  · have hvalid := of_decide_eq_true h
    exact ⟨hvalid.1, fun _ => hvalid.2.2⟩

theorem newTimestamp_storable (unixNano : Nat) :
    g.Storable (newTimestamp unixNano) := by
  unfold newTimestamp Granularity.Storable
  simp only
  omega

variable {origin : TimestampOrigin} {now : Int} {fam : Bytes} {cf : ColumnFamily}
variable {qualifier timestamp input : Value} {merge : Bool}

theorem Granularity.resolve_storable {ts : Int} (hok : (g.resolve ts origin 0).2 = true)
    (hnow : ts = -1 → g.Storable now) :
    g.Storable (g.resolve ts origin now).1 := by
  unfold Granularity.resolve at hok ⊢
  by_cases hserver : ts = -1
  · rw [if_pos hserver]
    exact hnow hserver
  · simp only [if_neg hserver] at hok ⊢
    exact Granularity.storable_of_valid hok

/-- Adding a storable cell to a family of the schema keeps a row well formed. -/
theorem Row.WellFormed.addCell (h : r.WellFormed fams g) (hcf : fams[fam]? = some cf) (col : Bytes)
    {change : List Cell → List Cell} {n : Cell}
    (hchange : change (r.column fam col) = appendOrReplaceCell n (r.column fam col))
    (hn : g.Storable n.ts) :
    (r.updateColumn fam cf.order col change).WellFormed fams g := by
  have hstrict := strictDesc_appendOrReplaceCell (h.strict fam col) n
  refine ⟨?_, ?_, ?_, ?_⟩
  · refine h.normal.updateColumn fam cf.order col ?_ ?_
    · rw [hchange]
      exact List.ne_nil_of_mem (mem_appendOrReplaceCell_self (h.strict fam col) n)
    · rw [hchange]
      exact hstrict.descending
  · intro fam' col'
    rw [updateColumn_column]
    split_ifs
    · rw [hchange]
      exact hstrict
    · exact h.strict fam' col'
  · intro fam' col' c hc
    rw [updateColumn_column] at hc
    split_ifs at hc
    · rw [hchange] at hc
      rcases mem_appendOrReplaceCell (h.strict fam col) hc with rfl | hold
      · exact hn
      · exact h.storable fam col c hold
    · exact h.storable fam' col' c hc
  · intro fam' f hf
    rw [updateColumn_families] at hf
    split_ifs at hf with hfam
    · cases hf
      subst hfam
      refine ⟨cf, hcf, ?_⟩
      simp only [(cellsByColumn_fst _ col).2]
      unfold Row.getOrCreateFamily
      cases hold : r.families[fam']? with
      | none => rfl
      | some f₀ =>
        obtain ⟨cf₀, hcf₀, horder⟩ := h.schema fam' f₀ hold
        rw [hcf] at hcf₀
        cases hcf₀
        simpa using horder
    · exact h.schema fam' f hf

variable {r' : Row}

/-- Removing cells keeps a row well formed, when the row stays normal and keeps
its order numbers. -/
theorem Row.WellFormed.of_sublist (h : r.WellFormed fams g) (hnormal : r'.Normal)
    (hsub : ∀ fam col, (r'.column fam col).Sublist (r.column fam col))
    (horder : ∀ (fam : Bytes) (f' : Family), r'.families[fam]? = some f' →
      ∃ f, r.families[fam]? = some f ∧ f'.order = f.order) :
    r'.WellFormed fams g where
  normal := hnormal
  strict fam col := (h.strict fam col).sublist (hsub fam col)
  storable fam col c hc := h.storable fam col c ((hsub fam col).subset hc)
  schema fam f' hf' := by
    obtain ⟨f, hf, hord⟩ := horder fam f' hf'
    obtain ⟨cf, hcf, hcford⟩ := h.schema fam f hf
    exact ⟨cf, hcf, hord.trans hcford⟩

theorem Row.WellFormed.deleteFromColumn (h : r.WellFormed fams g) (fam col : Bytes)
    (timeRange : Option TimestampRange) :
    (deleteFromColumn r fam col timeRange).WellFormed fams g := by
  refine h.of_sublist (h.normal.deleteFromColumn fam col timeRange) ?_ ?_
  · intro fam' col'
    rw [deleteFromColumn_column]
    split_ifs with hpos
    · obtain ⟨rfl, rfl⟩ := hpos
      exact List.filter_sublist
    · exact List.Sublist.refl _
  · intro fam' f' hf'
    exact deleteFromColumn_family hf'

theorem Row.WellFormed.eraseFamily (h : r.WellFormed fams g) (fam : Bytes) :
    ({ r with families := r.families.erase fam } : Row).WellFormed fams g := by
  refine h.of_sublist (h.normal.eraseFamily fam) ?_ ?_
  · intro fam' col'
    rw [eraseFamily_column]
    split_ifs
    · exact List.nil_sublist _
    · exact List.Sublist.refl _
  · intro fam' f' hf'
    simp only [Std.ExtTreeMap.getElem?_erase, Std.compare_eq_iff_eq] at hf'
    split_ifs at hf'
    exact ⟨f', hf', rfl⟩

theorem Row.WellFormed.gcWithChanges (h : r.WellFormed fams g) (rules : GoMap GcRule)
    (nowMicros : Int) :
    (r.gcWithChanges rules nowMicros).1.WellFormed fams g := by
  refine h.of_sublist (h.normal.gcWithChanges rules nowMicros) ?_ ?_
  · intro fam col
    rw [gcWithChanges_column h.normal]
    exact keptCells_sublist _ _ _ _
  · intro fam f' hf'
    exact gcWithChanges_order hf'

/-- What validation ensures of an aggregate mutation. -/
def AggregateApplicable (fams : Families) (g : Granularity) (origin : TimestampOrigin)
    (family : Bytes) (timestamp input : Value) (merge : Bool) : Prop :=
  ∃ cf,
    fams[family]? = some cf ∧
    g.Storable (g.resolve ((valueTimestamp timestamp).getD 0) origin 0).1 ∧
    (familyAggregate cf = .hll → merge = true → ∃ h, decodeHLL (rawBytesValue input) = .ok h)

/-- What validation ensures of a mutation that is applied at the server time
`now`. -/
def Mutation.Applicable (fams : Families) (g : Granularity) (now : Int) (m : Mutation) : Prop :=
  match m.mutation with
  | none => False
  | some (.setCell fam _ ts _) =>
    ∃ cf,
      fams[fam]? = some cf ∧
      familyAggregate cf = .none ∧
      g.Storable (g.resolve ts m.timestampOrigin now).1
  | some (.addToCell fam _ timestamp input) =>
    AggregateApplicable fams g m.timestampOrigin fam timestamp input false
  | some (.mergeToCell fam _ timestamp input) =>
    AggregateApplicable fams g m.timestampOrigin fam timestamp input true
  | some _ => True

theorem aggregateApplicable_of_validate {family : Bytes}
    (h : validateAggregateMutation family qualifier timestamp input fams g origin merge = none) :
    AggregateApplicable fams g origin family timestamp input merge := by
  unfold validateAggregateMutation at h
  cases hcf : fams[family]? with
  | none => simp [hcf] at h
  | some cf =>
    simp only [hcf] at h
    refine ⟨cf, hcf, ?_, ?_⟩
    · split_ifs at h with hkind hqual hok
      all_goals
        cases hts : valueTimestamp timestamp with
        | none => simp [hts] at hok
        | some ts =>
          simp only [hts, Bool.not_eq_false, Bool.and_eq_true, decide_eq_true_eq] at hok
          exact Granularity.resolve_storable hok.1 (fun hserver => absurd hserver hok.2)
    · intro hhll hmerge
      simp only [hhll, hmerge, reduceCtorEq, if_false, if_true] at h
      cases hdec : decodeHLL (rawBytesValue input) with
      | error e =>
        simp only [hdec] at h
        split_ifs at h
      | ok sketch => exact ⟨sketch, rfl⟩

variable {m : Mutation}

/-- A validated mutation is applicable. -/
theorem applicable_of_validate (hnow : g.Storable now) (h : validateMutation m fams g = none) :
    m.Applicable fams g now := by
  obtain ⟨kind, origin⟩ := m
  cases kind with
  | none => simp [validateMutation] at h
  | some kind =>
    cases kind with
    | setCell fam col ts value =>
      simp only [validateMutation] at h
      cases hcf : fams[fam]? with
      | none => simp [hcf] at h
      | some cf =>
        simp only [hcf] at h
        split_ifs at h with hkind hts
        exact ⟨cf, hcf, by simpa using hkind,
          Granularity.resolve_storable (by simpa using hts) (fun _ => hnow)⟩
    | deleteFromColumn | deleteFromFamily | deleteFromRow => trivial
    | addToCell | mergeToCell => exact aggregateApplicable_of_validate h

theorem familyOf_eq (h : fams[fam]? = some cf) :
    familyOf fams fam = cf := by
  simp [familyOf, h]

theorem applyAggregate_eq_ok
    (h : applyAggregate r cf fam qualifier timestamp input g origin merge = .ok r') :
    ∃ value,
      aggregateValue (familyAggregate cf)
        ((r.cellAt fam ((valueQualifier qualifier).getD [])
          (g.resolve ((valueTimestamp timestamp).getD 0) origin 0).1).map
            Cell.value) input merge = .ok value ∧
      r' = r.updateColumn fam cf.order ((valueQualifier qualifier).getD [])
        (storeAggregate (g.resolve ((valueTimestamp timestamp).getD 0) origin 0).1 value) := by
  unfold applyAggregate at h
  simp only at h
  unfold Row.cellAt lookup
  split at h
  · cases h
  rename_i value hvalue
  cases h
  exact ⟨value, hvalue, rfl⟩

theorem Row.WellFormed.applyAggregate (h : r.WellFormed fams g) {family : Bytes}
    (happ : AggregateApplicable fams g origin family timestamp input merge)
    (happly : applyAggregate r (familyOf fams family) family qualifier timestamp
      input g origin merge = .ok r') :
    r'.WellFormed fams g := by
  obtain ⟨cf, hcf, hstorable, _⟩ := happ
  obtain ⟨value, _, rfl⟩ := applyAggregate_eq_ok happly
  rw [familyOf_eq hcf]
  exact h.addCell hcf _ (storeAggregate_eq) hstorable

variable {changes : List Mutation}

/-- An applicable mutation keeps a row well formed. -/
theorem Row.WellFormed.applyMutation (h : r.WellFormed fams g) (happ : m.Applicable fams g now)
    (happly : applyMutation fams g now r m = .ok (r', changes)) :
    r'.WellFormed fams g := by
  obtain ⟨kind, origin⟩ := m
  cases kind with
  | none => cases happ
  | some kind =>
    cases kind with
    | setCell fam col ts value =>
      obtain ⟨cf, hcf, _, hstorable⟩ := happ
      cases happly
      rw [familyOf_eq hcf]
      exact h.addCell hcf col rfl hstorable
    | deleteFromColumn fam col timeRange =>
      cases happly
      exact h.deleteFromColumn fam col timeRange
    | deleteFromFamily fam =>
      cases happly
      exact h.eraseFamily fam
    | deleteFromRow =>
      cases happly
      exact newRow_wellFormed r.key
    | addToCell | mergeToCell =>
      obtain ⟨r₁, hr₁, heq⟩ := exceptMap_eq_ok happly
      cases heq
      exact h.applyAggregate happ hr₁

theorem validateMutationsFrom_eq_none_iff (fams : Families) (g : Granularity) (i : Nat)
    (ms : List Mutation) :
    validateMutationsFrom fams g i ms = none ↔ ∀ m ∈ ms, validateMutation m fams g = none := by
  induction ms generalizing i with
  | nil => simp [validateMutationsFrom]
  | cons m ms ih =>
    unfold validateMutationsFrom
    cases hm : validateMutation m fams g with
    | none => simp [ih, hm]
    | some st => simp [hm]

variable {ms : List Mutation}

theorem applicable_of_validateMutations (hnow : g.Storable now)
    (h : validateMutations ms fams g = none) :
    ∀ m ∈ ms, m.Applicable fams g now := by
  unfold validateMutations at h
  split_ifs at h
  intro m hm
  exact applicable_of_validate hnow ((validateMutationsFrom_eq_none_iff fams g 0 ms).mp h m hm)

theorem applyMutations_cons_eq_ok (h : applyMutations fams g now r (m :: ms) = .ok (r', changes)) :
    ∃ r₁ changes₁ changes₂,
      applyMutation fams g now r m = .ok (r₁, changes₁) ∧
      applyMutations fams g now r₁ ms = .ok (r', changes₂) ∧
      changes = changes₁ ++ changes₂ := by
  unfold applyMutations at h
  split at h
  · cases h
  rename_i r₁ changes₁ hm
  split at h
  · cases h
  rename_i r₂ changes₂ hms
  cases h
  exact ⟨r₁, changes₁, changes₂, hm, hms, rfl⟩

theorem applyMutation_key (h : applyMutation fams g now r m = .ok (r', changes)) :
    r'.key = r.key := by
  obtain ⟨kind, origin⟩ := m
  cases kind with
  | none => cases h
  | some kind =>
    cases kind with
    | setCell | deleteFromFamily | deleteFromRow =>
      cases h
      rfl
    | deleteFromColumn fam col timeRange =>
      cases h
      exact deleteFromColumn_key r fam col timeRange
    | addToCell | mergeToCell =>
      obtain ⟨r₁, hr₁, heq⟩ := exceptMap_eq_ok h
      cases heq
      obtain ⟨value, _, rfl⟩ := applyAggregate_eq_ok hr₁
      rfl

theorem applyMutations_key (h : applyMutations fams g now r ms = .ok (r', changes)) :
    r'.key = r.key := by
  induction ms generalizing r changes with
  | nil =>
    cases h
    rfl
  | cons m ms ih =>
    obtain ⟨r₁, changes₁, changes₂, hm, hms, _⟩ := applyMutations_cons_eq_ok h
    exact (ih hms).trans (applyMutation_key hm)

theorem Row.WellFormed.applyMutations (h : r.WellFormed fams g)
    (happ : ∀ m ∈ ms, m.Applicable fams g now)
    (happly : applyMutations fams g now r ms = .ok (r', changes)) :
    r'.WellFormed fams g := by
  induction ms generalizing r changes with
  | nil =>
    cases happly
    exact h
  | cons m ms ih =>
    obtain ⟨r₁, changes₁, changes₂, hm, hms, _⟩ := applyMutations_cons_eq_ok happly
    have h₁ := h.applyMutation (happ m (by simp)) hm
    exact ih h₁ (fun m' hm' => happ m' (List.mem_cons_of_mem m hm')) hms

end WellFormed

end Bttest
end LittleBigtable
