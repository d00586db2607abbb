import LittleBigtable.Bttest.ConditionalMutation

/-!
# Isolation of authorized views

Two runs of a request through a view, on tables that agree on what the view
contains, give the same answer: what a request sees of a row is a function of the
cells in the view, and mutations through the view address columns in the view
only.  For the same reason a write through a view leaves every other column as it
is, up to garbage collection.
-/

namespace LittleBigtable
namespace Bttest

open List

section Agreement

/-- Two tables have the same schema in the families of the view. -/
structure ViewPolicy.SchemaAgrees (p : ViewPolicy) (tbl₁ tbl₂ : Table) : Prop where
  granularity : tbl₁.granularity = tbl₂.granularity
  families : ∀ fam : Bytes, p.families[fam]?.isSome → tbl₁.families[fam]? = tbl₂.families[fam]?

/-- Two rows have the same cells in the view. -/
structure ViewPolicy.SameCells (p : ViewPolicy) (r₁ r₂ : Row) : Prop where
  key : r₁.key = r₂.key
  column : ∀ fam col, p.contains r₁.key fam col = true → r₁.column fam col = r₂.column fam col

/-- Two tables have the same cells in the view. -/
def ViewPolicy.RowsAgree (p : ViewPolicy) (rows₁ rows₂ : SqlRows) : Prop :=
  ∀ key fam col, p.contains key fam col = true →
    (storedRow rows₁ key).column fam col = (storedRow rows₂ key).column fam col

variable {p : ViewPolicy} {tbl₁ tbl₂ : Table} {r₁ r₂ : Row} {db₁ db₂ : Store}

variable {fam : Bytes}

theorem cellAllowed_family {col : Bytes} (h : p.cellAllowed fam col = true) :
    p.families[fam]?.isSome := by
  unfold ViewPolicy.cellAllowed at h
  cases hfam : p.families[fam]? with
  | none => simp [hfam] at h
  | some sub => rfl

theorem contains_family {key col : Bytes} (h : p.contains key fam col = true) :
    p.families[fam]?.isSome :=
  cellAllowed_family (Bool.and_eq_true_iff.mp h).2

theorem ViewPolicy.SchemaAgrees.gcRules (h : p.SchemaAgrees tbl₁ tbl₂)
    (hfam : p.families[fam]?.isSome) :
    tbl₁.gcRules[fam]? = tbl₂.gcRules[fam]? := by
  unfold Table.gcRules
  simp only [Std.ExtTreeMap.getElem?_filterMap', h.families fam hfam]

theorem ViewPolicy.RowsAgree.sameCells (h : p.RowsAgree db₁.rows db₂.rows)
    (hrows₁ : RowsWellFormed tbl₁ db₁.rows) (hrows₂ : RowsWellFormed tbl₂ db₂.rows) (key : Bytes) :
    p.SameCells (storedRow db₁.rows key) (storedRow db₂.rows key) := by
  obtain ⟨_, hkey₁⟩ := storedRow_wellFormed hrows₁
  obtain ⟨_, hkey₂⟩ := storedRow_wellFormed hrows₂
  refine ⟨hkey₁.trans hkey₂.symm, fun fam col hcontains => ?_⟩
  rw [hkey₁] at hcontains
  exact h key fam col hcontains

theorem restrict_family {r : Row} {f : Family} (hr : r.Normal)
    (h : (p.restrict r).families[fam]? = some f) :
    p.families[fam]?.isSome := by
  obtain ⟨col, hcol⟩ := (restrict_normal).exists_column h
  rw [restrict_column hr] at hcol
  split_ifs at hcol with hcontains
  · exact contains_family hcontains
  · exact absurd rfl hcol

/-- Restricted to the view, rows with the same cells in the view are equal. -/
theorem restrict_congr (hschema : p.SchemaAgrees tbl₁ tbl₂)
    (hr₁ : r₁.WellFormed tbl₁.families tbl₁.granularity)
    (hr₂ : r₂.WellFormed tbl₂.families tbl₂.granularity) (h : p.SameCells r₁ r₂) :
    p.restrict r₁ = p.restrict r₂ := by
  refine Row.Normal.ext (restrict_normal) (restrict_normal) ?_ ?_ ?_
  · rw [restrict_key, restrict_key, h.key]
  · intro fam col
    rw [restrict_column hr₁.normal, restrict_column hr₂.normal, ← h.key]
    split_ifs with hcontains
    · exact h.column fam col hcontains
    · rfl
  intro fam f₁ f₂ hf₁ hf₂
  obtain ⟨f₃, hf₃, horder₁⟩ := restrict_order hf₁
  obtain ⟨f₄, hf₄, horder₂⟩ := restrict_order hf₂
  obtain ⟨cf₁, hcf₁, hcford₁⟩ := hr₁.schema fam f₃ hf₃
  obtain ⟨cf₂, hcf₂, hcford₂⟩ := hr₂.schema fam f₄ hf₄
  rw [hschema.families fam (restrict_family hr₁.normal hf₁), hcf₂] at hcf₁
  cases hcf₁
  rw [horder₁, horder₂, hcford₁, hcford₂]

/-- Garbage collection of a row depends on the rules of its families. -/
theorem gc_congr {r : Row} {rules₁ rules₂ : GoMap GcRule} (hr : r.Normal)
    (h : ∀ (fam : Bytes) (f : Family), r.families[fam]? = some f → rules₁[fam]? = rules₂[fam]?)
    (nowMicros : Int) :
    r.gc rules₁ nowMicros = r.gc rules₂ nowMicros := by
  refine Row.Normal.ext (gc_normal hr rules₁ nowMicros) (gc_normal hr rules₂ nowMicros) ?_ ?_ ?_
  · rw [gc_key, gc_key]
  · intro fam col
    rw [gc_column hr, gc_column hr]
    cases hfam : r.families[fam]? with
    | none =>
      have hcol : r.column fam col = [] := by
        unfold Row.column
        rw [hfam]
      rw [hcol, sublist_nil.mp (keptCells_sublist rules₁ nowMicros fam []),
        sublist_nil.mp (keptCells_sublist rules₂ nowMicros fam [])]
    | some f => rw [keptCells, keptCells, h fam f hfam]
  · intro fam f₁ f₂ hf₁ hf₂
    obtain ⟨f₃, hf₃, horder₁⟩ := gcWithChanges_order hf₁
    obtain ⟨f₄, hf₄, horder₂⟩ := gcWithChanges_order hf₂
    rw [hf₃] at hf₄
    cases hf₄
    rw [horder₁, horder₂]

theorem seenRow_congr (hschema : p.SchemaAgrees tbl₁ tbl₂) (hrows₁ : RowsWellFormed tbl₁ db₁.rows)
    (hrows₂ : RowsWellFormed tbl₂ db₂.rows) (h : p.RowsAgree db₁.rows db₂.rows) (micros : Int)
    (key : Bytes) :
    seenRow tbl₁ (some p) micros db₁.rows key = seenRow tbl₂ (some p) micros db₂.rows key := by
  obtain ⟨hwf₁, _⟩ := storedRow_wellFormed hrows₁
  obtain ⟨hwf₂, _⟩ := storedRow_wellFormed hrows₂
  unfold seenRow restrictTo
  simp only
  rw [← restrict_congr hschema hwf₁ hwf₂ (h.sameCells hrows₁ hrows₂ key)]
  refine gc_congr (restrict_normal) (fun fam f hf => ?_) micros
  exact hschema.gcRules (restrict_family hwf₁.normal hf)

end Agreement

section Reads

variable {compile : RegexpCompiler} {tbl : Table} {view : Option ViewPolicy} {env : ReadEnv}
variable {req : ReadRowsRequest}

/-- The row that a read evaluates for a stored row, if it does not skip it. -/
def shownRow (tbl : Table) (view : Option ViewPolicy) (env : ReadEnv) (stored : Row) : Option Row :=
  (visibleRow tbl view (env.gcMicros stored.key) stored).filter (fun r => !r.isEmpty)

/-- The loop of a read over the rows that it does not skip. -/
def shownLoop (compile : RegexpCompiler) (env : ReadEnv) (req : ReadRowsRequest) :
    List Row → ReadStats → Except Status (List Row × ReadStats)
  | [], stats => .ok ([], stats)
  | r :: rows, stats =>
    if req.rowsLimit > 0 ∧ stats.rowsReturned ≥ req.rowsLimit then
      .ok ([], stats)
    else
      let stats := { stats with
        rowsSeen := stats.rowsSeen + 1
        cellsSeen := stats.cellsSeen + r.cellCount }
      match filterRow compile (env.draw r.key) req.filter r with
      | .error st => .error st
      | .ok (_, r) =>
        if r.isEmpty then
          shownLoop compile env req rows stats
        else
          let stats := { stats with
            rowsReturned := stats.rowsReturned + 1
            cellsReturned := stats.cellsReturned + r.cellCount }
          (shownLoop compile env req rows stats).map (fun x => (r :: x.1, x.2))

/-- Rows that a read skips have no effect on it, also not on its limit. -/
theorem readLoop_eq_shownLoop (rows : List Row) (stats : ReadStats) :
    readLoop compile tbl view env req rows stats =
      shownLoop compile env req (rows.filterMap (shownRow tbl view env)) stats := by
  induction rows generalizing stats with
  | nil => rfl
  | cons stored rows ih =>
    unfold readLoop
    split_ifs with hlimit
    · cases (stored :: rows).filterMap (shownRow tbl view env) <;> simp [shownLoop, hlimit]
    cases hvis : visibleRow tbl view (env.gcMicros stored.key) stored with
    | none =>
      have hskip : shownRow tbl view env stored = none := by
        simp [shownRow, hvis]
      rw [filterMap_cons_none hskip]
      exact ih stats
    | some r =>
      simp only
      split_ifs with hempty
      · have hskip : shownRow tbl view env stored = none := by
          simp [shownRow, hvis, hempty]
        rw [filterMap_cons_none hskip]
        exact ih stats
      have hshown : shownRow tbl view env stored = some r := by
        simp [shownRow, hvis, hempty]
      rw [filterMap_cons_some hshown]
      simp only [shownLoop, if_neg hlimit, ih]
      all_goals rfl

theorem shownRow_eq_some {stored r : Row} (hwf : stored.WellFormed tbl.families tbl.granularity)
    (h : shownRow tbl view env stored = some r) :
    r.isEmpty = false ∧ r.key = stored.key ∧
      r = (restrictTo view stored).gc tbl.gcRules (env.gcMicros stored.key) := by
  obtain ⟨hvis, hne⟩ := Option.filter_eq_some_iff.mp h
  rcases visibleRow_eq hwf with hsome | ⟨hnone, _⟩
  · have hr := Option.some.inj (hvis.symm.trans hsome)
    exact ⟨by simpa using hne, by rw [hr, gc_key, restrictTo_key], hr⟩
  · cases hvis.symm.trans hnone

/-- The rows that a read does not skip are the non-empty ones among the rows that
it sees at the requested keys. -/
theorem mem_shownRows {db : Store} (hrows : RowsWellFormed tbl db.rows) (r : Row) :
    r ∈ ((newReadPlan req.rows req.reversed).load db.rows).filterMap
        (shownRow tbl view env) ↔
      requests req.rows r.key = true ∧ r.isEmpty = false ∧
        r = seenRow tbl view (env.gcMicros r.key) db.rows r.key := by
  obtain ⟨hmem, _⟩ := load_newReadPlan (fun key r hr => (hrows key r hr).1)
  rw [mem_filterMap]
  constructor
  · rintro ⟨stored, hstored, hshown⟩
    obtain ⟨hrow, hrequested⟩ := (hmem stored).mp hstored
    obtain ⟨hne, hkey, hr⟩ := shownRow_eq_some (hrows _ _ hrow).2.2 hshown
    refine ⟨by rw [hkey]; exact hrequested, hne, ?_⟩
    rw [hkey, seenRow, storedRow, hrow]
    exact hr
  rintro ⟨hrequested, hne, hr⟩
  cases hrow : db.rows[r.key]? with
  | none =>
    rw [hr, seenRow_isEmpty_of_absent hrow] at hne
    cases hne
  | some stored =>
    obtain ⟨hkey, _, hwf⟩ := hrows _ _ hrow
    rw [seenRow, storedRow, hrow] at hr
    refine ⟨stored, (hmem stored).mpr ⟨by rw [hkey]; exact hrow,
      by rw [hkey]; exact hrequested⟩, ?_⟩
    unfold shownRow
    rw [hkey, Option.filter_eq_some_iff]
    rcases visibleRow_eq hwf with hsome | ⟨_, hempty⟩
    · rw [hsome]
      exact ⟨congrArg some hr.symm, by simpa using hne⟩
    · rw [hr] at hne
      rw [Option.getD_some, hempty] at hne
      cases hne

/-- The rows that a read does not skip are in the order of the read. -/
theorem shownRows_pairwise {db : Store} (hrows : RowsWellFormed tbl db.rows) :
    (((newReadPlan req.rows req.reversed).load db.rows).filterMap
      (shownRow tbl view env)).Pairwise (inDirection req.reversed) := by
  obtain ⟨hmem, hsorted⟩ := load_newReadPlan (fun key r hr => (hrows key r hr).1)
  have hkey : ∀ stored ∈ (newReadPlan req.rows req.reversed).load db.rows, ∀ r,
      shownRow tbl view env stored = some r → r.key = stored.key :=
    fun stored hstored r hr => (shownRow_eq_some (hrows _ _ ((hmem stored).mp hstored).1).2.2 hr).2.1
  rw [pairwise_filterMap]
  refine hsorted.imp_of_mem (fun {a b} ha hb hab r hr r' hr' => ?_)
  unfold inDirection at hab ⊢
  rw [hkey a ha r hr, hkey b hb r' hr']
  exact hab

/-- Rows in the order of a read are determined by their membership. -/
theorem eq_of_inDirection {reversed : Bool} {l₁ l₂ : List Row}
    (h₁ : l₁.Pairwise (inDirection reversed)) (h₂ : l₂.Pairwise (inDirection reversed))
    (hmem : ∀ r, r ∈ l₁ ↔ r ∈ l₂) :
    l₁ = l₂ := by
  have hne : ∀ {a b : Row}, inDirection reversed a b → a ≠ b := by
    rintro a b hab rfl
    cases reversed <;> simp [inDirection] at hab
  have hasymm : ∀ {a b : Row}, inDirection reversed a b → inDirection reversed b a → a = b := by
    intro a b hab hba
    cases reversed
    · exact absurd hba (lt_asymm hab)
    · exact absurd hba (lt_asymm hab)
  have hperm : l₁.Perm l₂ := (perm_ext_iff_of_nodup (h₁.imp hne) (h₂.imp hne)).mpr hmem
  exact hperm.eq_of_pairwise (fun a b _ _ hab hba => hasymm hab hba) h₁ h₂

end Reads

section Predicates

variable {p : ViewPolicy} {tbl₁ tbl₂ : Table} {r₁ r₂ : Row}

/-- Two evaluations fail alike, or succeed with the same changes and with rows that
have the same cells in the view. -/
inductive ViewPolicy.SameOutcome (p : ViewPolicy) :
    Except Status (Row × List Mutation) → Except Status (Row × List Mutation) → Prop
  | error (st : Status) : SameOutcome p (.error st) (.error st)
  | ok
      {r₁ r₂ : Row} {changes : List Mutation}
      (h : p.SameCells r₁ r₂) :
      SameOutcome p (.ok (r₁, changes)) (.ok (r₂, changes))

variable {fam col : Bytes} {muts : List Mutation}

theorem ViewPolicy.SameCells.updateColumn (h : p.SameCells r₁ r₂)
    (hcontains : p.contains r₁.key fam col = true) (order₁ order₂ : Nat)
    (change : List Cell → List Cell) :
    p.SameCells (r₁.updateColumn fam order₁ col change)
      (r₂.updateColumn fam order₂ col change) := by
  refine ⟨h.key, fun fam' col' hcontains' => ?_⟩
  rw [updateColumn_column, updateColumn_column, h.column fam col hcontains]
  split_ifs
  · rfl
  · exact h.column fam' col' hcontains'

theorem ViewPolicy.SameCells.deleteFromColumn (h : p.SameCells r₁ r₂)
    (hcontains : p.contains r₁.key fam col = true) (timeRange : Option TimestampRange) :
    p.SameCells (deleteFromColumn r₁ fam col timeRange)
      (deleteFromColumn r₂ fam col timeRange) := by
  refine ⟨?_, fun fam' col' hcontains' => ?_⟩
  · rw [deleteFromColumn_key, deleteFromColumn_key, h.key]
  · rw [deleteFromColumn_key] at hcontains'
    rw [deleteFromColumn_column, deleteFromColumn_column,
      h.column fam col hcontains, h.column fam' col' hcontains']

theorem ViewPolicy.SameCells.eraseFamily (h : p.SameCells r₁ r₂) (fam : Bytes) :
    p.SameCells { r₁ with families := r₁.families.erase fam }
      { r₂ with families := r₂.families.erase fam } := by
  refine ⟨h.key, fun fam' col' hcontains' => ?_⟩
  rw [eraseFamily_column, eraseFamily_column, h.column fam' col' hcontains']

theorem columnError_eq_none (h : p.columnError fam col = none) :
    p.cellAllowed fam col = true := by
  unfold ViewPolicy.columnError at h
  split_ifs at h with hallowed
  exact hallowed

theorem applyAggregate_same (hschema : p.SchemaAgrees tbl₁ tbl₂) (h : p.SameCells r₁ r₂)
    {qualifier timestamp input : Value}
    (hcontains : p.contains r₁.key fam ((valueQualifier qualifier).getD []) = true)
    {origin : TimestampOrigin} {merge : Bool} {changes : List Mutation} :
    p.SameOutcome
      ((applyAggregate r₁ (familyOf tbl₁.families fam) fam qualifier timestamp input
        tbl₁.granularity origin merge).map (fun r' => (r', changes)))
      ((applyAggregate r₂ (familyOf tbl₂.families fam) fam qualifier timestamp input
        tbl₂.granularity origin merge).map (fun r' => (r', changes))) := by
  have hfam : familyOf tbl₁.families fam = familyOf tbl₂.families fam := by
    unfold familyOf
    rw [hschema.families fam (contains_family hcontains)]
  unfold applyAggregate
  simp only [hfam, hschema.granularity, h.column fam _ hcontains]
  split
  · exact .error _
  · exact .ok (h.updateColumn hcontains _ _ _)

/-- A mutation that stays in the view does the same to both rows. -/
theorem applyMutation_same (hschema : p.SchemaAgrees tbl₁ tbl₂) (h : p.SameCells r₁ r₂)
    (hrow : p.rowAllowed r₁.key = true) (now : Int) {m : Mutation} (hm : p.checkMutation m = none) :
    p.SameOutcome (applyMutation tbl₁.families tbl₁.granularity now r₁ m)
      (applyMutation tbl₂.families tbl₂.granularity now r₂ m) := by
  have hcontains : ∀ {fam col : Bytes}, p.columnError fam col = none →
      p.contains r₁.key fam col = true := by
    intro fam col hnone
    simp only [ViewPolicy.contains, hrow, columnError_eq_none hnone, Bool.and_true]
  obtain ⟨kind, origin⟩ := m
  cases kind with
  | none => exact .error _
  | some kind =>
    cases kind with
    | setCell fam col ts value =>
      simp only [applyMutation, hschema.granularity]
      exact .ok (h.updateColumn (hcontains hm) _ _ _)
    | deleteFromColumn fam col timeRange => exact .ok (h.deleteFromColumn (hcontains hm) timeRange)
    | deleteFromFamily fam => exact .ok (h.eraseFamily fam)
    | deleteFromRow => cases hm
    | addToCell fam qualifier timestamp input =>
      exact applyAggregate_same hschema h (hcontains hm)
    | mergeToCell fam qualifier timestamp input =>
      exact applyAggregate_same hschema h (hcontains hm)

/-- So does a list of mutations. -/
theorem applyMutations_same (hschema : p.SchemaAgrees tbl₁ tbl₂) (h : p.SameCells r₁ r₂)
    (hrow : p.rowAllowed r₁.key = true) (now : Int) (hmuts : ∀ m ∈ muts, p.checkMutation m = none) :
    p.SameOutcome (applyMutations tbl₁.families tbl₁.granularity now r₁ muts)
      (applyMutations tbl₂.families tbl₂.granularity now r₂ muts) := by
  induction muts generalizing r₁ r₂ with
  | nil => exact .ok h
  | cons m muts ih =>
    have hfirst := applyMutation_same hschema h hrow now (hmuts m (by simp))
    unfold applyMutations
    generalize hm : applyMutation tbl₁.families tbl₁.granularity now r₁ m = x₁ at hfirst
    generalize applyMutation tbl₂.families tbl₂.granularity now r₂ m = x₂ at hfirst
    cases hfirst with
    | error st => exact .error st
    | ok h' =>
      have hrest := ih h' (by rw [applyMutation_key hm]; exact hrow)
        (fun m' hm' => hmuts m' (mem_cons_of_mem m hm'))
      simp only
      generalize applyMutations tbl₁.families tbl₁.granularity now _ muts = y₁ at hrest
      generalize applyMutations tbl₂.families tbl₂.granularity now _ muts = y₂ at hrest
      cases hrest with
      | error st => exact .error st
      | ok h'' => exact .ok h''

theorem checkMutations_eq_none {key : Bytes} (h : p.checkMutations key muts = none) :
    p.rowAllowed key = true ∧ ∀ m ∈ muts, p.checkMutation m = none := by
  unfold ViewPolicy.checkMutations at h
  split_ifs at h with hrow
  exact ⟨hrow, findSome?_eq_none_iff.mp h⟩

/-- The families of mutations that stay in the view are in the view. -/
theorem validateMutation_same (hschema : p.SchemaAgrees tbl₁ tbl₂) {m : Mutation}
    (hm : p.checkMutation m = none) :
    validateMutation m tbl₁.families tbl₁.granularity =
      validateMutation m tbl₂.families tbl₂.granularity := by
  have hfam : ∀ {fam col : Bytes}, p.columnError fam col = none →
      tbl₁.families[fam]? = tbl₂.families[fam]? :=
    fun hnone => hschema.families _ (cellAllowed_family (columnError_eq_none hnone))
  obtain ⟨kind, origin⟩ := m
  cases kind with
  | none => rfl
  | some kind =>
    cases kind with
    | setCell fam col ts value => simp only [validateMutation, hfam hm, hschema.granularity]
    | deleteFromColumn fam col timeRange =>
      simp only [validateMutation, hfam hm, hschema.granularity]
    | deleteFromFamily fam =>
      have hsome : p.families[fam]?.isSome := by
        simp only [ViewPolicy.checkMutation] at hm
        split_ifs at hm with hfull
        unfold ViewPolicy.familyFullyAllowed at hfull
        cases hfam : p.families[fam]? with
        | none => simp [hfam] at hfull
        | some sub => rfl
      simp only [validateMutation, hschema.families fam hsome]
    | deleteFromRow => rfl
    | addToCell | mergeToCell =>
      simp only [validateMutation, validateAggregateMutation, hfam hm, hschema.granularity]

theorem validateMutationsFrom_same (hschema : p.SchemaAgrees tbl₁ tbl₂) (i : Nat)
    (hmuts : ∀ m ∈ muts, p.checkMutation m = none) :
    validateMutationsFrom tbl₁.families tbl₁.granularity i muts =
      validateMutationsFrom tbl₂.families tbl₂.granularity i muts := by
  induction muts generalizing i with
  | nil => rfl
  | cons m muts ih =>
    unfold validateMutationsFrom
    rw [validateMutation_same hschema (hmuts m (by simp)),
      ih (i + 1) (fun m' hm' => hmuts m' (mem_cons_of_mem m hm'))]

/-- The changes and the result of a staging on nothing staged before. -/
theorem stage_answer {α : Type} (tbl : Table) (rows : SqlRows) (env : EntryEnv) (key : Bytes)
    (mutate : Row → Except Status (Row × List Mutation × α)) :
    (stage tbl rows env ∅ key mutate).map (fun x => (x.1.userChanges, x.2)) =
      match env.loadError with
      | some st => .error st
      | none => (mutate (storedRow rows key)).map Prod.snd := by
  unfold stage stageBase SqlRows.load storedRow
  simp only [Std.ExtTreeMap.getElem?_empty]
  cases env.loadError with
  | some st => rfl
  | none =>
    cases hmutate : mutate (rows[key]?.getD (newRow key)) with
    | error st => simp [hmutate, Except.map]
    | ok x => simp [hmutate, Except.map, finishStage]

/-- The predicate and the changes of the selected branch are the same on both
rows. -/
theorem checkAndMutate_same (compile : RegexpCompiler) (draw : List Nat → ℚ)
    (hschema : p.SchemaAgrees tbl₁ tbl₂) (hr₁ : r₁.WellFormed tbl₁.families tbl₁.granularity)
    (hr₂ : r₂.WellFormed tbl₂.families tbl₂.granularity) (h : p.SameCells r₁ r₂)
    (now gcMicros : Int) {req : CheckAndMutateRowRequest}
    (htrue : req.trueMutations ≠ [] → p.checkMutations r₁.key req.trueMutations = none)
    (hfalse : req.falseMutations ≠ [] → p.checkMutations r₁.key req.falseMutations = none) :
    (checkAndMutate compile draw tbl₁ (some p) now gcMicros req r₁).map Prod.snd =
      (checkAndMutate compile draw tbl₂ (some p) now gcMicros req r₂).map Prod.snd := by
  have hrestrict := restrict_congr hschema hr₁ hr₂ h
  have hgc : (p.restrict r₁).gc tbl₁.gcRules gcMicros =
      (p.restrict r₂).gc tbl₂.gcRules gcMicros := by
    rw [← hrestrict]
    exact gc_congr (restrict_normal)
      (fun fam f hf => hschema.gcRules (restrict_family hr₁.normal hf)) gcMicros
  have hmatched : predicateMatched compile draw tbl₁ (some p) gcMicros
      req.predicateFilter r₁ =
        predicateMatched compile draw tbl₂ (some p) gcMicros req.predicateFilter r₂ := by
    unfold predicateMatched
    simp only [hgc]
    rw [hrestrict]
  unfold checkAndMutate
  rw [hmatched]
  split
  · rfl
  rename_i matched _
  simp only
  have hmuts : (if matched then req.trueMutations else req.falseMutations) ≠ [] →
      p.checkMutations r₁.key
        (if matched then req.trueMutations else req.falseMutations) = none := by
    cases matched with
    | false => exact hfalse
    | true => exact htrue
  generalize (if matched = true then req.trueMutations else req.falseMutations) = muts at hmuts
  split_ifs with hnil
  · rfl
  obtain ⟨hrow, hcheck⟩ := checkMutations_eq_none (hmuts (fun heq => hnil (by rw [heq]; rfl)))
  rw [validateMutations, validateMutations, validateMutationsFrom_same hschema 0 hcheck]
  split
  · rfl
  have hsame := applyMutations_same hschema h hrow now hcheck
  generalize applyMutations tbl₁.families tbl₁.granularity now r₁ muts = x₁ at hsame
  generalize applyMutations tbl₂.families tbl₂.granularity now r₂ muts = x₂ at hsame
  cases hsame with
  | error | ok => rfl

/-- The answer of a conditional mutation is a function of the answer of its
staging. -/
theorem checkAndMutateRow_answer (compile : RegexpCompiler) (draw : List Nat → ℚ) (tbl : Table)
    (view : Option ViewPolicy) (nowNanos : Nat) (predicateMicros : Int) (env : EntryEnv)
    (tx : TxEnv) (req : CheckAndMutateRowRequest) (db : Store) :
    (checkAndMutateRow compile draw tbl view nowNanos predicateMicros env tx req
        db).1 =
      match checkAndMutateRowCheck compile view req with
      | some st => .error st
      | none =>
        match (stage tbl db.rows env ∅ req.rowKey
            (checkAndMutate compile draw tbl view (newTimestamp nowNanos)
              predicateMicros req)).map (fun x => (x.1.userChanges, x.2)) with
        | .error st => .error st
        | .ok (changes, matched) =>
          match tx.failure with
          | some st => if changes = [] then .ok matched else .error st
          | none => .ok matched := by
  generalize hx : checkAndMutateRow compile draw tbl view nowNanos predicateMicros env tx req db = x
  cases checkAndMutateRow_result hx with
  | invalid st hcheck => rw [hcheck]
  | stageError st hcheck hstage =>
    rw [hcheck, hstage]
    rfl
  | unrecorded commit matched hcheck hstage hnone =>
    rw [hcheck, hstage]
    simp only [Except.map, hnone, if_true]
    split <;> rfl
  | txError st commit matched hcheck hstage hsome hpers =>
    rw [hcheck, hstage]
    simp only [Except.map, if_neg hsome]
    unfold persist persistWith at hpers
    cases hfail : tx.failure with
    | none => simp [hfail] at hpers
    | some st' =>
      simp only [hfail] at hpers
      cases hpers
      rfl
  | written commit matched db' hcheck hstage hsome hpers =>
    rw [hcheck, hstage]
    unfold persist persistWith at hpers
    cases hfail : tx.failure with
    | none => rfl
    | some st' => simp [hfail] at hpers

theorem checkAndMutateRowCheck_branches {compile : RegexpCompiler} {req : CheckAndMutateRowRequest}
    (h : checkAndMutateRowCheck compile (some p) req = none) :
    (req.trueMutations ≠ [] →
        p.checkMutations req.rowKey req.trueMutations = none) ∧
      (req.falseMutations ≠ [] → p.checkMutations req.rowKey req.falseMutations = none) := by
  simp only [checkAndMutateRowCheck, Option.or_eq_none_iff] at h
  obtain ⟨_, _, _, htrue, hfalse⟩ := h
  refine ⟨fun hne => ?_, fun hne => ?_⟩
  · rw [if_neg (by rwa [length_eq_zero_iff])] at htrue
    exact htrue
  · rw [if_neg (by rwa [length_eq_zero_iff])] at hfalse
    exact hfalse

/-- Two runs through a view on tables that agree on the view answer alike: reads with
the same rows and statistics, conditional mutations with the same result. -/
structure ViewPolicy.AnswersAlike (p : ViewPolicy) (tbl₁ tbl₂ : Table)
    (db₁ db₂ : Store) : Prop where
  readRows : ∀ compile env req,
    readRows compile tbl₁ (some p) env req db₁ = readRows compile tbl₂ (some p) env req db₂
  checkAndMutateRow : ∀ compile draw nowNanos predicateMicros env tx req,
    (checkAndMutateRow compile draw tbl₁ (some p) nowNanos predicateMicros env tx req
        db₁).1 =
      (checkAndMutateRow compile draw tbl₂ (some p) nowNanos predicateMicros env tx req db₂).1

theorem answersAlike {db₁ db₂ : Store} (hschema : p.SchemaAgrees tbl₁ tbl₂)
    (hrows₁ : RowsWellFormed tbl₁ db₁.rows) (hrows₂ : RowsWellFormed tbl₂ db₂.rows)
    (h : p.RowsAgree db₁.rows db₂.rows) : p.AnswersAlike tbl₁ tbl₂ db₁ db₂ where
  readRows compile env req := by
    have hshown : ((newReadPlan req.rows req.reversed).load db₁.rows).filterMap
        (shownRow tbl₁ (some p) env) =
          ((newReadPlan req.rows req.reversed).load db₂.rows).filterMap
            (shownRow tbl₂ (some p) env) := by
      refine eq_of_inDirection (shownRows_pairwise hrows₁) (shownRows_pairwise hrows₂) (fun r => ?_)
      rw [mem_shownRows hrows₁, mem_shownRows hrows₂, seenRow_congr hschema hrows₁ hrows₂ h]
    unfold readRows
    cases req.check compile env with
    | some st => rfl
    | none => simp only [readLoop_eq_shownLoop, hshown]
  checkAndMutateRow compile draw nowNanos predicateMicros env tx req := by
    rw [checkAndMutateRow_answer, checkAndMutateRow_answer]
    cases hcheck : checkAndMutateRowCheck compile (some p) req with
    | some st => rfl
    | none =>
      obtain ⟨hwf₁, hkey₁⟩ := storedRow_wellFormed hrows₁
      obtain ⟨hwf₂, _⟩ := storedRow_wellFormed hrows₂
      obtain ⟨htrue, hfalse⟩ := checkAndMutateRowCheck_branches hcheck
      have hsame := checkAndMutate_same compile draw hschema hwf₁ hwf₂
        (h.sameCells hrows₁ hrows₂ req.rowKey) (newTimestamp nowNanos) predicateMicros (by rwa [hkey₁]) (by rwa [hkey₁])
      rw [stage_answer, stage_answer, hsame]

end Predicates

section Confinement

/-- The cells of a column after garbage collection at some clock readings. -/
def Collected (tbl : Table) (reading : Int → Prop) (fam : Bytes) (cs cs' : List Cell) : Prop :=
  ∃ instants : List Int,
    (∀ t ∈ instants, reading t) ∧
    cs' = instants.foldl (fun cs t => keptCells tbl.gcRules t fam cs) cs

/-- Outside the view, rows differ by garbage collection only. -/
def ViewPolicy.Confined (p : ViewPolicy) (tbl : Table) (reading : Int → Prop)
    (rows rows' : SqlRows) : Prop :=
  ∀ key fam col, p.contains key fam col = false →
    Collected tbl reading fam ((storedRow rows key).column fam col)
      ((storedRow rows' key).column fam col)

/-- A change of the row `key` that leaves the columns outside the view alone. -/
def ViewPolicy.KeepsOutside {α : Type} (p : ViewPolicy) (key : Bytes)
    (mutate : Row → Except Status (Row × List Mutation × α)) : Prop :=
  ∀ (r candidate : Row) (changes : List Mutation) (result : α),
    mutate r = .ok (candidate, changes, result) →
    ∀ fam col, p.contains key fam col = false → candidate.column fam col = r.column fam col

/-- A commit whose row differs from the stored one by garbage collection only,
outside the view. -/
structure ViewPolicy.CommitConfined (p : ViewPolicy) (tbl : Table) (reading : Int → Prop)
    (rows : SqlRows) (key : Bytes) (c : RowCommit) : Prop where
  key_eq : c.after.key = key
  wellFormed : c.after.WellFormed tbl.families tbl.granularity
  outside : ∀ fam col, p.contains key fam col = false →
    Collected tbl reading fam ((storedRow rows key).column fam col) (c.after.column fam col)

variable {p : ViewPolicy} {tbl : Table} {reading : Int → Prop} {rows : SqlRows}

theorem Collected.refl (fam : Bytes) (cs : List Cell) :
    Collected tbl reading fam cs cs :=
  ⟨[], by simp, rfl⟩

variable {fam key : Bytes} {fams : Families} {col : Bytes}

theorem Collected.keptCells {cs cs' : List Cell} (h : Collected tbl reading fam cs cs') {t : Int}
    (ht : reading t) :
    Collected tbl reading fam cs (keptCells tbl.gcRules t fam cs') := by
  obtain ⟨instants, hreadings, rfl⟩ := h
  refine ⟨instants ++ [t], ?_, by simp⟩
  intro t' ht'
  rcases mem_append.mp ht' with hmem | hmem
  · exact hreadings t' hmem
  · rw [mem_singleton.mp hmem]
    exact ht

/-- What a staging through the view commits is confined to the view, when what was
staged before is. -/
theorem stage_confined {α : Type} {env : EntryEnv} {staged : GoMap RowCommit}
    {mutate : Row → Except Status (Row × List Mutation × α)} {c : RowCommit} {result : α}
    (hrows : RowsWellFormed tbl rows)
    (hstaged : ∀ (k : Bytes) (c' : RowCommit), staged[k]? = some c' →
      p.CommitConfined tbl reading rows k c')
    (hkeeps : KeepsWellFormed tbl mutate)
    (houtside : p.KeepsOutside key mutate)
    (hreading : reading env.gcMicros)
    (h : stage tbl rows env staged key mutate = .ok (c, result)) :
    p.CommitConfined tbl reading rows key c := by
  have hwf : StagedWellFormed tbl staged :=
    fun k c' hc' => ⟨(hstaged k c' hc').key_eq, (hstaged k c' hc').wellFormed⟩
  obtain ⟨hkey, hafter⟩ := stage_wellFormed hrows hwf hkeeps h
  refine ⟨hkey, hafter, fun fam col hcol => ?_⟩
  obtain ⟨base, before, candidate, changes, hbase, hcand, rfl⟩ := stage_eq_ok h
  obtain ⟨_, hbaseWf⟩ := stageBase_wellFormed hrows hwf hbase
  obtain ⟨_, hcandWf⟩ := hkeeps _ _ _ _ hbaseWf hcand
  rw [finishStage_eq hcandWf, gcWithChanges_column hcandWf.normal,
    houtside _ _ _ _ hcand fam col hcol]
  refine Collected.keptCells ?_ hreading
  rcases stageBase_eq_ok hbase with ⟨prev, hprev, hstart⟩ | ⟨_, hstart⟩
  · rw [hstart]
    exact (hstaged key prev hprev).outside fam col hcol
  · rw [hstart]
    exact Collected.refl fam _

/-- The row stored under a key after a list of saves. -/
theorem foldl_save_cases (commits : List RowCommit) (rows : SqlRows) (key : Bytes) :
    (commits.foldl (fun rows c => rows.save c.after) rows)[key]? = rows[key]? ∨
      ∃ c ∈ commits, c.after.key = key ∧
        (commits.foldl (fun rows c => rows.save c.after) rows)[key]? = persistedRow c.after := by
  induction commits generalizing rows with
  | nil => exact .inl rfl
  | cons c commits ih =>
    rcases ih (rows.save c.after) with hsame | ⟨c', hc', hkey, hrow⟩
    · rw [foldl_cons, hsame, save_getElem?]
      by_cases hk : key = c.after.key
      · rw [if_pos hk]
        exact .inr ⟨c, mem_cons_self, hk.symm, rfl⟩
      · rw [if_neg hk]
        exact .inl rfl
    · exact .inr ⟨c', mem_cons_of_mem c hc', hkey, hrow⟩

/-- Saving confined commits changes nothing else outside the view. -/
theorem confined_of_commits {commits : List RowCommit}
    (h : ∀ c ∈ commits, ∃ key, p.CommitConfined tbl reading rows key c) :
    p.Confined tbl reading rows (commits.foldl (fun rows c => rows.save c.after) rows) := by
  intro key fam col hcol
  rcases foldl_save_cases commits rows key with hsame | ⟨c, hc, hkey, hrow⟩
  · unfold storedRow
    rw [hsame]
    exact Collected.refl fam _
  obtain ⟨key', hconfined⟩ := h c hc
  have hkeys : key' = key := hconfined.key_eq.symm.trans hkey
  subst hkeys
  rw [storedRow_column_of_persisted hrow]
  exact hconfined.outside fam col hcol

/-- A mutation that stays in the view changes no column outside it. -/
theorem applyMutation_outside {g : Granularity} {now : Int} {r r' : Row} {m : Mutation}
    {changes : List Mutation} (hm : p.checkMutation m = none)
    (h : applyMutation fams g now r m = .ok (r', changes)) (hcol : p.cellAllowed fam col = false) :
    r'.column fam col = r.column fam col := by
  have hother : ∀ {fam' col' : Bytes}, p.columnError fam' col' = none →
      ¬ (fam = fam' ∧ col = col') := by
    rintro fam' col' hnone ⟨rfl, rfl⟩
    rw [columnError_eq_none hnone] at hcol
    cases hcol
  obtain ⟨kind, origin⟩ := m
  cases kind with
  | none => cases h
  | some kind =>
    cases kind with
    | setCell fam' col' ts value =>
      cases h
      rw [updateColumn_column, if_neg (hother hm)]
    | deleteFromColumn fam' col' timeRange =>
      cases h
      rw [deleteFromColumn_column, if_neg (hother hm)]
    | deleteFromFamily fam' =>
      cases h
      rw [eraseFamily_column, if_neg]
      rintro rfl
      -- the whole family is in the view, so the column is
      simp only [ViewPolicy.checkMutation] at hm
      split_ifs at hm with hfull
      unfold ViewPolicy.familyFullyAllowed at hfull
      unfold ViewPolicy.cellAllowed at hcol
      cases hfam : p.families[fam]? with
      | none => simp [hfam] at hfull
      | some sub =>
        simp only [hfam, any_eq_true, decide_eq_true_eq] at hfull
        obtain ⟨pre, hpre, rfl⟩ := hfull
        simp only [hfam, Bool.or_eq_false_iff, any_eq_false] at hcol
        exact hcol.2 [] hpre rfl
    | deleteFromRow => cases hm
    | addToCell | mergeToCell =>
      obtain ⟨r₁, happly, heq⟩ := exceptMap_eq_ok h
      cases heq
      obtain ⟨value, _, rfl⟩ := applyAggregate_eq_ok happly
      rw [updateColumn_column, if_neg (hother hm)]

theorem applyMutations_outside {g : Granularity} {now : Int} {r r' : Row}
    {muts changes : List Mutation} (hmuts : ∀ m ∈ muts, p.checkMutation m = none)
    (h : applyMutations fams g now r muts = .ok (r', changes))
    (hcol : p.cellAllowed fam col = false) :
    r'.column fam col = r.column fam col := by
  induction muts generalizing r changes with
  | nil =>
    cases h
    rfl
  | cons m muts ih =>
    obtain ⟨r₁, changes₁, changes₂, hfirst, hrest, _⟩ := applyMutations_cons_eq_ok h
    rw [ih (fun m' hm' => hmuts m' (mem_cons_of_mem m hm')) hrest]
    exact applyMutation_outside (hmuts m (by simp)) hfirst hcol

/-- In a row of the view, the columns outside the view are those it does not
allow. -/
theorem cellAllowed_of_not_contains (hrow : p.rowAllowed key = true)
    (h : p.contains key fam col = false) :
    p.cellAllowed fam col = false := by
  simpa [ViewPolicy.contains, hrow] using h

theorem keepsOutside_mutateWith {muts : List Mutation} (now : Int)
    (h : checkView (some p) key muts = none) :
    p.KeepsOutside key (mutateWith tbl now muts) := by
  intro r candidate changes result happly fam col hcol
  obtain ⟨hrow, hmuts⟩ := checkMutations_eq_none h
  obtain ⟨⟨r', changes'⟩, hr', heq⟩ := exceptMap_eq_ok happly
  cases heq
  exact applyMutations_outside hmuts hr' (cellAllowed_of_not_contains hrow hcol)

theorem keepsOutside_checkAndMutate (compile : RegexpCompiler) (draw : List Nat → ℚ)
    (now micros : Int) {req : CheckAndMutateRowRequest}
    (h : checkAndMutateRowCheck compile (some p) req = none) :
    p.KeepsOutside req.rowKey (checkAndMutate compile draw tbl (some p) now micros req) := by
  intro r candidate changes matched happly fam col hcol
  obtain ⟨_, hbranch⟩ := checkAndMutate_eq_ok happly
  rcases hbranch with ⟨_, rfl, _⟩ | ⟨hvalid, hr'⟩
  · rfl
  obtain ⟨htrue, hfalse⟩ := checkAndMutateRowCheck_branches h
  have hne : (if matched then req.trueMutations else req.falseMutations) ≠ [] := by
    intro hnil
    rw [hnil] at hvalid
    simp [validateMutations] at hvalid
  have hcheck : p.checkMutations req.rowKey
      (if matched then req.trueMutations else req.falseMutations) = none := by
    cases matched with
    | false => exact hfalse hne
    | true => exact htrue hne
  obtain ⟨hrow, hmuts⟩ := checkMutations_eq_none hcheck
  exact applyMutations_outside hmuts hr' (cellAllowed_of_not_contains hrow hcol)

theorem keepsOutside_readModifyWrite (nowNanos : Nat → Nat) (visibleMicros : Int)
    {req : ReadModifyWriteRowRequest} (h : p.checkRules req.rowKey req.rules = none) :
    p.KeepsOutside req.rowKey (readModifyWrite tbl nowNanos visibleMicros req) := by
  intro r candidate changes result happly fam col hcol
  unfold ViewPolicy.checkRules at h
  split_ifs at h with hrow
  obtain ⟨s', hs', heq⟩ := exceptMap_eq_ok happly
  cases heq
  refine applyRules_invariant (fun s => s.row.column fam col = r.column fam col) hs' rfl
    (fun rule hmem i s s₁ hs hrule => ?_)
  unfold applyRule at hrule
  simp only at hrule
  split at hrule
  · cases hrule
  cases hrule
  rw [updateColumn_column, if_neg, hs]
  rintro ⟨rfl, rfl⟩
  have hdenied := cellAllowed_of_not_contains hrow hcol
  rw [columnError_eq_none (findSome?_eq_none_iff.mp h rule hmem)] at hdenied
  cases hdenied

variable {db : Store}

theorem RowChange.keepsOutside {α : Type}
    {mutate : Row → Except Status (Row × List Mutation × α)}
    (h : RowChange tbl (some p) key mutate) :
    p.KeepsOutside key mutate := by
  cases h with
  | mutations nowNanos hview _ => exact keepsOutside_mutateWith _ hview
  | conditional compile draw nowNanos micros hkey hcheck =>
    exact hkey ▸ keepsOutside_checkAndMutate compile draw _ micros hcheck
  | rules nowNanos micros hkey hcheck =>
    exact hkey ▸ keepsOutside_readModifyWrite nowNanos micros
      (readModifyWriteRowCheck_eq_none hcheck).1

theorem Written.confined {db' : Store} (hrows : RowsWellFormed tbl db.rows)
    (h : Written tbl (some p) db reading db') :
    p.Confined tbl reading db.rows db'.rows := by
  have hstaged : ∀ {key c}, StagedBy tbl (some p) db.rows reading key c →
      p.CommitConfined tbl reading db.rows key c := by
    intro key c hc
    induction hc with
    | stage _ hchange hreading hstage ih =>
      exact stage_confined hrows ih hchange.keepsWellFormed hchange.keepsOutside hreading hstage
  obtain ⟨tx, commits, extra, hcommits, hextra, _, hpers⟩ := h.persists
  rw [persistWith_rows hextra hpers]
  refine confined_of_commits (fun c hc => ?_)
  obtain ⟨key, hc⟩ := hcommits c hc
  exact ⟨key, hstaged hc⟩

/-- Every write through a view is confined to it; the clock readings are those at
which the call collects garbage. -/
structure ViewPolicy.WritesConfined (p : ViewPolicy) (tbl : Table) (db : Store) : Prop where
  mutateRow : ∀ nowNanos env tx req,
    p.Confined tbl (fun t => t = env.gcMicros) db.rows
      (mutateRow tbl (some p) nowNanos env tx req db).2.rows
  mutateRows : ∀ nowNanos env tx entries,
    p.Confined tbl (fun t => ∃ i, t = (env i).gcMicros) db.rows
      (mutateRows tbl (some p) nowNanos env tx entries db).2.rows
  checkAndMutateRow : ∀ compile draw nowNanos predicateMicros env tx req,
    p.Confined tbl (fun t => t = env.gcMicros) db.rows
      (checkAndMutateRow compile draw tbl (some p) nowNanos predicateMicros env tx req db).2.rows
  readModifyWriteRow : ∀ nowNanos visibleMicros env tx req,
    p.Confined tbl (fun t => t = env.gcMicros) db.rows
      (readModifyWriteRow tbl (some p) nowNanos visibleMicros env tx req db).2.rows

theorem writesConfined (hrows : RowsWellFormed tbl db.rows) : p.WritesConfined tbl db where
  mutateRow _ _ _ _ := (Written.mutateRow ..).confined hrows
  mutateRows _ _ _ _ := (Written.mutateRows ..).confined hrows
  checkAndMutateRow _ _ _ _ _ _ _ := (Written.checkAndMutateRow ..).confined hrows
  readModifyWriteRow _ _ _ _ _ := (Written.readModifyWriteRow ..).confined hrows

end Confinement

section Isolation

/-- An authorized view isolates what is outside it, in both directions. -/
theorem viewPolicy_isolates (p : ViewPolicy) (tbl₁ tbl₂ : Table) (db₁ db₂ : Store)
    (hrows₁ : RowsWellFormed tbl₁ db₁.rows) (hrows₂ : RowsWellFormed tbl₂ db₂.rows) :
    (p.SchemaAgrees tbl₁ tbl₂ → p.RowsAgree db₁.rows db₂.rows → p.AnswersAlike tbl₁ tbl₂ db₁ db₂) ∧
    p.WritesConfined tbl₁ db₁ := by
  exact ⟨fun hschema hagree => answersAlike hschema hrows₁ hrows₂ hagree, writesConfined hrows₁⟩

/-- The view of the column `f:q` of the rows whose keys begin with `a`. -/
def columnView : ViewPolicy :=
  ⟨[118], [[97]], (∅ : GoMap FamilySubset).insert [102] ⟨[[113]], []⟩⟩

/-- The table after a write of the cell `f:r`, which the view does not contain. -/
def hiddenWritten : Store :=
  (mutateRow expiringTable none 0 ⟨0, 0, none, none, 0⟩ ⟨0, fun _ => 0, none⟩
    ⟨[97], [.plain (.setCell [102] [114] 1000 [1])], none⟩ writtenAtZero).2

theorem hiddenWritten_rows {key : Bytes} (h : key ≠ [97]) :
    storedRow hiddenWritten.rows key = storedRow writtenAtZero.rows key := by
  rcases mutateRow_unchanged_or_written with heq | ⟨commit, _, hvalid, hstage, hpers⟩
  · rw [hiddenWritten, heq]
  have hkey := (stage_wellFormed writtenAtZero_wellFormed stagedWellFormed_empty
    (keepsWellFormed_mutateWith 0 hvalid) hstage).1
  have hrows : hiddenWritten.rows = writtenAtZero.rows.save commit.after :=
    persistWith_rows (fun db => recordIdempotency_rows) hpers
  unfold storedRow
  rw [hrows, save_getElem?, hkey, if_neg h]

/-- The view cannot tell the two tables apart, and its writes keep the column. -/
theorem viewPolicy_isolates_hidden_column :
    columnView.AnswersAlike expiringTable expiringTable hiddenWritten writtenAtZero ∧
      columnView.WritesConfined expiringTable hiddenWritten := by
  have hrows : RowsWellFormed expiringTable hiddenWritten.rows :=
    (Written.mutateRow ..).rowsWellFormed writtenAtZero_wellFormed
  have hagree : columnView.RowsAgree hiddenWritten.rows writtenAtZero.rows := by
    intro key fam col hcontains
    by_cases hkey : key = [97]
    · subst hkey
      have hfam : fam = [102] ∧ col = [113] := by
        simp only [ViewPolicy.contains, ViewPolicy.cellAllowed, columnView,
          Bool.and_eq_true, Std.ExtTreeMap.getElem?_insert, Std.compare_eq_iff_eq]
          at hcontains
        split_ifs at hcontains with hfam
        · simp at hcontains
          exact ⟨hfam.symm, hcontains.2⟩
        · simp at hcontains
      rw [hfam.1, hfam.2]
      decide +kernel
    · rw [hiddenWritten_rows hkey]
  obtain ⟨halike, hconfined⟩ := viewPolicy_isolates columnView expiringTable
    expiringTable hiddenWritten writtenAtZero hrows writtenAtZero_wellFormed
  exact ⟨halike ⟨rfl, fun _ _ => rfl⟩ hagree, hconfined⟩

end Isolation

end Bttest
end LittleBigtable
