import LittleBigtable.Bttest.ViewRestriction

/-!
# `CheckAndMutateRow` and reads

The predicate of a conditional mutation is compared with a read of the same row
through the same view, with the same filter and at the same instant.  The two
paths restrict and collect in different orders, which makes no difference.  They
differ in one case: without a predicate filter, the conditional mutation looks at
the row before garbage collection.
-/

namespace LittleBigtable
namespace Bttest

open List

section Branch

/-- Mutations that record no change leave the row as it is; they are deletions of
a row without families. -/
theorem applyMutation_unrecorded {fams : Families} {g : Granularity} {now : Int} {r r' : Row}
    {m : Mutation} (h : applyMutation fams g now r m = .ok (r', [])) :
    r' = r ∧ r.families = ∅ := by
  unfold applyMutation at h
  split at h
  · cases h
  · cases h
  · cases h
  · simp only [Except.ok.injEq, Prod.mk.injEq, map_eq_nil_iff] at h
    obtain ⟨rfl, hnone⟩ := h
    have hempty : r.families = ∅ := by
      rw [FiniteMap.eq_empty_iff]
      intro fam
      cases hfam : r.families[fam]? with
      | none => rfl
      | some f =>
        have hmem := mem_sortedFamilies.mpr hfam
        rw [hnone] at hmem
        cases hmem
    refine ⟨?_, hempty⟩
    rw [← hempty]
  · obtain ⟨_, _, hr⟩ := exceptMap_eq_ok h
    cases hr
  · obtain ⟨_, _, hr⟩ := exceptMap_eq_ok h
    cases hr
  · cases h

theorem applyMutations_unrecorded {fams : Families} {g : Granularity} {now : Int} {r r' : Row}
    {muts : List Mutation} (hne : muts ≠ []) (h : applyMutations fams g now r muts = .ok (r', [])) :
    r' = r ∧ r.families = ∅ := by
  induction muts generalizing r with
  | nil => exact absurd rfl hne
  | cons m muts ih =>
    obtain ⟨r₁, changes₁, changes₂, hfirst, hrest, hchanges⟩ := applyMutations_cons_eq_ok h
    obtain ⟨rfl, rfl⟩ := nil_eq_append_iff.mp hchanges
    obtain ⟨rfl, hempty⟩ := applyMutation_unrecorded hfirst
    cases muts with
    | nil =>
      cases hrest
      exact ⟨rfl, hempty⟩
    | cons m' muts => exact ih (by simp) hrest

/-- The rows of `db'` are those of `db` with the row `key` changed by exactly the
mutations `muts`, and collected.  Without mutations nothing changes. -/
structure BranchApplied (tbl : Table) (now gcMicros : Int) (key : Bytes) (muts : List Mutation)
    (db db' : Store) : Prop where
  unchanged : muts = [] → db' = db
  applied : muts ≠ [] → ∃ r changes,
    applyMutations tbl.families tbl.granularity now (storedRow db.rows key) muts =
      .ok (r, changes) ∧
    ∀ k : Bytes, db'.rows[k]? =
      if k = key then persistedRow (r.gc tbl.gcRules gcMicros) else db.rows[k]?

end Branch

section Predicate

variable {compile : RegexpCompiler} {tbl : Table} {view : Option ViewPolicy} {db : Store}

/-- A read of the single key returns at least one cell. -/
def ReadsCell (compile : RegexpCompiler) (tbl : Table) (view : Option ViewPolicy) (env : ReadEnv)
    (key : Bytes) (filter : RowFilter) (db : Store) : Prop :=
  ∃ rows stats,
    readRows compile tbl view env (singleKeyRead key filter) db = .ok (rows, stats) ∧
    ∃ r ∈ rows, ∃ fam col c, c ∈ r.column fam col

/-- What a request sees of a stored row at an instant. -/
def seenRow (tbl : Table) (view : Option ViewPolicy) (micros : Int) (rows : SqlRows)
    (key : Bytes) : Row :=
  (restrictTo view (storedRow rows key)).gc tbl.gcRules micros

theorem seenRow_normal {view : Option ViewPolicy} (hrows : RowsWellFormed tbl db.rows)
    {micros : Int} {key : Bytes} :
    (seenRow tbl view micros db.rows key).Normal ∧
      (seenRow tbl view micros db.rows key).key = key := by
  obtain ⟨hwf, hkey⟩ := storedRow_wellFormed hrows
  refine ⟨gc_normal (restrictTo_normal view hwf.normal) _ _, ?_⟩
  unfold seenRow
  rw [gc_key, restrictTo_key, hkey]

variable {micros : Int} {key : Bytes} {filter : RowFilter}

theorem seenRow_isEmpty_of_absent (h : db.rows[key]? = none) :
    (seenRow tbl view micros db.rows key).isEmpty = true := by
  have hrow : storedRow db.rows key = newRow key := by
    simp only [storedRow, h, Option.getD_none]
  unfold seenRow
  rw [hrow]
  refine isEmpty_gc (restrictTo_normal view (newRow_normal key)) ?_ _ _
  rw [isEmpty_iff]
  intro fam col
  have hsub := restrictTo_column_sublist view (newRow_normal key) fam col
  rw [newRow_column] at hsub
  exact sublist_nil.mp hsub

/-- A read of one key answers what the filter selects of the seen row. -/
theorem readsCell_iff {env : ReadEnv} (hrows : RowsWellFormed tbl db.rows)
    (hload : env.loadError = none) (hfilter : validateFilter compile filter = none)
    (hsample : filter.sampleFree = true) :
    ReadsCell compile tbl view env key filter db ↔
      filterListing compile key filter
        (seenRow tbl view (env.gcMicros key) db.rows key).listing ≠ [] := by
  obtain ⟨stats, hread⟩ := readRows_singleKeyRead tbl view key
    (fun key r hr => ⟨(hrows key r hr).1, (hrows key r hr).2.2.normal⟩) hload hfilter hsample
  unfold ReadsCell
  constructor
  · rintro ⟨rows, stats', hrows', r, hr, _⟩
    rw [hread] at hrows'
    cases hrows'
    obtain ⟨stored, hrow, hemitted⟩ := Option.bind_eq_some_iff.mp (Option.mem_toList.mp hr)
    obtain ⟨rfl, _, hwf⟩ := hrows key stored hrow
    have hfor : EmittedFor compile tbl view (env.gcMicros stored.key) filter stored r :=
      (emittedRow_eq_some hfilter hsample hwf.normal).mp hemitted
    obtain ⟨r₀, hvis, hlisting⟩ := hfor.listing_eq
    have hne := hfor.nonempty
    rw [hlisting] at hne
    rcases visibleRow_eq hwf with hsome | ⟨hnone, _⟩
    · rw [hsome] at hvis
      cases hvis
      simpa [seenRow, storedRow, hrow] using hne
    · rw [hnone] at hvis
      cases hvis
  intro hne
  cases hrow : db.rows[key]? with
  | none =>
    refine absurd ?_ hne
    rw [(seenRow_normal hrows).1.isEmpty_iff_listing.mp
      (seenRow_isEmpty_of_absent hrow), filterListing_nil]
  | some stored =>
    obtain ⟨rfl, _, hwf⟩ := hrows key stored hrow
    have hseen : seenRow tbl view (env.gcMicros stored.key) db.rows stored.key =
        (restrictTo view stored).gc tbl.gcRules (env.gcMicros stored.key) := by
      simp only [seenRow, storedRow, hrow, Option.getD_some]
    rw [hseen] at hne
    rcases visibleRow_eq hwf with hsome | ⟨_, hempty⟩
    · obtain ⟨hnormal, hkey⟩ := visibleRow_normal hwf.normal hsome
      obtain ⟨r', _, hnormal', hkey', hlisting⟩ :=
        filterRow_denotes hfilter hsample (fun _ => 0) hnormal
      rw [hkey] at hkey' hlisting
      rw [← hlisting] at hne
      refine ⟨_, stats, hread, r', ?_, ?_⟩
      · rw [Option.mem_toList, hrow]
        exact (emittedRow_eq_some hfilter hsample hwf.normal).mpr
          ⟨hkey', hnormal', hne, _, hsome, hlisting⟩
      rw [ne_eq, ← hnormal'.isEmpty_iff_listing, isEmpty_iff] at hne
      push Not at hne
      obtain ⟨fam, col, hcol⟩ := hne
      exact ⟨fam, col, exists_mem_of_ne_nil _ hcol⟩
    · refine absurd ?_ hne
      rw [(gc_normal (restrictTo_normal view hwf.normal) _ _).isEmpty_iff_listing.mp hempty,
        filterListing_nil]

/-- The predicate of a conditional mutation, with a filter, selects from the same
row as the read. -/
theorem predicateMatched_of_filter {draw : List Nat → ℚ} {matched : Bool}
    (hrows : RowsWellFormed tbl db.rows) (hfilter : validateFilter compile filter = none)
    (hsample : filter.sampleFree = true) (hsome : filter.isNil = false)
    (h : predicateMatched compile draw tbl view micros filter (storedRow db.rows key) =
      .ok matched) :
    matched = true ↔
      filterListing compile key filter (seenRow tbl view micros db.rows key).listing ≠ [] := by
  obtain ⟨hnormal, hkey⟩ := seenRow_normal hrows
  obtain ⟨r', hrun, hr', _, hlisting⟩ := filterRow_denotes hfilter hsample draw hnormal
  rw [hkey] at hlisting
  have hmatched : predicateMatched compile draw tbl view micros filter
      (storedRow db.rows key) = .ok (!r'.isEmpty) := by
    unfold predicateMatched
    simp only [hsome, Bool.false_eq_true, if_false]
    change (filterRow compile draw filter (seenRow tbl view micros db.rows key)).map Prod.fst = _
    rw [hrun]
    rfl
  rw [hmatched] at h
  cases h
  rw [← hlisting, ne_eq, ← hr'.isEmpty_iff_listing]
  cases r'.isEmpty <;> simp

theorem filterListing_of_nil {r : Row} (key : Bytes) (hr : r.Normal) (hnil : filter.isNil = true) :
    filterListing compile key filter r.listing = r.listing := by
  cases filter <;> simp [RowFilter.isNil] at hnil
  exact sortListing_listing hr

end Predicate

section Agreement

variable {compile : RegexpCompiler} {tbl : Table} {view : Option ViewPolicy} {db db' : Store}

/-- A row without families is not stored, and stays so. -/
theorem persisted_of_no_families {key : Bytes} {micros : Int} (hrows : RowsWellFormed tbl db.rows)
    (h : (storedRow db.rows key).families = ∅) (k : Bytes) :
    db.rows[k]? =
      if k = key then persistedRow ((storedRow db.rows key).gc tbl.gcRules micros)
      else db.rows[k]? := by
  obtain ⟨hwf, _⟩ := storedRow_wellFormed hrows
  have hempty : (storedRow db.rows key).isEmpty = true := hwf.normal.isEmpty_iff_families.mpr h
  split_ifs with hk
  · subst hk
    have hnone : db.rows[k]? = none := by
      cases hrow : db.rows[k]? with
      | none => rfl
      | some r =>
        simp only [storedRow, hrow, Option.getD_some] at hempty
        rw [(hrows k r hrow).2.1] at hempty
        cases hempty
    rw [hnone, persistedRow, isEmpty_gc hwf.normal hempty]
    rfl
  · rfl

/-- What a conditional mutation that succeeds has done. -/
theorem checkAndMutateRow_eq_ok {draw : List Nat → ℚ} {nowNanos : Nat} {predicateMicros : Int}
    {env : EntryEnv} {tx : TxEnv} {req : CheckAndMutateRowRequest} {matched : Bool}
    (hrows : RowsWellFormed tbl db.rows)
    (h : checkAndMutateRow compile draw tbl view nowNanos predicateMicros env tx req
      db = (.ok matched, db')) :
    validateFilter compile req.predicateFilter = none ∧
      predicateMatched compile draw tbl view predicateMicros req.predicateFilter
        (storedRow db.rows req.rowKey) = .ok matched ∧
      BranchApplied tbl (newTimestamp nowNanos) env.gcMicros req.rowKey
        (if matched then req.trueMutations else req.falseMutations) db db' := by
  cases checkAndMutateRow_result h with
  | unrecorded commit _ hcheck hstage hnone =>
    simp only [checkAndMutateRowCheck, Option.or_eq_none_iff] at hcheck
    obtain ⟨candidate, hmutate, _⟩ := stage_fresh_eq_ok hrows
      (keepsWellFormed_checkAndMutate)
      hstage
    obtain ⟨hpred, hbranch⟩ := checkAndMutate_eq_ok hmutate
    refine ⟨hcheck.2.2.1, hpred, fun _ => rfl, fun hne => ?_⟩
    rcases hbranch with ⟨hnil, _⟩ | ⟨_, happly⟩
    · exact absurd hnil hne
    · rw [hnone] at happly
      obtain ⟨rfl, hfamilies⟩ := applyMutations_unrecorded hne happly
      exact ⟨_, _, happly, fun k => persisted_of_no_families hrows hfamilies k⟩
  | written commit _ _ hcheck hstage hsome hpers =>
    simp only [checkAndMutateRowCheck, Option.or_eq_none_iff] at hcheck
    obtain ⟨candidate, hmutate, hafter, hkey, _⟩ := stage_fresh_eq_ok hrows
      (keepsWellFormed_checkAndMutate)
      hstage
    obtain ⟨hpred, hbranch⟩ := checkAndMutate_eq_ok hmutate
    rcases hbranch with ⟨_, _, hnil⟩ | ⟨hvalid, happly⟩
    · exact absurd hnil hsome
    refine ⟨hcheck.2.2.1, hpred, fun hnil => ?_,
      fun _ => ⟨candidate, commit.userChanges, happly, fun k => ?_⟩⟩
    · rw [hnil] at hvalid
      simp [validateMutations] at hvalid
    · rw [persistWith_rows (fun _ => rfl) hpers]
      change (db.rows.save commit.after)[k]? = _
      rw [save_getElem?, hafter, gc_key, hkey]

/-- Whether only cells that GC would remove are left of the row in the view. -/
def onlyCollectable (tbl : Table) (view : Option ViewPolicy) (micros : Int) (rows : SqlRows)
    (key : Bytes) : Bool :=
  !(restrictTo view (storedRow rows key)).isEmpty && (seenRow tbl view micros rows key).isEmpty

/-- A conditional mutation that succeeds reports a match exactly when a read of the
row with the same filter and view at the same instant returns a cell, and applies
exactly the selected branch, if and only if it has a predicate filter or the row
does not consist of cells that GC would remove. -/
theorem checkAndMutateRow_agrees_iff (compile : RegexpCompiler) (draw : List Nat → ℚ) (tbl : Table)
    (view : Option ViewPolicy) (nowNanos : Nat) (predicateMicros : Int) (env : EntryEnv)
    (tx : TxEnv) (req : CheckAndMutateRowRequest) (db db' : Store) (matched : Bool)
    (readEnv : ReadEnv) (hload : readEnv.loadError = none)
    (hinstant : readEnv.gcMicros req.rowKey = predicateMicros) (hrows : RowsWellFormed tbl db.rows)
    (hsample : req.predicateFilter.sampleFree = true)
    (h : checkAndMutateRow compile draw tbl view nowNanos predicateMicros env tx req
      db = (.ok matched, db')) :
    ((matched = true ↔
        ReadsCell compile tbl view readEnv req.rowKey req.predicateFilter db) ∧
      BranchApplied tbl (newTimestamp nowNanos) env.gcMicros req.rowKey
        (if matched then req.trueMutations else req.falseMutations) db db') ↔
    (req.predicateFilter.isNil = true →
      onlyCollectable tbl view predicateMicros db.rows req.rowKey = false) := by
  obtain ⟨hfilter, hpredicate, hbranch⟩ := checkAndMutateRow_eq_ok hrows h
  rw [and_iff_left hbranch, readsCell_iff hrows hload hfilter hsample, hinstant]
  cases hnil : req.predicateFilter.isNil with
  | false =>
    rw [predicateMatched_of_filter hrows hfilter hsample hnil hpredicate]
    simp
  | true =>
    obtain ⟨hnormal, _⟩ := seenRow_normal hrows
    have hmatched : matched = !(restrictTo view (storedRow db.rows req.rowKey)).isEmpty := by
      unfold predicateMatched at hpredicate
      rw [if_pos hnil] at hpredicate
      cases hpredicate
      cases view <;> rfl
    rw [hmatched, filterListing_of_nil req.rowKey hnormal hnil, ne_eq,
      ← hnormal.isEmpty_iff_listing, onlyCollectable]
    have hgc : (restrictTo view (storedRow db.rows req.rowKey)).isEmpty = true →
        (seenRow tbl view predicateMicros db.rows req.rowKey).isEmpty = true :=
      fun hempty => isEmpty_gc (restrictTo_normal view
        (storedRow_wellFormed hrows).1.normal) hempty _ _
    revert hgc
    cases (restrictTo view (storedRow db.rows req.rowKey)).isEmpty <;>
      cases (seenRow tbl view predicateMicros db.rows req.rowKey).isEmpty <;> simp

theorem answered {α : Type} {a : α} {call : Except Status α × Store}
    (h : call.1.toOption = some a) :
    call = (.ok a, call.2) := by
  obtain ⟨result, db⟩ := call
  cases result with
  | error st => cases h
  | ok b =>
    cases h
    rfl

/-- A table whose family `f` keeps cells for one second. -/
def expiringTable : Table :=
  tableWithFamily (some (.maxAge 1000000)) ⟨false⟩ false

/-- The row `a` after a write of the cell `f:q` at time zero. -/
def writtenAtZero : Store :=
  (mutateRow expiringTable none 0 ⟨0, 0, none, none, 0⟩ ⟨0, fun _ => 0, none⟩
    ⟨[97], [.plain (.setCell [102] [113] 1000 [1])], none⟩ ⟨∅, ∅, []⟩).2

theorem writtenAtZero_wellFormed :
    RowsWellFormed expiringTable writtenAtZero.rows := by
  refine (Written.mutateRow ..).rowsWellFormed ?_
  intro key r hr
  simp at hr

/-- Write the cell `f:r` of the row `a` if the row matches. -/
def markIfMatched (predicateFilter : RowFilter) : CheckAndMutateRowRequest :=
  ⟨[97], predicateFilter, [.plain (.setCell [102] [114] 2000000 [1])], []⟩

/-- Two seconds later, a conditional mutation without a predicate filter still
matches the expired cell, though a read of the row returns nothing. -/
theorem checkAndMutateRow_matches_expired :
    ∃ db',
      checkAndMutateRow (fun _ => .ok (fun _ => true)) (fun _ => 0) expiringTable none
        2000000000 2000000 ⟨0, 0, none, none, 2000000⟩ ⟨0, fun _ => 0, none⟩
        (markIfMatched .nil) writtenAtZero = (.ok true, db') ∧
      ((storedRow db'.rows [97]).column [102] [114]).length = 1 ∧
      (readRows (fun _ => .ok (fun _ => true)) expiringTable none
        ⟨fun _ _ => 0, fun _ => 2000000, false, none⟩ (singleKeyRead [97] .nil)
        writtenAtZero).toOption.map (fun x => x.1.length) = some 0 :=
  ⟨_, answered (by decide +kernel), by decide +kernel, by decide +kernel⟩

/-- With a filter that passes everything, the same mutation and the same read
agree. -/
theorem checkAndMutateRow_agrees_pass_all :
    ∃ db',
      checkAndMutateRow (fun _ => .ok (fun _ => true)) (fun _ => 0) expiringTable none
        2000000000 2000000 ⟨0, 0, none, none, 2000000⟩ ⟨0, fun _ => 0, none⟩
        (markIfMatched (.passAllFilter true)) writtenAtZero = (.ok false, db') ∧
      (false = true ↔
        ReadsCell (fun _ => .ok (fun _ => true)) expiringTable none
          ⟨fun _ _ => 0, fun _ => 2000000, false, none⟩ [97] (.passAllFilter true)
          writtenAtZero) ∧
      db' = writtenAtZero := by
  obtain ⟨db', hrun⟩ : ∃ db',
      checkAndMutateRow (fun _ => .ok (fun _ => true)) (fun _ => 0) expiringTable none
        2000000000 2000000 ⟨0, 0, none, none, 2000000⟩ ⟨0, fun _ => 0, none⟩
        (markIfMatched (.passAllFilter true)) writtenAtZero = (.ok false, db') :=
    ⟨_, answered (by decide +kernel)⟩
  obtain ⟨hread, hbranch⟩ :=
    (checkAndMutateRow_agrees_iff _ _ _ _ _ _ _ _ _ _ db' false
      ⟨fun _ _ => 0, fun _ => 2000000, false, none⟩ rfl rfl
      writtenAtZero_wellFormed rfl hrun).mpr
      (fun h => nomatch h)
  exact ⟨db', hrun, hread, hbranch.unchanged rfl⟩

end Agreement

end Bttest
end LittleBigtable
