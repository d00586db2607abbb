import LittleBigtable.Bttest.CommitReplay

/-!
# Replaying the change log

The records that a `MutateRow` or `MutateRows` request appends for a row, applied
in log order to the row as it was before the request, yield the persisted row
exactly when the recorded collections are exact.  A collection is recorded as a
time range of one millisecond, after all user changes of the request; the range
can hold other cells than the collected one, and cells that are written again
after the collection.
-/

namespace LittleBigtable
namespace Bttest

open StableSort List
open StrictDescending

/-- The records that a request appended for a row, in log order. -/
def appendedRecords (db db' : Store) (key : Bytes) : List ChangeRecord :=
  (db'.changeLog.drop db.changeLog.length).filter (fun rec => rec.rowKey = key)

/-- The mutations of records, in log order. -/
def recordedMutations (records : List ChangeRecord) : List Mutation :=
  records.flatMap ChangeRecord.mutations

/-- The mutations of the records of one type. -/
def recordedOfType (changeType : ChangeType) (records : List ChangeRecord) : List Mutation :=
  recordedMutations (records.filter (fun rec => rec.changeType = changeType))

/-- Replaying the appended records of a row on the row as it was before the
request yields the row as it is persisted after it. -/
def ReplayYields (tbl : Table) (db db' : Store) (key : Bytes) : Prop :=
  ∃ r,
    replay tbl.families tbl.granularity (storedRow db.rows key)
      (recordedMutations (appendedRecords db db' key)) = .ok r ∧
    persistedRow r = db'.rows[key]?

/-- The recorded collections of a row describe what was collected: no cell of the
persisted row lies in the time range of a recorded collection of its column, and
each collected position lies in such a range, unless replaying the user
mutations alone already leaves there what is persisted. -/
structure CollectionsExact (tbl : Table) (db db' : Store) (key : Bytes) : Prop where
  keepsPersisted : ∀ fam col, ∀ c ∈ (storedRow db'.rows key).column fam col,
    ∀ m ∈ recordedOfType .garbageCollection (appendedRecords db db' key),
      m.deletesAt fam col c.ts = false
  removesCollected : ∀ fam col ts,
    collectedAt (recordedOfType .garbageCollection (appendedRecords db db' key)) fam col ts →
    (∃ m ∈ recordedOfType .garbageCollection (appendedRecords db db' key),
      m.deletesAt fam col ts = true) ∨
    ∃ u,
      replay tbl.families tbl.granularity (storedRow db.rows key)
        (recordedOfType .user (appendedRecords db db' key)) = .ok u ∧
      u.cellAt fam col ts = (storedRow db'.rows key).cellAt fam col ts

variable {commitMicros : Int} {tbl : Table} {db db' : Store} {commits : List RowCommit}

theorem commitRecords_rowKey {c : RowCommit} {rec : ChangeRecord}
    (h : rec ∈ commitRecords commitMicros c) :
    rec.rowKey = c.key := by
  unfold commitRecords at h
  rcases mem_append.mp h with h | h
  · split_ifs at h
    · rw [mem_singleton] at h
      rw [h]
    · simp at h
  · split_ifs at h
    · rw [mem_singleton] at h
      rw [h]
    · simp at h

theorem commitRecords_user (commitMicros : Int) (c : RowCommit) :
    recordedOfType .user (commitRecords commitMicros c) = c.userChanges := by
  unfold recordedOfType recordedMutations commitRecords
  split_ifs with huser hgc hgc <;> simp_all

theorem commitRecords_gc (commitMicros : Int) (c : RowCommit) :
    recordedOfType .garbageCollection (commitRecords commitMicros c) = c.gcChanges := by
  unfold recordedOfType recordedMutations commitRecords
  split_ifs with huser hgc hgc <;> simp_all

theorem commitRecords_mutations (commitMicros : Int) (c : RowCommit) :
    recordedMutations (commitRecords commitMicros c) = c.userChanges ++ c.gcChanges := by
  unfold recordedMutations commitRecords
  split_ifs with huser hgc hgc <;> simp_all

/-- The appended records of a row are those of its commit. -/
theorem Persisted.appendedRecords_eq (h : Persisted tbl db db' commitMicros commits) (key : Bytes) :
    appendedRecords db db' key =
      match commits.find? (fun c => c.key = key) with
      | none => []
      | some c => commitRecords commitMicros c := by
  unfold appendedRecords
  rw [h.log_eq, drop_left]
  have hdistinct := h.distinct
  clear h
  induction commits with
  | nil => rfl
  | cons c commits ih =>
    obtain ⟨hhead, htail⟩ := pairwise_cons.mp hdistinct
    rw [flatMap_cons, filter_append, ih htail, List.find?_cons]
    by_cases hk : c.key = key
    · have hnone : commits.find? (fun c => c.key = key) = none := by
        rw [List.find?_eq_none]
        intro c' hc' hk'
        exact hhead c' hc' (hk.trans (of_decide_eq_true hk').symm)
      have hall : (commitRecords commitMicros c).filter
          (fun rec => rec.rowKey = key) = commitRecords commitMicros c := by
        rw [filter_eq_self]
        intro rec hrec
        rw [commitRecords_rowKey hrec]
        simpa using hk
      simp [hk, hnone, hall]
    · have hnil : (commitRecords commitMicros c).filter (fun rec => rec.rowKey = key) = [] := by
        rw [filter_eq_nil_iff]
        intro rec hrec
        rw [commitRecords_rowKey hrec]
        simpa using hk
      simp [hk, hnil]

theorem Persisted.rows_getElem? (h : Persisted tbl db db' commitMicros commits) (key : Bytes) :
    db'.rows[key]? =
      match commits.find? (fun c => c.key = key) with
      | none => db.rows[key]?
      | some c => persistedRow c.after := by
  rw [h.rows_eq, foldl_save_getElem? RowCommit.key RowCommit.after
    (fun c hc => (h.commits_replay c hc).after_key) h.distinct db.rows key]
  cases commits.find? (fun c => c.key = key) <;> rfl

theorem Row.WellFormed.eq_of_persistedRow {fams : Families} {g : Granularity} {r₁ r₂ : Row}
    (h₁ : r₁.WellFormed fams g) (h₂ : r₂.WellFormed fams g) (hkey : r₁.key = r₂.key)
    (h : persistedRow r₁ = persistedRow r₂) :
    r₁ = r₂ := by
  unfold persistedRow at h
  split_ifs at h with hempty₁ hempty₂
  · refine h₁.ext h₂ hkey (fun fam col ts => ?_)
    unfold Row.cellAt
    rw [(isEmpty_iff r₁).mp hempty₁ fam col, (isEmpty_iff r₂).mp hempty₂ fam col]
  · exact Option.some.inj h

theorem storedRow_of_persistedRow {fams : Families} {g : Granularity} {rows : SqlRows} {key : Bytes}
    {r : Row} (hr : r.WellFormed fams g) (hkey : r.key = key) (h : rows[key]? = persistedRow r) :
    storedRow rows key = r := by
  unfold storedRow
  rw [h]
  unfold persistedRow
  split_ifs with hempty
  · refine (newRow_wellFormed key).ext hr hkey.symm (fun fam col ts => ?_)
    unfold Row.cellAt
    rw [(isEmpty_iff r).mp hempty fam col, newRow_column]
  · rfl

/-- A commit replays exactly when its collections are exact. -/
theorem CommitReplays.replay_iff {rows : SqlRows} {key : Bytes} {c : RowCommit}
    (h : CommitReplays tbl rows key c) :
    (∃ r,
      replay tbl.families tbl.granularity (storedRow rows key)
        (c.userChanges ++ c.gcChanges) = .ok r ∧
      persistedRow r = persistedRow c.after) ↔
    (∀ fam col, ∀ cell ∈ c.after.column fam col, ∀ m ∈ c.gcChanges,
      m.deletesAt fam col cell.ts = false) ∧
    (∀ fam col ts, collectedAt c.gcChanges fam col ts →
      (∃ m ∈ c.gcChanges, m.deletesAt fam col ts = true) ∨
      ∃ u,
        replay tbl.families tbl.granularity (storedRow rows key) c.userChanges = .ok u ∧
        u.cellAt fam col ts = c.after.cellAt fam col ts) := by
  obtain ⟨u, hu, hstep⟩ := h.replays
  have hdel : ∀ m ∈ c.gcChanges, m.IsDeletion := by
    intro m hm
    obtain ⟨fam, col, cell, rfl⟩ := h.gcChanges_form m hm
    exact gcChange_isDeletion fam col cell
  obtain ⟨r, hr, hwf, hkey, _, hcell⟩ :=
    applyMutations_deletions hstep.wellFormed 0 c.gcChanges hdel
  have hreplay : replay tbl.families tbl.granularity (storedRow rows key)
      (c.userChanges ++ c.gcChanges) = .ok r := by
    rw [replay_append hu, replay_eq_ok hr]
  have hrkey : r.key = c.after.key := hkey.trans hstep.key
  -- the replay yields the row exactly when the cells agree everywhere
  have hiff : (∃ r,
      replay tbl.families tbl.granularity (storedRow rows key)
        (c.userChanges ++ c.gcChanges) = .ok r ∧
      persistedRow r = persistedRow c.after) ↔
      ∀ fam col ts, r.cellAt fam col ts = c.after.cellAt fam col ts := by
    rw [hreplay]
    constructor
    · rintro ⟨r', hr', heq⟩
      cases hr'
      rw [hwf.eq_of_persistedRow h.after_wellFormed hrkey heq]
      exact fun _ _ _ => rfl
    · intro hsame
      exact ⟨r, rfl, by rw [hwf.ext h.after_wellFormed hrkey hsame]⟩
  rw [hiff]
  have hmem : ∀ {fam col : Bytes} {cell : Cell},
      cell ∈ c.after.column fam col →
      c.after.cellAt fam col cell.ts = some cell := by
    intro fam col cell hcell
    exact (h.after_wellFormed.strict fam col).lookup_eq_some_iff.mpr ⟨hcell, rfl⟩
  constructor
  · intro hsame
    refine ⟨?_, ?_⟩
    · intro fam col cell hin m hm
      by_contra htrue
      rw [Bool.not_eq_false] at htrue
      have hnone := hsame fam col cell.ts
      rw [hcell, hmem hin, if_pos (any_eq_true.mpr ⟨m, hm, htrue⟩)] at hnone
      cases hnone
    intro fam col ts _
    by_cases hany : ∃ m ∈ c.gcChanges, m.deletesAt fam col ts = true
    · exact .inl hany
    right
    refine ⟨u, hu, ?_⟩
    have hnot := hsame fam col ts
    rw [hcell, if_neg (fun hany' => hany (any_eq_true.mp hany'))] at hnot
    exact hnot
  · rintro ⟨hkeeps, hremoves⟩ fam col ts
    rw [hcell]
    split_ifs with hany
    · obtain ⟨m, hm, htrue⟩ := any_eq_true.mp hany
      cases hafter : c.after.cellAt fam col ts with
      | none => rfl
      | some cell =>
        obtain ⟨hin, rfl⟩ := (h.after_wellFormed.strict fam col).lookup_eq_some_iff.mp hafter
        rw [hkeeps fam col cell hin m hm] at htrue
        cases htrue
    · by_cases hcollected : collectedAt c.gcChanges fam col ts
      · rcases hremoves fam col ts hcollected with hdeleted | ⟨u', hu', heq⟩
        · exact absurd (any_eq_true.mpr hdeleted) hany
        · rw [hu] at hu'
          cases hu'
          exact heq
      · exact hstep.agrees fam col ts hcollected

theorem Persisted.replayYields_iff (hrows : RowsWellFormed tbl db.rows)
    (h : Persisted tbl db db' commitMicros commits) (key : Bytes) :
    ReplayYields tbl db db' key ↔ CollectionsExact tbl db db' key := by
  have hrecs := h.appendedRecords_eq key
  have hrow := h.rows_getElem? key
  cases hfind : commits.find? (fun c => c.key = key) with
  | none =>
    simp only [hfind] at hrecs hrow
    constructor
    · intro _
      refine ⟨?_, ?_⟩
      · intro fam col c _ m hm
        rw [hrecs] at hm
        simp [recordedOfType, recordedMutations] at hm
      · intro fam col ts hcollected
        rw [hrecs] at hcollected
        simp [collectedAt, recordedOfType, recordedMutations] at hcollected
    intro _
    refine ⟨storedRow db.rows key, by rw [hrecs]; rfl, ?_⟩
    rw [hrow]
    unfold storedRow persistedRow
    cases hr : db.rows[key]? with
    | none =>
      have hempty : (newRow key).isEmpty = true := by
        rw [isEmpty_iff]
        exact newRow_column key
      simp [hempty]
    | some r => simp [(hrows key r hr).2.1]
  | some c =>
    simp only [hfind] at hrecs hrow
    have hmem := mem_of_find?_eq_some hfind
    have hkey : c.key = key := by
      simpa using List.find?_some hfind
    have hc := h.commits_replay c hmem
    rw [hkey] at hc
    have hstored : storedRow db'.rows key = c.after :=
      storedRow_of_persistedRow hc.after_wellFormed hc.after_key hrow
    have hiff := hc.replay_iff
    unfold ReplayYields
    rw [hrecs, commitRecords_mutations, hrow, hiff]
    constructor
    · rintro ⟨hkeeps, hremoves⟩
      refine ⟨?_, ?_⟩
      · rw [hstored, hrecs, commitRecords_gc]
        exact hkeeps
      · rw [hstored, hrecs, commitRecords_gc, commitRecords_user]
        exact hremoves
    · rintro ⟨hkeeps, hremoves⟩
      rw [hstored, hrecs, commitRecords_gc] at hkeeps hremoves
      rw [commitRecords_user] at hremoves
      exact ⟨hkeeps, hremoves⟩

/-- A table with a change stream whose only family keeps one version. -/
def singleVersionTable (g : Granularity) : Table :=
  tableWithFamily (some (.maxNumVersions 1)) g true

/-- A `MutateRow` that writes two versions of one cell. -/
def writeTwoVersions (ts₁ ts₂ : Int) : WriteRequest :=
  .mutateRow none 0 ⟨0, 0, none, none, 0⟩ ⟨0, fun _ => 0, none⟩
    ⟨[107], [.plain (.setCell [102] [113] ts₁ [1]), .plain (.setCell [102] [113] ts₂ [2])], none⟩

end Bttest
end LittleBigtable
