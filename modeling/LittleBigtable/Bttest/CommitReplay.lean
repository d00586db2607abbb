import LittleBigtable.Bttest.Replay

/-!
# What a commit records

The commit of a row carries the recorded user changes of all entries on the row,
followed by the recorded collections of all of them.  Replaying the user changes
stays in step with the row at every position that no collection touched.
-/

namespace LittleBigtable
namespace Bttest

open StableSort
open StrictDescending

section Collections

/-- A collection of the cell at a position is among the recorded changes. -/
def collectedAt (changes : List Mutation) (fam col : Bytes) (ts : Int) : Prop :=
  gcChange fam col ⟨ts, [], []⟩ ∈ changes

variable {fams : Families} {g : Granularity}

/-- A collection keeps every cell that it does not record. -/
theorem Row.WellFormed.gcWithChanges_cellAt {r : Row} (h : r.WellFormed fams g)
    (rules : GoMap GcRule) (nowMicros : Int) {fam col : Bytes} {ts : Int}
    (hnot : ¬ collectedAt (r.gcWithChanges rules nowMicros).2 fam col ts) :
    (r.gcWithChanges rules nowMicros).1.cellAt fam col ts =
      r.cellAt fam col ts := by
  have hsub := keptCells_sublist rules nowMicros fam (r.column fam col)
  have hstrict := (h.strict fam col).sublist hsub
  unfold Row.cellAt
  rw [gcWithChanges_column h.normal]
  cases hcell : lookup Cell.ts ts (r.column fam col) with
  | none =>
    rw [lookup_eq_none_iff] at hcell ⊢
    exact fun c hc => hcell c (hsub.subset hc)
  | some c =>
    obtain ⟨hmem, hts⟩ := (h.strict fam col).lookup_eq_some_iff.mp hcell
    rw [hstrict.lookup_eq_some_iff]
    refine ⟨?_, hts⟩
    rw [← (keptCells_removedCells_perm).mem_iff, List.mem_append] at hmem
    rcases hmem with hkept | hremoved
    · exact hkept
    -- a removed cell would have been recorded
    refine absurd ?_ hnot
    subst hts
    exact (mem_gcWithChanges_snd h.normal rules nowMicros _).mpr ⟨fam, col, c, hremoved, rfl⟩

theorem gcChange_isDeletion (fam col : Bytes) (c : Cell) :
    (gcChange fam col c).IsDeletion := by
  trivial

end Collections

section Commits

variable {tbl : Table} {rows : SqlRows} {key : Bytes}

/-- What a commit records of the changes to its row. -/
structure CommitReplays (tbl : Table) (rows : SqlRows) (key : Bytes) (c : RowCommit) : Prop where
  key_eq : c.key = key
  before_eq : c.before = rows[key]?
  after_key : c.after.key = key
  after_wellFormed : c.after.WellFormed tbl.families tbl.granularity
  gcChanges_form : ∀ m ∈ c.gcChanges, ∃ fam col cell, m = gcChange fam col cell
  replays : ∃ u,
    replay tbl.families tbl.granularity (storedRow rows key) c.userChanges = .ok u ∧
    InStep tbl.families tbl.granularity
      (fun fam col ts => ¬ collectedAt c.gcChanges fam col ts) u c.after

/-- The commit before anything is staged. -/
theorem commitReplays_initial (hrows : RowsWellFormed tbl rows)
    (htyped : ∀ (key : Bytes) (r : Row), rows[key]? = some r → r.WellTyped tbl.families)
    (key : Bytes) :
    CommitReplays tbl rows key ⟨key, rows[key]?, storedRow rows key, [], []⟩ := by
  have hstored : (storedRow rows key).key = key ∧
      (storedRow rows key).WellFormed tbl.families tbl.granularity ∧
      (storedRow rows key).WellTyped tbl.families := by
    unfold storedRow
    cases hr : rows[key]? with
    | none => exact ⟨rfl, newRow_wellFormed key, newRow_wellTyped key⟩
    | some r =>
      obtain ⟨hkey, _, hwf⟩ := hrows key r hr
      exact ⟨hkey, hwf, htyped key r hr⟩
  refine ⟨rfl, rfl, hstored.1, hstored.2.1, by simp, storedRow rows key, rfl, ?_⟩
  exact ⟨hstored.2.1, hstored.2.2, rfl, fun _ _ _ _ => rfl⟩

/-- One more entry on the row. -/
theorem CommitReplays.extend {c : RowCommit} (h : CommitReplays tbl rows key c) {now : Int}
    {muts changes : List Mutation} {candidate : Row}
    (happ : ∀ m ∈ muts, m.Applicable tbl.families tbl.granularity now)
    (happly : applyMutations tbl.families tbl.granularity now c.after muts =
      .ok (candidate, changes))
    (gcMicros : Int) :
    CommitReplays tbl rows key
      { key := key
        before := c.before
        after := (candidate.gcWithChanges tbl.gcRules gcMicros).1
        userChanges := c.userChanges ++ changes
        gcChanges := c.gcChanges ++
          (candidate.gcWithChanges tbl.gcRules gcMicros).2 } := by
  have hwf := h.after_wellFormed.applyMutations happ happly
  obtain ⟨u, hu, hstep⟩ := h.replays
  obtain ⟨u', hu', hstep'⟩ := hstep.applyMutations h.after_wellFormed happ happly
  refine ⟨rfl, h.before_eq, ?_, hwf.gcWithChanges _ _, ?_, u', ?_, ?_⟩
  · rw [gcWithChanges_key, applyMutations_key happly, h.after_key]
  · intro m hm
    rcases List.mem_append.mp hm with hold | hnew
    · exact h.gcChanges_form m hold
    · obtain ⟨fam, col, cell, _, rfl⟩ := (mem_gcWithChanges_snd hwf.normal _ _ m).mp hnew
      exact ⟨fam, col, cell, rfl⟩
  · rw [replay_append hu, hu']
  refine ⟨hstep'.wellFormed, hstep'.wellTyped, hstep'.key.trans (gcWithChanges_key).symm,
    fun fam col ts hnot => ?_⟩
  have hnot' : ¬ collectedAt c.gcChanges fam col ts ∧
      ¬ collectedAt (candidate.gcWithChanges tbl.gcRules gcMicros).2
        fam col ts := by
    constructor
    · exact fun hold => hnot (List.mem_append.mpr (.inl hold))
    · exact fun hnew => hnot (List.mem_append.mpr (.inr hnew))
  rw [hwf.gcWithChanges_cellAt _ _ hnot'.2]
  exact hstep'.agrees fam col ts hnot'.1

/-- Staging an entry yields a commit that records what it does. -/
theorem stage_commitReplays (hrows : RowsWellFormed tbl rows)
    (htyped : ∀ (key : Bytes) (r : Row), rows[key]? = some r → r.WellTyped tbl.families)
    {staged : GoMap RowCommit}
    (hstaged : ∀ (k : Bytes) (c : RowCommit), staged[k]? = some c → CommitReplays tbl rows k c)
    {env : EntryEnv} {nowNanos : Nat} {muts : List Mutation}
    (hvalid : validateMutations muts tbl.families tbl.granularity = none) {c : RowCommit} {x : Unit}
    (h : stage tbl rows env staged key (mutateWith tbl (newTimestamp nowNanos) muts) = .ok (c, x)) :
    CommitReplays tbl rows key c := by
  obtain ⟨base, before, candidate, changes, hbase, hmutate, rfl⟩ := stage_eq_ok h
  obtain ⟨⟨candidate', changes'⟩, happly, heq⟩ := exceptMap_eq_ok hmutate
  cases heq
  have happ := applicable_of_validateMutations
    (newTimestamp_storable nowNanos (g := tbl.granularity)) hvalid
  unfold stageBase SqlRows.load at hbase
  cases hprev : staged[key]? with
  | some prev =>
    simp only [hprev] at hbase
    cases hbase
    have hinv := hstaged key prev hprev
    rw [finishStage_eq (hinv.after_wellFormed.applyMutations happ happly)]
    exact hinv.extend happ happly env.gcMicros
  | none =>
    simp only [hprev] at hbase
    cases herr : env.loadError with
    | some st => simp [herr] at hbase
    | none =>
      simp only [herr] at hbase
      cases hbase
      have hinv := commitReplays_initial hrows htyped key
      rw [finishStage_eq (hinv.after_wellFormed.applyMutations happ happly)]
      exact hinv.extend happ happly env.gcMicros

end Commits

section Log

variable {tbl : Table}

theorem persistWith_changeLog (hstream : tbl.changeStreamEnabled = true) {tx : TxEnv}
    {db db' : Store} {commits : List RowCommit} {extra : Store → Store}
    (hextra : ∀ db, (extra db).changeLog = db.changeLog)
    (h : persistWith tbl tx db commits extra = .ok db') :
    db'.changeLog = db.changeLog ++ commits.flatMap (commitRecords tx.commitMicros) := by
  rw [persistWith_observe hextra h, writeCommits_eq, if_pos hstream]

/-- A store after a transaction that persisted commits with distinct keys, each
of which records what it does. -/
structure Persisted (tbl : Table) (db db' : Store) (commitMicros : Int)
    (commits : List RowCommit) : Prop where
  commits_replay : ∀ c ∈ commits, CommitReplays tbl db.rows c.key c
  distinct : commits.Pairwise (fun a b => a.key ≠ b.key)
  rows_eq : db'.rows = commits.foldl (fun rows c => rows.save c.after) db.rows
  log_eq : db'.changeLog = db.changeLog ++ commits.flatMap (commitRecords commitMicros)

theorem persisted_unchanged (tbl : Table) (db : Store) :
    Persisted tbl db db 0 [] where
  commits_replay := by simp
  distinct := List.Pairwise.nil
  rows_eq := rfl
  log_eq := by simp

/-- A `MutateRow` or `MutateRows` request, with everything it reads from its
surroundings. -/
inductive WriteRequest
  | mutateRow
      (view : Option ViewPolicy) (nowNanos : Nat) (env : EntryEnv) (tx : TxEnv) (req : Entry)
  | mutateRows
      (view : Option ViewPolicy) (nowNanos : Nat) (env : Nat → EntryEnv) (tx : TxEnv)
      (entries : List Entry)

/-- The store after a request. -/
def WriteRequest.run (tbl : Table) (db : Store) :
    WriteRequest → Store
  | .mutateRow view nowNanos env tx req => (Bttest.mutateRow tbl view nowNanos env tx req db).2
  | .mutateRows view nowNanos env tx entries =>
    (Bttest.mutateRows tbl view nowNanos env tx entries db).2

variable {tbl : Table} {db : Store}

theorem mutateRow_persisted (hstream : tbl.changeStreamEnabled = true)
    (hrows : RowsWellFormed tbl db.rows)
    (htyped : ∀ (key : Bytes) (r : Row), db.rows[key]? = some r → r.WellTyped tbl.families)
    {view : Option ViewPolicy} {nowNanos : Nat} {env : EntryEnv} {tx : TxEnv} {req : Entry} :
    ∃ micros commits,
      Persisted tbl db (mutateRow tbl view nowNanos env tx req db).2 micros
        commits := by
  rcases mutateRow_unchanged_or_written with
    heq | ⟨commit, _, hvalid, hstage, hpers⟩
  · rw [heq]
    exact ⟨0, [], persisted_unchanged tbl db⟩
  have hcommit := stage_commitReplays hrows htyped (fun k c hc => by simp at hc) hvalid hstage
  refine ⟨tx.commitMicros, [commit], ?_, ?_, ?_, ?_⟩
  · intro c hc
    rw [List.mem_singleton] at hc
    rw [hc, hcommit.key_eq]
    exact hcommit
  · exact List.pairwise_singleton _ _
  · exact persistWith_rows (fun db => recordIdempotency_rows) hpers
  · exact persistWith_changeLog hstream (fun db => recordIdempotency_changeLog) hpers

theorem mutateRows_persisted (hstream : tbl.changeStreamEnabled = true)
    (hrows : RowsWellFormed tbl db.rows)
    (htyped : ∀ (key : Bytes) (r : Row), db.rows[key]? = some r → r.WellTyped tbl.families)
    {view : Option ViewPolicy} {nowNanos : Nat} {env : Nat → EntryEnv} {tx : TxEnv}
    {entries : List Entry} :
    ∃ micros commits,
      Persisted tbl db (mutateRows tbl view nowNanos env tx entries db).2 micros
        commits := by
  rcases mutateRows_unchanged_or_written with
    heq | hpers
  · rw [heq]
    exact ⟨0, [], persisted_unchanged tbl db⟩
  have hstaged : ∀ (k : Bytes) (c : RowCommit),
      (runBatch tbl view nowNanos env entries db).2.staged[k]? = some c →
      CommitReplays tbl db.rows k c :=
    batchLoop_staged_all
      (fun _ _ _ _ hstaged hentry hstage => stage_commitReplays hrows htyped
        hstaged (validateEntry_mutations hentry) hstage)
      0 (fun k c hc => by simp at hc)
  have hordered : (runBatch tbl view nowNanos env entries db).2.Ordered :=
    batchLoop_ordered 0 ordered_initial
  refine ⟨tx.commitMicros, (runBatch tbl view nowNanos env entries db).2.final, ?_, ?_, ?_, ?_⟩
  · intro c hc
    obtain ⟨key, hkey⟩ := (mem_final hordered).mp hc
    have hcommit := hstaged key c hkey
    rw [hcommit.key_eq]
    exact hcommit
  · exact final_pairwise hordered (fun key c hc => (hstaged key c hc).key_eq)
  · exact persistWith_rows (recordTokens_rows 0 _) hpers
  · exact persistWith_changeLog hstream (recordTokens_changeLog tx 0 _) hpers

end Log

end Bttest
end LittleBigtable
