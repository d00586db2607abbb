import LittleBigtable.Bttest.TypedRows
import LittleBigtable.Bttest.BatchStatus

/-!
# Failed writes change nothing

A write call that answers an error leaves the store as it was.  In a batch, an
entry can fail after its token was remembered for the rest of the batch; when the
lookups of rows and tokens succeed this does not happen, and the failed entries
could as well not have been sent.
-/

namespace LittleBigtable
namespace Bttest

open List

section Timed

/-- An entry of a batch with the clock readings that belong to it. -/
structure TimedEntry where
  entry : Entry
  env : EntryEnv
  recordMicros : Int

/-- The entries of a batch, from number `i` on, with their clock readings. -/
def timed (env : Nat → EntryEnv) (recordMicros : Nat → Int) :
    Nat → List Entry → List TimedEntry
  | _, [] => []
  | i, entry :: entries => ⟨entry, env i, recordMicros i⟩ :: timed env recordMicros (i + 1) entries

/-- The entries whose status is OK. -/
def okEntries (l : List TimedEntry) (statuses : List (Option Status)) : List TimedEntry :=
  ((l.zip statuses).filter (fun x => x.2.isNone)).map Prod.fst

/-- `MutateRows` with entries that bring their clock readings. -/
def mutateTimedRows (tbl : Table) (view : Option ViewPolicy) (nowNanos : Nat) (tx : TxEnv)
    (l : List TimedEntry) (db : Store) : Except Status BatchResult × Store :=
  mutateRows tbl view nowNanos
    (fun i => (l[i]?.map TimedEntry.env).getD ⟨0, 0, none, none, 0⟩)
    { tx with recordMicros := fun i => (l[i]?.map TimedEntry.recordMicros).getD 0 }
    (l.map TimedEntry.entry) db

/-- The loop of `MutateRows` over entries with their clock readings. -/
def timedLoop (tbl : Table) (view : Option ViewPolicy) (now : Int) (db : Store) :
    List TimedEntry → BatchState → List EntryOutcome × BatchState
  | [], s => ([], s)
  | e :: l, s =>
    let (outcome, s') := batchStep tbl view now db e.env e.entry s
    let (outcomes, s'') := timedLoop tbl view now db l s'
    (outcome :: outcomes, s'')

/-- Record the tokens of the staged entries. -/
def recordTimed : List (TimedEntry × EntryOutcome) → Store → Store
  | [], db => db
  | (e, outcome) :: rest, db =>
    recordTimed rest (if outcome = .staged then
        recordIdempotency db e.entry.rowKey e.entry.idempotency e.recordMicros
      else
        db)

variable {tbl : Table} {view : Option ViewPolicy} {now : Int} {db : Store} {env : Nat → EntryEnv}

theorem batchLoop_eq_timedLoop {recordMicros : Nat → Int} {i : Nat} {entries : List Entry}
    {s : BatchState} :
    batchLoop tbl view now db env i entries s =
      timedLoop tbl view now db (timed env recordMicros i entries) s := by
  induction entries generalizing i s with
  | nil => rfl
  | cons entry entries ih => simp only [batchLoop, timed, timedLoop, ih]

theorem recordTokens_eq_recordTimed (tx : TxEnv) (env : Nat → EntryEnv) (i : Nat)
    (entries : List Entry) (outcomes : List EntryOutcome) (db : Store) :
    recordTokens tx i (entries.zip outcomes) db =
      recordTimed ((timed env tx.recordMicros i entries).zip outcomes) db := by
  induction entries generalizing i outcomes db with
  | nil => rfl
  | cons entry entries ih =>
    cases outcomes with
    | nil => rfl
    | cons outcome outcomes => simp only [timed, zip_cons_cons, recordTokens, recordTimed, ih]

theorem timed_map_entry (done l : List TimedEntry) :
    timed (fun i => ((done ++ l)[i]?.map TimedEntry.env).getD ⟨0, 0, none, none, 0⟩)
      (fun i => ((done ++ l)[i]?.map TimedEntry.recordMicros).getD 0) done.length
      (l.map TimedEntry.entry) = l := by
  induction l generalizing done with
  | nil => rfl
  | cons e l ih =>
    have hrest := ih (done ++ [e])
    simp only [append_assoc, singleton_append, length_append,
      length_singleton] at hrest
    simp only [map_cons, timed, hrest, getElem?_append_right (le_refl _)]
    simp

variable (l : List TimedEntry)

theorem timedLoop_length (s : BatchState) :
    (timedLoop tbl view now db l s).1.length = l.length := by
  induction l generalizing s with
  | nil => rfl
  | cons e l ih => simp only [timedLoop, length_cons, ih]

/-- Removing entries that are not staged does not change the recorded tokens. -/
theorem recordTimed_okEntries (outcomes : List EntryOutcome) (hlen : outcomes.length = l.length)
    (db : Store) :
    recordTimed ((okEntries l (outcomes.map (entryStatus none))).zip
        (outcomes.filter (fun o => (entryStatus none o).isNone))) db =
      recordTimed (l.zip outcomes) db := by
  induction l generalizing outcomes db with
  | nil =>
    rw [length_nil, length_eq_zero_iff] at hlen
    rw [hlen]
    rfl
  | cons e l ih =>
    cases outcomes with
    | nil => cases hlen
    | cons o outcomes =>
      have hrest := ih outcomes (by simpa using hlen)
      unfold okEntries at hrest ⊢
      cases o with
      | failed | retry => simpa [entryStatus, recordTimed] using hrest db
      | staged => simpa [entryStatus, recordTimed] using hrest _

end Timed

section Removal

variable {tbl : Table} {view : Option ViewPolicy} {db : Store}

/-- The lookups of rows and tokens succeed. -/
def EntryEnv.ReadsSucceed (env : EntryEnv) : Prop :=
  env.loadError = none ∧ env.seenError = none

variable (l : List TimedEntry) {env : EntryEnv} {tx : TxEnv}

theorem idempotencySeen_total (h : env.seenError = none) (key : Bytes) (idem : Option Idempotency)
    (st : Status) :
    idempotencySeen db key idem env ≠ .error st := by
  unfold idempotencySeen
  simp only [h]
  split_ifs
  · intro heq
    cases heq
  · split <;> intro heq <;> cases heq

/-- An entry that fails leaves the state of the loop as it was, when the lookups
succeed. -/
theorem batchStep_failed {nowNanos : Nat} {entry : Entry} {s : BatchState} {st : Status}
    (hrows : RowsWellFormed tbl db.rows) (htyped : RowsTyped tbl db.rows)
    (hstaged : ∀ (k : Bytes) (c : RowCommit), s.staged[k]? = some c → CommitTyped tbl k c)
    (hreads : env.ReadsSucceed)
    (h : (batchStep tbl view (newTimestamp nowNanos) db env entry s).1 = .failed st) :
    (batchStep tbl view (newTimestamp nowNanos) db env entry s).2 = s := by
  generalize hx : batchStep tbl view (newTimestamp nowNanos) db env entry s = x at h
  cases batchStep_result hx with
  | invalid _ _ => rfl
  | batchRetry | seen | staged => cases h
  | seenError st' _ _ hseen => exact absurd hseen (idempotencySeen_total hreads.2 _ _ st')
  | stageError st' hentry _ _ hstage =>
    obtain ⟨base, before, hbase⟩ := stageBase_total entry.rowKey hreads.1
    obtain ⟨hwf, hwt⟩ := stageBase_typed hrows htyped hstaged hbase
    obtain ⟨r', changes, happly, _⟩ := applyMutations_total hwf hwt
      (applicable_of_validateMutations (newTimestamp_storable nowNanos)
        (validateEntry_mutations hentry))
    simp [stage, mutateWith, hbase, happly, Except.map] at hstage

/-- Without the entries that fail, the loop takes the same decisions about the
others and ends in the same state. -/
theorem timedLoop_okEntries (view : Option ViewPolicy) (nowNanos : Nat)
    (hrows : RowsWellFormed tbl db.rows) (htyped : RowsTyped tbl db.rows) (l : List TimedEntry)
    (hreads : ∀ e ∈ l, e.env.ReadsSucceed) (s : BatchState)
    (hstaged : ∀ (k : Bytes) (c : RowCommit), s.staged[k]? = some c → CommitTyped tbl k c) :
    timedLoop tbl view (newTimestamp nowNanos) db
        (okEntries l ((timedLoop tbl view (newTimestamp nowNanos) db l s).1.map
          (entryStatus none))) s =
      ((timedLoop tbl view (newTimestamp nowNanos) db l s).1.filter
          (fun o => (entryStatus none o).isNone),
        (timedLoop tbl view (newTimestamp nowNanos) db l s).2) := by
  induction l generalizing s with
  | nil => rfl
  | cons e l ih =>
    have hstaged' : ∀ (k : Bytes) (c : RowCommit),
        (batchStep tbl view (newTimestamp nowNanos) db e.env e.entry s).2.staged[k]? =
          some c → CommitTyped tbl k c :=
      batchStep_staged_all
        (fun _ _ _ hprev hentry hstage => stage_typed hrows htyped hprev
          (keepsWellFormed_mutateWith nowNanos (validateEntry_mutations hentry))
          (keepsTyped_mutateWith nowNanos (validateEntry_mutations hentry)) hstage)
        hstaged
    have hrest := ih (fun e' he' => hreads e' (mem_cons_of_mem e he')) _ hstaged'
    unfold okEntries at hrest ⊢
    simp only [timedLoop, map_cons, zip_cons_cons, filter_cons]
    cases houtcome : (batchStep tbl view (newTimestamp nowNanos) db e.env e.entry s).1
    with
    | failed st =>
      have hsame := batchStep_failed hrows htyped hstaged (hreads e (by simp)) houtcome
      rw [hsame] at hrest ⊢
      simpa [entryStatus] using hrest
    | retry => simp [entryStatus, timedLoop, houtcome, hrest]
    | staged => simp [entryStatus, timedLoop, houtcome, hrest]

/-- An entry that does not fail has mutations. -/
theorem batchStep_mutations {now : Int} {entry : Entry} {s : BatchState}
    (h : (entryStatus none (batchStep tbl view now db env entry s).1).isNone = true) :
    entry.mutations ≠ [] := by
  have hvalid : validateEntry tbl view env entry = none := by
    generalize hx : batchStep tbl view now db env entry s = x at h
    cases batchStep_result hx with
    | invalid _ _ => cases h
    | batchRetry hentry | seen hentry | seenError _ hentry | stageError _ hentry
    | staged _ hentry => exact hentry
  intro hnil
  have hmutations := validateEntry_mutations hvalid
  rw [hnil] at hmutations
  simp [validateMutations] at hmutations

theorem okEntries_mutations {now : Int} (s : BatchState) {e : TimedEntry}
    (he : e ∈ okEntries l ((timedLoop tbl view now db l s).1.map (entryStatus none))) :
    e.entry.mutations ≠ [] := by
  induction l generalizing s with
  | nil => cases he
  | cons e' l ih =>
    unfold okEntries at ih he
    simp only [timedLoop, map_cons, zip_cons_cons, filter_cons] at he
    split_ifs at he with hok
    · rcases mem_cons.mp he with rfl | he'
      · exact batchStep_mutations hok
      · exact ih _ he'
    · exact ih _ he

theorem okEntries_sublist (statuses : List (Option Status)) :
    (okEntries l statuses).Sublist l := by
  unfold okEntries
  refine (filter_sublist.map Prod.fst).trans ?_
  induction l generalizing statuses with
  | nil => exact List.Sublist.refl _
  | cons e l ih =>
    cases statuses with
    | nil => exact nil_sublist _
    | cons st statuses => exact (ih statuses).cons_cons e

theorem timed_entries (env : Nat → EntryEnv) (recordMicros : Nat → Int) (i : Nat)
    (entries : List Entry) :
    (timed env recordMicros i entries).map TimedEntry.entry = entries := by
  induction entries generalizing i with
  | nil => rfl
  | cons entry entries ih => simp only [timed, map_cons, ih]

theorem timed_readsSucceed {env : Nat → EntryEnv} (h : ∀ i, (env i).ReadsSucceed)
    (recordMicros : Nat → Int) (i : Nat) (entries : List Entry) :
    ∀ e ∈ timed env recordMicros i entries, e.env.ReadsSucceed := by
  induction entries generalizing i with
  | nil => simp [timed]
  | cons entry entries ih =>
    intro e he
    rcases mem_cons.mp he with rfl | he
    · exact h i
    · exact ih (i + 1) e he

/-- The store after the transaction of a batch whose loop ended in `run`. -/
def committed (tbl : Table) (commitMicros : Int) (l : List TimedEntry)
    (run : List EntryOutcome × BatchState) (db : Store) : Store :=
  if run.2.final.length = 0 then
    db
  else
    recordTimed (l.zip run.1) (writeCommits tbl commitMicros db run.2.final)

/-- The store after a batch whose transaction does not fail. -/
theorem mutateRows_store (hcommit : tx.failure = none) (tbl : Table) (view : Option ViewPolicy)
    (nowNanos : Nat) (env : Nat → EntryEnv) (entries : List Entry) (db : Store) :
    (mutateRows tbl view nowNanos env tx entries db).2 =
      match mutateRowsCheck entries with
      | some _ => db
      | none =>
        committed tbl tx.commitMicros (timed env tx.recordMicros 0 entries)
          (timedLoop tbl view (newTimestamp nowNanos) db
            (timed env tx.recordMicros 0 entries) ⟨∅, [], []⟩) db := by
  have hpers : persistWith tbl tx db
      (runBatch tbl view nowNanos env entries db).2.final
      (recordTokens tx 0 (entries.zip (runBatch tbl view nowNanos env entries db).1)) =
        .ok (committed tbl tx.commitMicros (timed env tx.recordMicros 0 entries)
          (runBatch tbl view nowNanos env entries db) db) := by
    unfold persistWith committed
    simp only [hcommit, recordTokens_eq_recordTimed tx env]
    split_ifs <;> rfl
  have hrun : runBatch tbl view nowNanos env entries db =
      timedLoop tbl view (newTimestamp nowNanos) db
        (timed env tx.recordMicros 0 entries) ⟨∅, [], []⟩ :=
    batchLoop_eq_timedLoop
  generalize hx : mutateRows tbl view nowNanos env tx entries db = x
  cases mutateRows_result hx with
  | invalid st hcheck => rw [hcheck]
  | txError st _ hfailed =>
    rw [hpers] at hfailed
    cases hfailed
  | written db' hcheck hwritten =>
    rw [hpers] at hwritten
    cases hwritten
    rw [hcheck, hrun]

theorem mutateTimedRows_store (hcommit : tx.failure = none) (tbl : Table) (view : Option ViewPolicy)
    (nowNanos : Nat) (l : List TimedEntry) (db : Store) :
    (mutateTimedRows tbl view nowNanos tx l db).2 =
      match mutateRowsCheck (l.map TimedEntry.entry) with
      | some _ => db
      | none =>
        committed tbl tx.commitMicros l
          (timedLoop tbl view (newTimestamp nowNanos) db l ⟨∅, [], []⟩) db := by
  have htimed := timed_map_entry [] l
  rw [nil_append, length_nil] at htimed
  have hfailure : ({ tx with
      recordMicros := fun i => (l[i]?.map TimedEntry.recordMicros).getD 0 } :
        TxEnv).failure = none := hcommit
  unfold mutateTimedRows
  rw [mutateRows_store hfailure]
  simp only [htimed]

/-- The statuses of a batch whose transaction does not fail. -/
theorem mutateRows_statuses {nowNanos : Nat} {env : Nat → EntryEnv} {entries : List Entry}
    {result : BatchResult} {db' : Store} (hcommit : tx.failure = none)
    (h : mutateRows tbl view nowNanos env tx entries db = (.ok result, db')) :
    mutateRowsCheck entries = none ∧
      result.statuses =
        (timedLoop tbl view (newTimestamp nowNanos) db
          (timed env tx.recordMicros 0 entries) ⟨∅, [], []⟩).1.map (entryStatus none) := by
  have hrun : runBatch tbl view nowNanos env entries db =
      timedLoop tbl view (newTimestamp nowNanos) db
        (timed env tx.recordMicros 0 entries) ⟨∅, [], []⟩ :=
    batchLoop_eq_timedLoop
  cases mutateRows_result h with
  | txError st _ hpers => exact absurd hpers (persistWith_ne_error hcommit)
  | written _ hcheck _ => exact ⟨hcheck, by rw [hrun]⟩

/-- Entries that have mutations, out of a batch of allowed size, are a batch of
allowed size, or none are left. -/
theorem mutateRowsCheck_of_sublist {entries : List Entry} (kept : List Entry)
    (hcheck : mutateRowsCheck entries = none) (hsub : kept.Sublist entries)
    (hne : ∀ entry ∈ kept, entry.mutations ≠ []) :
    kept = [] ∨ mutateRowsCheck kept = none := by
  unfold mutateRowsCheck at hcheck ⊢
  simp only at hcheck ⊢
  have hle : (kept.map (fun e => e.mutations.length)).sum ≤
      (entries.map (fun e => e.mutations.length)).sum := by
    clear hne hcheck
    induction hsub with
    | slnil => exact le_refl _
    | cons entry _ ih =>
      rw [map_cons, sum_cons]
      omega
    | cons_cons entry _ ih =>
      rw [map_cons, map_cons, sum_cons, sum_cons]
      omega
  cases kept with
  | nil => exact .inl rfl
  | cons entry kept =>
    right
    have hpos := length_pos_of_ne_nil (hne entry (by simp))
    split_ifs at hcheck with hzero hmany
    rw [if_neg, if_neg]
    · omega
    · rw [map_cons, sum_cons]
      omega

/-- A batch whose transaction commits does what it would do without the entries that
fail. -/
theorem mutateRows_okEntries {nowNanos : Nat} {env : Nat → EntryEnv} {entries : List Entry}
    {result : BatchResult} {db' : Store} (hrows : RowsWellFormed tbl db.rows)
    (htyped : RowsTyped tbl db.rows) (hreads : ∀ i, (env i).ReadsSucceed)
    (hcommit : tx.failure = none)
    (h : mutateRows tbl view nowNanos env tx entries db = (.ok result, db')) :
    (mutateTimedRows tbl view nowNanos tx
      (okEntries (timed env tx.recordMicros 0 entries) result.statuses) db).2 = db' := by
  obtain ⟨hcheck, hstatuses⟩ := mutateRows_statuses hcommit h
  have hstore := mutateRows_store hcommit tbl view nowNanos env entries db
  simp only [h, hcheck] at hstore
  rw [hstore, hstatuses]
  have hentries := timed_entries env tx.recordMicros 0 entries
  have hreads' := timed_readsSucceed hreads tx.recordMicros 0 entries
  generalize timed env tx.recordMicros 0 entries = l at *
  have hkept := timedLoop_okEntries view nowNanos hrows htyped l hreads' ⟨∅, [], []⟩
    (fun k c hc => by simp at hc)
  have htokens := recordTimed_okEntries l
    (timedLoop tbl view (newTimestamp nowNanos) db l ⟨∅, [], []⟩).1
    (timedLoop_length l ⟨∅, [], []⟩)
  have hsize := mutateRowsCheck_of_sublist
    ((okEntries l ((timedLoop tbl view (newTimestamp nowNanos) db l
      ⟨∅, [], []⟩).1.map (entryStatus none))).map TimedEntry.entry) hcheck
    (hentries ▸ (okEntries_sublist l _).map TimedEntry.entry)
    (fun entry hentry => by
      obtain ⟨e, he, rfl⟩ := mem_map.mp hentry
      exact okEntries_mutations l _ he)
  rw [mutateTimedRows_store hcommit, hkept]
  rcases hsize with hnil | hnone
  · -- nothing is left, so nothing was staged
    rw [map_eq_nil_iff] at hnil
    rw [hnil] at hkept ⊢
    have hfinal : (timedLoop tbl view (newTimestamp nowNanos) db l ⟨∅, [], []⟩).2 =
        ⟨∅, [], []⟩ := (congrArg Prod.snd hkept).symm
    unfold committed
    rw [hfinal]
    rfl
  · rw [hnone]
    unfold committed
    simp only [htokens]

end Removal

section Atomicity

/-- Every write call on one row that answers an error leaves rows, tokens and change
log as they were. -/
structure FailuresUnchanged (tbl : Table) (db : Store) : Prop where
  mutateRow : ∀ view nowNanos env tx req st db',
    mutateRow tbl view nowNanos env tx req db = (.error st, db') → db' = db
  checkAndMutateRow : ∀ compile draw view nowNanos predicateMicros env tx req st db',
    checkAndMutateRow compile draw tbl view nowNanos predicateMicros env tx req db =
      (.error st, db') → db' = db
  readModifyWriteRow : ∀ view nowNanos visibleMicros env tx req st db',
    readModifyWriteRow tbl view nowNanos visibleMicros env tx req db = (.error st, db') → db' = db

theorem failuresUnchanged (tbl : Table) (db : Store) :
    FailuresUnchanged tbl db where
  mutateRow view nowNanos env tx req st db' h := by
    cases mutateRow_result h <;> rfl
  checkAndMutateRow compile draw view nowNanos predicateMicros env tx req st db' h := by
    cases checkAndMutateRow_result h <;> rfl
  readModifyWriteRow view nowNanos visibleMicros env tx req st db' h := by
    cases readModifyWriteRow_result h <;> rfl

/-- The lookup of the first token fails. -/
def firstLookupFails : Nat → EntryEnv
  | 0 => ⟨0, 0, some (errorf .internal "read idempotency token: %v"
      [.text "disk I/O error"]), none, 0⟩
  | _ => ⟨0, 0, none, none, 0⟩

end Atomicity

end Bttest
end LittleBigtable
