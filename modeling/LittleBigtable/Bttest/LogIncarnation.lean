import LittleBigtable.Bttest.CommitReplay
import LittleBigtable.Bttest.TableCalls

/-!
# The change log under a table name

`CreateTable`, `DeleteTable`, `UpdateTable` and the data writes on one table name, in any
number and in any interleaving.  A call that finds the table under its name goes on with
that table, whether it is deleted meanwhile or not, while the change log is kept by name.
Each region under a lock, each transaction and each storage call outside of them is one
step: `CreateTable` and `DeleteTable` run under the lock of the server as a whole, and the
purge of `UpdateTable` follows after the lock of the table is released.

The log holds what it should in every run in which writes reach the live table only and the
purge comes before the stream is enabled again (`changeLog_exact`).  A write that has found
a table before it is deleted leaves its record in the log of the next table of that name,
and a late purge takes the records of the next enabled period with it
(`changeLog_races`).
-/

namespace LittleBigtable
namespace Bttest

open Transition List FiniteMap

section Behind

/-- The store with more records in front of its log. -/
def Store.behind (log : List ChangeRecord) (db : Store) : Store :=
  { db with changeLog := log ++ db.changeLog }

variable (log : List ChangeRecord)

variable (tbl : Table) (commitMicros : Int) (db : Store) (tx : TxEnv) (view : Option ViewPolicy)

theorem writeCommits_behind (commits : List RowCommit) :
    writeCommits tbl commitMicros (db.behind log) commits =
      (writeCommits tbl commitMicros db commits).behind log := by
  simp [writeCommits_eq, Store.behind]

theorem recordIdempotency_behind (key : Bytes) (idem : Option Idempotency) (nowMicros : Int) :
    recordIdempotency (db.behind log) key idem nowMicros =
      (recordIdempotency db key idem nowMicros).behind log := by
  unfold recordIdempotency
  split_ifs <;> rfl

theorem recordTokens_behind (i : Nat) (entries : List (Entry × EntryOutcome)) (db : Store) :
    recordTokens tx i entries (db.behind log) = (recordTokens tx i entries db).behind log := by
  induction entries generalizing i db with
  | nil => rfl
  | cons entry entries ih =>
    unfold recordTokens
    split_ifs
    · rw [recordIdempotency_behind, ih]
    · rw [ih]

theorem persistWith_behind (db : Store) (commits : List RowCommit) {extra : Store → Store}
    (hextra : ∀ db, extra (db.behind log) = (extra db).behind log) :
    persistWith tbl tx (db.behind log) commits extra =
      (persistWith tbl tx db commits extra).map (Store.behind log) := by
  unfold persistWith
  split_ifs
  · rfl
  cases tx.failure with
  | some st => rfl
  | none =>
    dsimp only
    rw [writeCommits_behind, hextra]
    rfl

/-- The answer of a call does not depend on the log, and its records go behind it. -/
def Behind {α : Type} (call : Store → Except Status α × Store) : Prop :=
  ∀ db, call (db.behind log) = ((call db).1, (call db).2.behind log)

theorem mutateRow_behind (nowNanos : Nat) (env : EntryEnv) (tx : TxEnv) (req : Entry) :
    Behind log (mutateRow tbl view nowNanos env tx req) := by
  intro db
  unfold mutateRow
  dsimp only
  split
  · rfl
  rw [show idempotencySeen (db.behind log) req.rowKey req.idempotency env =
    idempotencySeen db req.rowKey req.idempotency env from rfl,
    show (db.behind log).rows = db.rows from rfl]
  split
  · rfl
  · rfl
  split
  · rfl
  split
  · rfl
  · rw [persistWith_behind log tbl tx db _ (fun db => recordIdempotency_behind log db _ _ _)]
    cases persistWith tbl tx db _ _ with
    | error | ok => rfl

theorem batchLoop_behind (now : Int) (db : Store) (env : Nat → EntryEnv) (i : Nat)
    (entries : List Entry) (s : BatchState) :
    batchLoop tbl view now (db.behind log) env i entries s =
      batchLoop tbl view now db env i entries s := by
  induction entries generalizing i s with
  | nil => rfl
  | cons entry entries ih =>
    unfold batchLoop
    rw [show batchStep tbl view now (db.behind log) (env i) entry s =
      batchStep tbl view now db (env i) entry s from rfl]
    simp only [ih]

theorem mutateRows_behind (nowNanos : Nat) (env : Nat → EntryEnv) (tx : TxEnv)
    (entries : List Entry) :
    Behind log (mutateRows tbl view nowNanos env tx entries) := by
  intro db
  unfold mutateRows
  dsimp only
  split_ifs
  · rfl
  · rfl
  · rw [batchLoop_behind, persistWith_behind log tbl tx db _
      (fun db => recordTokens_behind log tx 0 _ db)]
    cases persistWith tbl tx db _ _ with
    | error | ok => rfl

theorem persist_behind (db : Store) (commits : List RowCommit) :
    persist tbl tx (db.behind log) commits = (persist tbl tx db commits).map (Store.behind log) :=
  persistWith_behind log tbl tx db commits (fun _ => rfl)

theorem checkAndMutateRow_behind (compile : RegexpCompiler) (draw : List Nat → ℚ) (tbl : Table)
    (view : Option ViewPolicy) (nowNanos : Nat) (predicateMicros : Int) (env : EntryEnv)
    (tx : TxEnv) (req : CheckAndMutateRowRequest) :
    Behind log (checkAndMutateRow compile draw tbl view nowNanos predicateMicros env tx req) := by
  intro db
  unfold checkAndMutateRow
  dsimp only
  split
  · rfl
  rw [show (db.behind log).rows = db.rows from rfl]
  split
  · rfl
  split_ifs
  · rw [persist_behind]
    cases persist tbl tx db _ with
    | error | ok => rfl
  · rfl

theorem readModifyWriteRow_behind (nowNanos : Nat → Nat) (visibleMicros : Int) (env : EntryEnv)
    (tx : TxEnv) (req : ReadModifyWriteRowRequest) :
    Behind log (readModifyWriteRow tbl view nowNanos visibleMicros env tx req) := by
  intro db
  unfold readModifyWriteRow
  dsimp only
  split
  · rfl
  rw [show (db.behind log).rows = db.rows from rfl]
  split
  · rfl
  · rw [persist_behind]
    cases persist tbl tx db _ with
    | error | ok => rfl

theorem dropRowRange_behind (target : DropTarget) :
    Behind log (dropRowRange tbl tx target) := by
  intro db
  unfold dropRowRange
  dsimp only
  split
  · rfl
  cases tx.failure with
  | some st => rfl
  | none =>
    dsimp only
    split_ifs
    · simp only [foldl_appendChange, Store.behind, append_assoc]
    · rfl

end Behind

section Records

/-- The records of the commits that a call makes. -/
def TableState.records (s : TableState) (c : Call) : List ChangeRecord :=
  ((TableState.call ⟨s.tbl, { s.db with changeLog := [] }⟩ c).map
    (fun st => st.db.changeLog)).getD []

variable {tbl : Table} {st : TableState}

theorem afterSuccess_records {α : Type} {call : Store → Except Status α × Store}
    (hcall : ∀ log, Behind log call) {db : Store} (h : afterSuccess tbl (call db) = some st) :
    st.db.changeLog = db.changeLog ++
      ((afterSuccess tbl (call { db with changeLog := [] })).map
        (fun st => st.db.changeLog)).getD [] := by
  have hbehind := hcall db.changeLog { db with changeLog := [] }
  rw [show Store.behind db.changeLog { db with changeLog := [] } = db by simp [Store.behind]]
    at hbehind
  rw [hbehind] at h
  cases hempty : call { db with changeLog := [] } with
  | mk answer db' =>
    rw [hempty] at h
    cases answer with
    | error st => cases h
    | ok a =>
      cases h
      rfl

/-- A call that writes data appends its records. -/
theorem call_changeLog {st' : TableState} {c : Call} (hc : c.writesData = true)
    (h : st.call c = some st') :
    st'.db.changeLog = st.db.changeLog ++ st.records c := by
  cases c with
  | mutateRow view nowNanos env tx req =>
    exact afterSuccess_records (fun log => mutateRow_behind log _ view nowNanos env tx req) h
  | mutateRows view nowNanos env tx entries =>
    exact afterSuccess_records (fun log => mutateRows_behind log _ view nowNanos env tx entries) h
  | checkAndMutateRow compile draw view nowNanos predicateMicros env tx req =>
    exact afterSuccess_records (fun log => checkAndMutateRow_behind log compile draw _ view
      nowNanos predicateMicros env tx req) h
  | readModifyWriteRow view nowNanos visibleMicros env tx req =>
    exact afterSuccess_records (fun log => readModifyWriteRow_behind log _ view nowNanos
      visibleMicros env tx req) h
  | modifyColumnFamilies => cases hc
  | dropRowRange tx target =>
    exact afterSuccess_records (fun log => dropRowRange_behind log _ tx target) h

/-- Without a change stream a call that writes data leaves the log alone. -/
theorem call_silent {st' : TableState} {c : Call} (hc : c.writesData = true)
    (hstream : st.tbl.changeStreamEnabled = false) (h : st.call c = some st') :
    st'.db.changeLog = st.db.changeLog := by
  rcases call_cases h with ⟨view, reading, _, hwritten⟩ | ⟨tx, target, _, hdrop⟩ | ⟨hnot, _⟩
  · obtain ⟨tx, commits, extra, _, _, hextra, hpers⟩ := hwritten.persists
    rw [persistWith_observe hextra hpers, writeCommits_eq, hstream]
    exact append_nil _
  · obtain ⟨rows, _, heq⟩ := dropRowRange_eq_ok hdrop
    rw [heq, if_neg (by rw [hstream]; decide)]
  · rw [hc] at hnot
    cases hnot

end Records

section Model

/-- The calls in progress: an update that has found its table, one that has still to purge
the log, and a write that has found its table. -/
inductive LogPhase
  | idle
  | updating (incarnation : Nat) (req : UpdateTableRequest)
  | purging (name : Bytes)
  | writing (incarnation : Nat)

/-- The server with the calls in progress.  `detached` holds the objects of deleted tables,
which calls in progress may still work on; `expected` collects the records of the commits to
the live table since its stream was last enabled. -/
structure SharedLog where
  server : Server
  detached : List TableObject
  calls : Nat → LogPhase
  expected : List ChangeRecord

inductive LogStep
  | createTable (protoSize : GcRule → Nat) (req : CreateTableRequest)
  | deleteTable
      (reading : Option Bytes) (deleteTime : Int) (fault : Option (Transaction.Fault TxPoint))
  | updateResolve (i : Nat) (req : UpdateTableRequest)
  | updateApply
      (i : Nat) (schemaEqual : List RowKeyField → List RowKeyField → Bool)
      (saveError : Option Status)
  | updatePurge (i : Nat) (purgeError : Option Status)
  | writeResolve (i : Nat)
  | writeCommit (i : Nat) (c : Call)

namespace SharedLog

variable (name : Bytes) (s : SharedLog)

def setCall (i : Nat) (p : LogPhase) : SharedLog :=
  { s with calls := Function.update s.calls i p }

/-- The object is the one that is live under the name. -/
def isLive (incarnation : Nat) : Bool :=
  s.server.tables[name]?.any (fun t => t.incarnation == incarnation)

/-- The object of a call in progress. -/
def object? (incarnation : Nat) : Option TableObject :=
  if s.isLive name incarnation then
    s.server.tables[name]?
  else
    s.detached.find? (fun t => t.incarnation == incarnation)

/-- Set the fields of an object, which a tombstone shares. -/
def putObject (t : TableObject) : SharedLog :=
  if s.isLive name t.incarnation then
    { s with server := { s.server with tables := s.server.tables.insert name t } }
  else
    { s with
      server := { s.server with
        deletedTables :=
          if s.server.deletedTables[t.storageName]?.any
              (fun u => u.incarnation == t.incarnation) then
            s.server.deletedTables.insert t.storageName t
          else
            s.server.deletedTables }
      detached := s.detached.map (fun u => if u.incarnation = t.incarnation then t else u) }

/-- The part of `UpdateTable` under the lock of the table; the candidate is saved before the
table changes. -/
def update (i : Nat) (req : UpdateTableRequest)
    (schemaEqual : List RowKeyField → List RowKeyField → Bool) (saveError : Option Status)
    (t : TableObject) : SharedLog :=
  match updatePaths schemaEqual req t.schema req.paths t with
  | .error _ => s.setCall i .idle
  | .ok next =>
    match saveError with
    | some _ => s.setCall i .idle
    | none =>
      let was := t.schema.changeStreamEnabled
      let now := next.schema.changeStreamEnabled
      let s' := { s with server := { s.server with db := s.server.db.saveTable next } }
      { (s'.putObject name next).setCall i (if was && !now then .purging t.name else .idle) with
        expected :=
          if s.isLive name t.incarnation && !(was && now) then [] else s.expected }

/-- The part of a write under the lock of the table: what it stages from the rows of its
object and its transaction.  The log is that of the name. -/
def commit (i : Nat) (c : Call) (t : TableObject) : SharedLog :=
  match TableState.call ⟨t.schema, s.server.db.store t⟩ c with
  | none => s.setCall i .idle
  | some st =>
    { s.setCall i .idle with
      server := { s.server with db := s.server.db.putStore t st.db }
      expected :=
        if s.isLive name t.incarnation then
          s.expected ++ TableState.records ⟨t.schema, s.server.db.store t⟩ c
        else
          s.expected }

/-- One step; `none` when the call is not there. -/
def next : LogStep → Option SharedLog
  | .createTable protoSize req =>
    if tableName req.parent req.tableId = name then
      match s.server.createTable protoSize req with
      | (.error _, server) => some { s with server := server }
      | (.ok _, server) => some { s with server := server, expected := [] }
    else
      none
  | .deleteTable reading deleteTime fault =>
    match s.server.deleteTable name reading deleteTime fault with
    | (.error _, server) => some { s with server := server }
    | (.ok _, server) =>
      some { s with
        server := server
        detached :=
          (s.server.tables[name]?.map (fun t => t.deletedAt deleteTime)).toList ++ s.detached
        expected := [] }
  | .updateResolve i req =>
    match s.calls i with
    | .idle =>
      if req.name = name then
        match validateUpdateTable req, s.server.tables[name]? with
        | none, some t => some (s.setCall i (.updating t.incarnation req))
        | _, _ => some s
      else
        none
    | _ => none
  | .updateApply i schemaEqual saveError =>
    match s.calls i with
    | .updating incarnation req =>
      (s.object? name incarnation).map (s.update name i req schemaEqual saveError)
    | _ => none
  | .updatePurge i purgeError =>
    match s.calls i with
    | .purging key =>
      match purgeError with
      | some _ => some (s.setCall i .idle)
      | none =>
        some { s.setCall i .idle with
          server := { s.server with db := s.server.db.purgeChangeLog key } }
    | _ => none
  | .writeResolve i =>
    match s.calls i with
    | .idle =>
      match s.server.tables[name]? with
      | none => some s
      | some t => some (s.setCall i (.writing t.incarnation))
    | _ => none
  | .writeCommit i c =>
    match s.calls i with
    | .writing incarnation =>
      if c.writesData then
        (s.object? name incarnation).map (s.commit name i c)
      else
        none
    | _ => none

/-- The live table has its change stream enabled. -/
def streaming : Bool :=
  s.server.tables[name]?.any (fun t => t.schema.changeStreamEnabled)

/-- No call is in progress. -/
def Quiet : Prop :=
  ∀ i, s.calls i = .idle

/-- A write works on the live table, or on one without a change stream; a purge succeeds, and
comes while the stream of the live table is not enabled. -/
def InTime : LogStep → Prop
  | .writeCommit i _ =>
    ∀ incarnation, s.calls i = .writing incarnation → s.isLive name incarnation = false →
      ∀ t, s.object? name incarnation = some t → t.schema.changeStreamEnabled = false
  | .updatePurge _ purgeError => purgeError = none ∧ s.streaming name = false
  | _ => True

end SharedLog

/-- A server without calls in progress and without tables. -/
def quietLog (strictAdmin : Bool) (instances : List Bytes) : SharedLog where
  server := newServerState strictAdmin instances
  detached := []
  calls _ := .idle
  expected := []

end Model

section Steps

variable {name : Bytes} {s s' : SharedLog} {i : Nat}

@[simp] theorem setCall_self (p : LogPhase) :
    (s.setCall i p).calls i = p := by
  simp [SharedLog.setCall]

@[simp] theorem setCall_of_ne {j : Nat} (h : j ≠ i) (p : LogPhase) :
    (s.setCall i p).calls j = s.calls j := by
  simp [SharedLog.setCall, h]

/-- A call that starts fails at once or has found the table. -/
theorem updateResolve_cases {req : UpdateTableRequest}
    (h : s.next name (.updateResolve i req) = some s') :
    s.calls i = .idle ∧ (s' = s ∨ ∃ n, s' = s.setCall i (.updating n req)) := by
  unfold SharedLog.next at h
  dsimp only at h
  split at h
  · rename_i hi
    split_ifs at h
    split at h
    · cases h
      exact ⟨hi, .inr ⟨_, rfl⟩⟩
    · cases h
      exact ⟨hi, .inl rfl⟩
  · cases h

theorem writeResolve_cases (h : s.next name (.writeResolve i) = some s') :
    s.calls i = .idle ∧ (s' = s ∨ ∃ n, s' = s.setCall i (.writing n)) := by
  unfold SharedLog.next at h
  dsimp only at h
  split at h
  · rename_i hi
    split at h
    · cases h
      exact ⟨hi, .inl rfl⟩
    · cases h
      exact ⟨hi, .inr ⟨_, rfl⟩⟩
  · cases h

theorem updateApply_cases {schemaEqual : List RowKeyField → List RowKeyField → Bool}
    {saveError : Option Status} (h : s.next name (.updateApply i schemaEqual saveError) = some s') :
    ∃ n req t, s.calls i = .updating n req ∧ s.object? name n = some t ∧
      s' = s.update name i req schemaEqual saveError t := by
  unfold SharedLog.next at h
  dsimp only at h
  split at h
  · rename_i n req hi
    obtain ⟨t, ht, rfl⟩ := Option.map_eq_some_iff.mp h
    exact ⟨n, req, t, hi, ht, rfl⟩
  · cases h

theorem writeCommit_cases {c : Call} (h : s.next name (.writeCommit i c) = some s') :
    ∃ n t, s.calls i = .writing n ∧ c.writesData = true ∧ s.object? name n = some t ∧
      s' = s.commit name i c t := by
  unfold SharedLog.next at h
  dsimp only at h
  split at h
  · rename_i n hi
    split_ifs at h with hdata
    obtain ⟨t, ht, rfl⟩ := Option.map_eq_some_iff.mp h
    exact ⟨n, t, hi, hdata, ht, rfl⟩
  · cases h

theorem object?_cases {n : Nat} {t : TableObject} (h : s.object? name n = some t) :
    t.incarnation = n ∧
      ((s.isLive name n = true ∧ s.server.tables[name]? = some t) ∨
        (s.isLive name n = false ∧ t ∈ s.detached)) := by
  unfold SharedLog.object? at h
  split_ifs at h with hlive
  · refine ⟨?_, .inl ⟨hlive, h⟩⟩
    unfold SharedLog.isLive at hlive
    rw [h] at hlive
    simpa using hlive
  · refine ⟨by simpa using List.find?_some h, .inr ⟨by simpa using hlive, ?_⟩⟩
    exact mem_of_find?_eq_some h

end Steps

section Invariant

variable {name : Bytes} {s s' : SharedLog}

/-- A call has still to purge the log. -/
def SharedLog.Purging (s : SharedLog) : Prop :=
  ∃ i key, s.calls i = .purging key

/-- The log holds what it should, unless it is to be purged.  Without an enabled stream there
is nothing that it should hold. -/
structure LogInv (name : Bytes) (s : SharedLog) : Prop where
  live : ∀ t, s.server.tables[name]? = some t → t.name = name ∧ t.Live
  detached : ∀ t ∈ s.detached, t.name = name
  purging : ∀ i key, s.calls i = .purging key → key = name
  silent : s.streaming name = false → s.expected = []
  exact : s.Purging ∨ s.server.db.changeLog name = s.expected

variable {i : Nat} {p : LogPhase} {t : TableObject}

theorem purging_setCall (hp : ∀ key, s.calls i ≠ .purging key) (h : s.Purging) :
    (s.setCall i p).Purging := by
  obtain ⟨j, key, hj⟩ := h
  have hne : j ≠ i := by
    rintro rfl
    exact hp key hj
  exact ⟨j, key, by rw [setCall_of_ne hne, hj]⟩

theorem key_of_setCall (hinv : LogInv name s) (hp : ∀ key, p = .purging key → key = name) {j : Nat}
    {key : Bytes} (h : (s.setCall i p).calls j = .purging key) :
    key = name := by
  by_cases hj : j = i
  · subst hj
    rw [setCall_self] at h
    exact hp key h
  · rw [setCall_of_ne hj] at h
    exact hinv.purging j key h

theorem LogInv.setCall (hinv : LogInv name s) (hi : ∀ key, s.calls i ≠ .purging key)
    (hp : ∀ key, p ≠ .purging key) :
    LogInv name (s.setCall i p) where
  live := hinv.live
  detached := hinv.detached
  purging := fun _ _ h => key_of_setCall hinv (fun key hkey => absurd hkey (hp key)) h
  silent := hinv.silent
  exact := hinv.exact.imp (purging_setCall hi) id

theorem logInv_createTable {protoSize : GcRule → Nat} {req : CreateTableRequest}
    (hinv : LogInv name s) (h : s.next name (.createTable protoSize req) = some s') :
    LogInv name s' := by
  unfold SharedLog.next at h
  dsimp only at h
  split_ifs at h with hname
  cases hcall : s.server.createTable protoSize req with
  | mk result server =>
    rw [hcall] at h
    cases result with
    | error st =>
      cases h
      rw [createTable_eq_error hcall]
      exact hinv
    | ok u =>
      cases h
      obtain ⟨hid, -, hnew, rfl⟩ := createTable_eq_ok hcall
      rw [hname] at hnew
      have hnone : s.streaming name = false := by
        unfold SharedLog.streaming
        rw [hnew]
        rfl
      refine ⟨?_, hinv.detached, hinv.purging, fun _ => rfl, ?_⟩
      · intro t ht
        dsimp only at ht
        rw [hname, getElem?_insert_eq, if_pos rfl] at ht
        cases ht
        exact ⟨hname, hid, rfl, rfl, rfl⟩
      · exact hinv.exact.imp id (fun hlog => hlog.trans (hinv.silent hnone))

theorem purgeChangeLog_self (db : Database) {key : Bytes} (h : key = name) :
    (db.purgeChangeLog key).changeLog name = [] := by
  rw [h]
  exact Function.update_self name [] db.changeLog

theorem logInv_deleteTable {reading : Option Bytes} {deleteTime : Int}
    {fault : Option (Transaction.Fault TxPoint)} (hinv : LogInv name s)
    (h : s.next name (.deleteTable reading deleteTime fault) = some s') :
    LogInv name s' := by
  unfold SharedLog.next at h
  dsimp only at h
  cases hcall : s.server.deleteTable name reading deleteTime fault with
  | mk result server =>
    rw [hcall] at h
    cases result with
    | error st =>
      cases h
      rw [deleteTable_eq_error (fun t ht => (hinv.live t ht).2) hcall]
      exact hinv
    | ok u =>
      cases h
      obtain ⟨t, db₁, ht, -, hmove, rfl⟩ := deleteTable_eq_ok hcall
      obtain ⟨htname, -⟩ := hinv.live t ht
      refine ⟨?_, ?_, hinv.purging, fun _ => rfl, .inr ?_⟩
      · intro u hu
        dsimp only at hu
        rw [getElem?_erase_eq, if_pos rfl] at hu
        cases hu
      · intro u hu
        rw [ht] at hu
        rcases mem_append.mp hu with hu | hu
        · cases mem_singleton.mp hu
          exact htname
        · exact hinv.detached u hu
      · exact purgeChangeLog_self _ htname

theorem logInv_updateResolve {req : UpdateTableRequest} (hinv : LogInv name s)
    (h : s.next name (.updateResolve i req) = some s') :
    LogInv name s' := by
  obtain ⟨hi, rfl | ⟨n, rfl⟩⟩ := updateResolve_cases h
  · exact hinv
  · exact hinv.setCall (by rw [hi]; nofun) nofun

theorem logInv_writeResolve (hinv : LogInv name s) (h : s.next name (.writeResolve i) = some s') :
    LogInv name s' := by
  obtain ⟨hi, rfl | ⟨n, rfl⟩⟩ := writeResolve_cases h
  · exact hinv
  · exact hinv.setCall (by rw [hi]; nofun) nofun

theorem LogInv.object_name (hinv : LogInv name s) {n : Nat} (h : s.object? name n = some t) :
    t.name = name := by
  obtain ⟨-, ⟨-, ht⟩ | ⟨-, ht⟩⟩ := object?_cases h
  · exact (hinv.live t ht).1
  · exact hinv.detached t ht

theorem logInv_updatePurge {purgeError : Option Status} (hinv : LogInv name s)
    (htime : s.InTime name (.updatePurge i purgeError))
    (h : s.next name (.updatePurge i purgeError) = some s') :
    LogInv name s' := by
  obtain ⟨rfl, hstream⟩ := htime
  unfold SharedLog.next at h
  dsimp only at h
  split at h
  swap
  · cases h
  rename_i key hi
  cases h
  obtain rfl := hinv.purging i key hi
  refine ⟨hinv.live, hinv.detached, ?_, hinv.silent, .inr ?_⟩
  · exact fun _ _ h => key_of_setCall (p := .idle) hinv nofun h
  · exact (purgeChangeLog_self _ rfl).trans (hinv.silent hstream).symm

/-- The records of a write on the live table go to the log and to what it should hold; a
write on another table has none. -/
theorem logInv_writeCommit {c : Call} (hinv : LogInv name s)
    (htime : s.InTime name (.writeCommit i c)) (h : s.next name (.writeCommit i c) = some s') :
    LogInv name s' := by
  obtain ⟨n, t, hi, hdata, hobject, rfl⟩ := writeCommit_cases h
  have hidle : ∀ key, s.calls i ≠ .purging key := by
    rw [hi]
    nofun
  have htname := hinv.object_name hobject
  obtain ⟨hn, hplace⟩ := object?_cases hobject
  unfold SharedLog.commit
  cases hcall : TableState.call ⟨t.schema, s.server.db.store t⟩ c with
  | none => exact hinv.setCall hidle nofun
  | some st =>
    have hlog : st.db.changeLog = s.server.db.changeLog name ++
        TableState.records ⟨t.schema, s.server.db.store t⟩ c := by
      have happend := call_changeLog hdata hcall
      rw [happend]
      exact congrArg (s.server.db.changeLog · ++ _) htname
    -- a table without a stream has no records
    have hnone : t.schema.changeStreamEnabled = false →
        TableState.records ⟨t.schema, s.server.db.store t⟩ c = [] := by
      intro hstream
      have hsilent := call_silent hdata hstream hcall
      rw [call_changeLog hdata hcall] at hsilent
      exact append_right_eq_self.mp hsilent
    have hput : (s.server.db.putStore t st.db).changeLog name = st.db.changeLog := by
      show Function.update _ t.name _ name = _
      rw [htname, Function.update_self]
    refine ⟨hinv.live, hinv.detached, ?_, ?_, ?_⟩
    · exact fun _ _ h => key_of_setCall (p := .idle) hinv nofun h
    · intro hstreaming
      dsimp only
      rw [hn]
      rcases hplace with ⟨hlive, ht⟩ | ⟨hdead, -⟩
      · have hstream : t.schema.changeStreamEnabled = false := by
          have hany : s.streaming name = false := hstreaming
          unfold SharedLog.streaming at hany
          rw [ht] at hany
          simpa using hany
        rw [if_pos hlive, hnone hstream, append_nil]
        exact hinv.silent hstreaming
      · rw [if_neg (by simp [hdead])]
        exact hinv.silent hstreaming
    · rcases hinv.exact with hpurging | hexact
      · exact .inl (purging_setCall hidle hpurging)
      · refine .inr (hput.trans ?_)
        dsimp only
        rw [hlog, hexact, hn]
        rcases hplace with ⟨hlive, -⟩ | ⟨hdead, -⟩
        · rw [if_pos hlive]
        · rw [if_neg (by simp [hdead]), hnone (htime n hi hdead t hobject), append_nil]

/-- An update of the live table that turns its stream on or off starts a new period; one
that turns it off has still to purge the log. -/
theorem logInv_update_live (hinv : LogInv name s) (hi : ∀ key, s.calls i ≠ .purging key)
    (next : TableObject) (ht : s.server.tables[name]? = some t)
    (hname : next.name = name ∧ next.Live) {db : Database}
    (hdb : db.changeLog = s.server.db.changeLog) :
    LogInv name
      { s.setCall i (if t.schema.changeStreamEnabled && !next.schema.changeStreamEnabled then
          .purging t.name else .idle) with
        server := { s.server with db := db, tables := s.server.tables.insert name next }
        expected :=
          if !(t.schema.changeStreamEnabled && next.schema.changeStreamEnabled) then []
          else s.expected } := by
  have hget : (s.server.tables.insert name next)[name]? = some next := by
    rw [getElem?_insert_eq, if_pos rfl]
  have htname : t.name = name := (hinv.live t ht).1
  refine ⟨?_, hinv.detached, ?_, ?_, ?_⟩
  · intro u hu
    cases hget.symm.trans hu
    exact hname
  · intro j key hj
    refine key_of_setCall hinv (fun key hkey => ?_) hj
    split_ifs at hkey
    cases hkey
    exact htname
  · intro hstreaming
    have hnow : next.schema.changeStreamEnabled = false := by
      have hany : (s.server.tables.insert name next)[name]?.any
          (fun t => t.schema.changeStreamEnabled) = false := hstreaming
      rw [hget] at hany
      simpa using hany
    simp [hnow]
  · dsimp only
    rw [hdb]
    cases hwas : t.schema.changeStreamEnabled with
    | false =>
      refine hinv.exact.imp (purging_setCall hi) (fun hlog => hlog.trans ?_)
      refine hinv.silent ?_
      unfold SharedLog.streaming
      rw [ht]
      simpa using hwas
    | true =>
      cases hnow : next.schema.changeStreamEnabled with
      | false => exact .inl ⟨i, t.name, setCall_self _⟩
      | true => exact hinv.exact.imp (purging_setCall hi) id

theorem logInv_updateApply {schemaEqual : List RowKeyField → List RowKeyField → Bool}
    {saveError : Option Status} (hinv : LogInv name s)
    (h : s.next name (.updateApply i schemaEqual saveError) = some s') :
    LogInv name s' := by
  obtain ⟨n, req, t, hi, hobject, rfl⟩ := updateApply_cases h
  have hidle : ∀ key, s.calls i ≠ .purging key := by
    rw [hi]
    nofun
  have htname := hinv.object_name hobject
  obtain ⟨hn, hplace⟩ := object?_cases hobject
  unfold SharedLog.update
  cases hpaths : updatePaths schemaEqual req t.schema req.paths t with
  | error st => exact hinv.setCall hidle nofun
  | ok next =>
    cases saveError with
    | some st => exact hinv.setCall hidle nofun
    | none =>
      obtain ⟨schema, protection, rfl⟩ := updatePaths_eq_ok hpaths
      dsimp only
      unfold SharedLog.putObject
      rcases hplace with ⟨hlive, ht⟩ | ⟨hdead, -⟩
      · rw [if_pos (by rw [← hn] at hlive; exact hlive), hn, hlive]
        exact logInv_update_live hinv hidle (t.withSchema schema protection) ht
          ⟨htname, (hinv.live t ht).2.withSchema schema protection⟩ rfl
      rw [if_neg (by rw [← hn] at hdead; exact Bool.eq_false_iff.mp hdead), hn, hdead]
      refine ⟨hinv.live, fun u hu => ?_, fun j key hj => ?_, hinv.silent,
        hinv.exact.imp (purging_setCall hidle) id⟩
      · obtain ⟨v, hv, rfl⟩ := mem_map.mp hu
        split_ifs
        · exact htname
        · exact hinv.detached v hv
      · refine key_of_setCall hinv (fun key hkey => ?_) hj
        split_ifs at hkey
        cases hkey
        exact htname

theorem logInv_next (a : LogStep) (hinv : LogInv name s) (htime : s.InTime name a)
    (h : s.next name a = some s') :
    LogInv name s' := by
  cases a with
  | createTable protoSize req => exact logInv_createTable hinv h
  | deleteTable reading deleteTime fault => exact logInv_deleteTable hinv h
  | updateResolve i req => exact logInv_updateResolve hinv h
  | updateApply i schemaEqual saveError => exact logInv_updateApply hinv h
  | updatePurge i purgeError => exact logInv_updatePurge hinv htime h
  | writeResolve i => exact logInv_writeResolve hinv h
  | writeCommit i c => exact logInv_writeCommit hinv htime h

theorem quietLog_inv (strictAdmin : Bool) (instances : List Bytes) :
    LogInv name (quietLog strictAdmin instances) where
  live := by simp [quietLog, newServerState]
  detached := by simp [quietLog]
  purging := nofun
  silent := fun _ => rfl
  exact := .inr rfl

/-- **The change log belongs to the live incarnation**: in every run in which writes reach the
live table only and purges come in time, whenever no call is in progress, the log under the
name holds exactly the records of the commits to the live table since its stream was last
enabled, and nothing without a live table whose stream is enabled. -/
theorem changeLog_exact (name : Bytes) (strictAdmin : Bool) (instances : List Bytes)
    (steps : List LogStep) (s : SharedLog)
    (hrun : run (SharedLog.next name) (quietLog strictAdmin instances) steps = some s)
    (htime : Meets (SharedLog.next name) (SharedLog.InTime name) (quietLog strictAdmin instances)
      steps)
    (hquiet : s.Quiet) :
    s.server.db.changeLog name = s.expected ∧ (s.streaming name = false → s.expected = []) := by
  have hinv : LogInv name s :=
    invariant_of_meets (LogInv name) (fun s a s' hinv hcond hnext => logInv_next a hinv hcond hnext)
      (quietLog_inv strictAdmin instances) htime hrun
  refine ⟨?_, hinv.silent⟩
  rcases hinv.exact with ⟨i, key, hi⟩ | hexact
  · rw [hquiet i] at hi
    cases hi
  · exact hexact

end Invariant

section Runs

/-- The call that a step belongs to. -/
def LogStep.caller : LogStep → Option Nat
  | .createTable _ _ => none
  | .deleteTable _ _ _ => none
  | .updateResolve i _ => some i
  | .updateApply i _ _ => some i
  | .updatePurge i _ => some i
  | .writeResolve i => some i
  | .writeCommit i _ => some i

variable {name : Bytes} {s s' : SharedLog}

theorem putObject_calls (t : TableObject) :
    (s.putObject name t).calls = s.calls := by
  unfold SharedLog.putObject
  split_ifs <;> rfl

/-- A step leaves the other calls alone. -/
theorem next_calls {a : LogStep} {i : Nat} (hi : a.caller ≠ some i) (h : s.next name a = some s') :
    s'.calls i = s.calls i := by
  cases a with
  | createTable protoSize req =>
    unfold SharedLog.next at h
    dsimp only at h
    split_ifs at h
    split at h
    · cases h
      rfl
    · cases h
      rfl
  | deleteTable reading deleteTime fault =>
    unfold SharedLog.next at h
    dsimp only at h
    split at h
    · cases h
      rfl
    · cases h
      rfl
  | updateResolve j req =>
    have hne : i ≠ j := fun heq => hi (congrArg some heq.symm)
    obtain ⟨-, rfl | ⟨n, rfl⟩⟩ := updateResolve_cases h
    · rfl
    · exact setCall_of_ne hne _
  | updateApply j schemaEqual saveError =>
    have hne : i ≠ j := fun heq => hi (congrArg some heq.symm)
    obtain ⟨n, req, t, -, -, rfl⟩ := updateApply_cases h
    unfold SharedLog.update
    split
    · exact setCall_of_ne hne _
    · split
      · exact setCall_of_ne hne _
      · exact (setCall_of_ne hne _).trans (congrFun (putObject_calls _) i)
  | updatePurge j purgeError =>
    have hne : i ≠ j := fun heq => hi (congrArg some heq.symm)
    unfold SharedLog.next at h
    dsimp only at h
    split at h
    · split at h
      · cases h
        exact setCall_of_ne hne _
      · cases h
        exact setCall_of_ne hne _
    · cases h
  | writeResolve j =>
    have hne : i ≠ j := fun heq => hi (congrArg some heq.symm)
    obtain ⟨-, rfl | ⟨n, rfl⟩⟩ := writeResolve_cases h
    · rfl
    · exact setCall_of_ne hne _
  | writeCommit j c =>
    have hne : i ≠ j := fun heq => hi (congrArg some heq.symm)
    obtain ⟨n, t, -, -, -, rfl⟩ := writeCommit_cases h
    unfold SharedLog.commit
    split
    · exact setCall_of_ne hne _
    · exact setCall_of_ne hne _

def LogPhase.isIdle : LogPhase → Bool
  | .idle => true
  | _ => false

/-- A run is quiet at its end if the calls that it has steps of are. -/
theorem quiet_of_callers {strictAdmin : Bool} {instances : List Bytes} {steps : List LogStep}
    (h : run (SharedLog.next name) (quietLog strictAdmin instances) steps = some s)
    (hcallers : ∀ i ∈ steps.filterMap LogStep.caller, (s.calls i).isIdle = true) :
    s.Quiet := by
  have hframe : ∀ (steps : List LogStep) (s₀ : SharedLog) (i : Nat),
      i ∉ steps.filterMap LogStep.caller → run (SharedLog.next name) s₀ steps = some s →
      s.calls i = s₀.calls i := by
    intro steps
    induction steps with
    | nil =>
      intro s₀ i _ hrun
      cases hrun
      rfl
    | cons a steps ih =>
      intro s₀ i hi hrun
      obtain ⟨s₁, hnext, hrest⟩ := run_cons_eq_some hrun
      rw [filterMap_cons] at hi
      cases ha : a.caller with
      | none =>
        rw [ha] at hi
        rw [ih s₁ i hi hrest, next_calls (by rw [ha]; nofun) hnext]
      | some j =>
        rw [ha] at hi
        have hj : a.caller ≠ some i := by
          rw [ha]
          rintro ⟨rfl⟩
          exact hi mem_cons_self
        rw [ih s₁ i (fun hmem => hi (mem_cons_of_mem _ hmem)) hrest, next_calls hj hnext]
  intro i
  by_cases hi : i ∈ steps.filterMap LogStep.caller
  · have hidle := hcallers i hi
    cases hphase : s.calls i with
    | idle => rfl
    | _ =>
      rw [hphase] at hidle
      cases hidle
  · exact hframe steps _ i hi h

theorem exists_quiet_end {steps : List LogStep} {records log : List ChangeRecord}
    (h : (run (SharedLog.next name) (quietLog false []) steps).map
      (fun s => (s.expected, s.server.db.changeLog name,
        (steps.filterMap LogStep.caller).all (fun i => (s.calls i).isIdle))) =
          some (records, log, true)) :
    ∃ s, run (SharedLog.next name) (quietLog false []) steps = some s ∧ s.Quiet ∧
      s.expected = records ∧ s.server.db.changeLog name = log := by
  obtain ⟨s, hrun, hs⟩ := Option.map_eq_some_iff.mp h
  simp only [Prod.mk.injEq, all_eq_true] at hs
  exact ⟨s, hrun, quiet_of_callers hrun hs.2.2, hs.1, hs.2.1⟩

/-- A step that reaches the live table, or a purge in time. -/
def SharedLog.testInTime (name : Bytes) (s : SharedLog) : LogStep → Bool
  | .writeCommit i _ =>
    match s.calls i with
    | .writing n => s.isLive name n
    | _ => false
  | .updatePurge _ purgeError => purgeError.isNone && !s.streaming name
  | _ => true

theorem inTime_of_test (a : LogStep) (h : s.testInTime name a = true) :
    s.InTime name a := by
  cases a with
  | writeCommit i c =>
    intro n hn hdead
    unfold SharedLog.testInTime at h
    dsimp only at h
    rw [hn] at h
    exact absurd (h.symm.trans hdead) (by decide)
  | updatePurge i purgeError => simpa [SharedLog.testInTime, SharedLog.InTime] using h
  | _ => trivial

end Runs

section Races

/-- A table with one family and a change stream. -/
def streamedTable : CreateTableRequest :=
  ⟨utf8 "i", utf8 "t", (∅ : GoMap _).insert [102] (none, none), ⟨false⟩,
    some (24 * 3600 * 1000000000), none, false, []⟩

def createStreamed : LogStep :=
  .createTable (fun _ => 0) streamedTable

/-- A write of one cell. -/
def writeByte (commitMicros : Int) (b : UInt8) : Call :=
  .mutateRow none 0 ⟨0, 0, none, none, 0⟩ ⟨commitMicros, fun _ => 0, none⟩
    ⟨[107], [.plain (.setCell [102] [113] 0 [b])], none⟩

def byteRecord (commitMicros : Int) (b : UInt8) : ChangeRecord :=
  ⟨[107], .user, commitMicros, [.plain (.setCell [102] [113] 0 [b])]⟩

/-- `UpdateTable` of the change stream. -/
def setStream (retention : Option Int) : UpdateTableRequest :=
  ⟨utf8 "i/tables/t", [.changeStreamConfig], false, retention, none, false⟩

/-- The stream is disabled and enabled again with the purge in between. -/
def restarted : List LogStep :=
  [createStreamed, .writeResolve 0, .writeCommit 0 (writeByte 1 1),
    .updateResolve 1 (setStream none), .updateApply 1 (fun _ _ => true) none, .updatePurge 1 none,
    .updateResolve 1 (setStream (some (24 * 3600 * 1000000000))),
    .updateApply 1 (fun _ _ => true) none, .writeResolve 0, .writeCommit 0 (writeByte 2 2)]

/-- The log holds the record of the second period. -/
theorem changeLog_exact_restarted :
    ∃ s, run (SharedLog.next (utf8 "i/tables/t")) (quietLog false []) restarted = some s ∧
      s.Quiet ∧ s.server.db.changeLog (utf8 "i/tables/t") = s.expected ∧
      s.expected = [byteRecord 2 2] := by
  obtain ⟨s, hrun, hquiet, hrecords, -⟩ := exists_quiet_end (by decide +kernel :
    (run (SharedLog.next (utf8 "i/tables/t")) (quietLog false []) restarted).map
      (fun s => (s.expected, s.server.db.changeLog (utf8 "i/tables/t"),
        (restarted.filterMap LogStep.caller).all (fun i => (s.calls i).isIdle))) =
          some ([byteRecord 2 2], [byteRecord 2 2], true))
  have htime : Meets (SharedLog.next (utf8 "i/tables/t")) (SharedLog.InTime (utf8 "i/tables/t"))
      (quietLog false []) restarted :=
    meets_of_checks (fun _ a h => inTime_of_test a h)
      (by decide +kernel : checks _ (SharedLog.testInTime (utf8 "i/tables/t")) _ restarted = true)
  exact ⟨s, hrun, hquiet, (changeLog_exact _ _ _ _ s hrun htime hquiet).1, hrecords⟩

/-- A write finds the table, which is deleted and created again before the write commits. -/
def lateWrite : List LogStep :=
  [createStreamed, .writeResolve 0, .deleteTable none 1000 none, createStreamed,
    .writeCommit 0 (writeByte 1 1)]

/-- The stream is disabled, enabled again and written to before the purge. -/
def latePurge : List LogStep :=
  [createStreamed, .updateResolve 0 (setStream none), .updateApply 0 (fun _ _ => true) none,
    .updateResolve 1 (setStream (some (24 * 3600 * 1000000000))),
    .updateApply 1 (fun _ _ => true) none, .writeResolve 1, .writeCommit 1 (writeByte 2 2),
    .updatePurge 0 none]

/-- **The log does not always belong to the live incarnation.**  A write that has found the
table before it is deleted leaves its record in the log of the table that is created after
that; and a purge that comes after the stream is enabled again takes the record of the new
period with it. -/
theorem changeLog_races :
    (∃ s, run (SharedLog.next (utf8 "i/tables/t")) (quietLog false []) lateWrite = some s ∧
      s.Quiet ∧ s.expected = [] ∧
      s.server.db.changeLog (utf8 "i/tables/t") = [byteRecord 1 1]) ∧
    ∃ s, run (SharedLog.next (utf8 "i/tables/t")) (quietLog false []) latePurge = some s ∧
      s.Quiet ∧ s.expected = [byteRecord 2 2] ∧
      s.server.db.changeLog (utf8 "i/tables/t") = [] :=
  ⟨exists_quiet_end (by decide +kernel), exists_quiet_end (by decide +kernel)⟩

end Races

end Bttest
end LittleBigtable
