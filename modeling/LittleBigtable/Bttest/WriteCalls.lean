import LittleBigtable.Bttest.DataWrite

/-!
# What a write call can do

For each of the four data write calls, the outcomes it can have: the failures, in
the order of the checks, and the successes.  Every failure leaves the store as it
was.
-/

namespace LittleBigtable
namespace Bttest

section MutateRow

/-- The checks of `MutateRow` before it looks at tokens. -/
def mutateRowCheck (view : Option ViewPolicy) (env : EntryEnv) (req : Entry) : Option Status :=
  (if req.mutations.length = 0 then
    some (errorf .invalidArgument "No mutations provided" [])
  else
    none).or <|
  (validateRowKey req.rowKey).or <|
  (validateIdempotency req.idempotency env.sinceNanos).or <|
  checkView view req.rowKey req.mutations

/-- The outcomes of `MutateRow`. -/
inductive MutateRowResult (tbl : Table) (view : Option ViewPolicy) (nowNanos : Nat) (env : EntryEnv)
    (tx : TxEnv) (req : Entry) (db : Store) :
    Except Status Unit × Store → Prop
  | invalid
      (st : Status)
      (hcheck : mutateRowCheck view env req = some st) :
      MutateRowResult tbl view nowNanos env tx req db (.error st, db)
  | seenError
      (st : Status)
      (hcheck : mutateRowCheck view env req = none)
      (hseen : idempotencySeen db req.rowKey req.idempotency env = .error st) :
      MutateRowResult tbl view nowNanos env tx req db (.error st, db)
  | retry
      (hcheck : mutateRowCheck view env req = none)
      (hseen : idempotencySeen db req.rowKey req.idempotency env = .ok true) :
      MutateRowResult tbl view nowNanos env tx req db (.ok (), db)
  | malformed
      (st : Status)
      (hcheck : mutateRowCheck view env req = none)
      (hseen : idempotencySeen db req.rowKey req.idempotency env = .ok false)
      (hvalid : validateMutations req.mutations tbl.families tbl.granularity = some st) :
      MutateRowResult tbl view nowNanos env tx req db (.error st, db)
  | stageError
      (st : Status)
      (hcheck : mutateRowCheck view env req = none)
      (hseen : idempotencySeen db req.rowKey req.idempotency env = .ok false)
      (hvalid : validateMutations req.mutations tbl.families tbl.granularity = none)
      (hstage : stage tbl db.rows env ∅ req.rowKey
        (mutateWith tbl (newTimestamp nowNanos) req.mutations) = .error st) :
      MutateRowResult tbl view nowNanos env tx req db (.error st, db)
  | txError
      (st : Status) (commit : RowCommit)
      (hcheck : mutateRowCheck view env req = none)
      (hseen : idempotencySeen db req.rowKey req.idempotency env = .ok false)
      (hvalid : validateMutations req.mutations tbl.families tbl.granularity = none)
      (hstage : stage tbl db.rows env ∅ req.rowKey
        (mutateWith tbl (newTimestamp nowNanos) req.mutations) = .ok (commit, ()))
      (hpersist : persistWith tbl tx db [commit] (fun db =>
        recordIdempotency db req.rowKey req.idempotency (tx.recordMicros 0)) = .error st) :
      MutateRowResult tbl view nowNanos env tx req db (.error st, db)
  | written
      (commit : RowCommit) (db' : Store)
      (hcheck : mutateRowCheck view env req = none)
      (hseen : idempotencySeen db req.rowKey req.idempotency env = .ok false)
      (hvalid : validateMutations req.mutations tbl.families tbl.granularity = none)
      (hstage : stage tbl db.rows env ∅ req.rowKey
        (mutateWith tbl (newTimestamp nowNanos) req.mutations) = .ok (commit, ()))
      (hpersist : persistWith tbl tx db [commit] (fun db =>
        recordIdempotency db req.rowKey req.idempotency (tx.recordMicros 0)) = .ok db') :
      MutateRowResult tbl view nowNanos env tx req db (.ok (), db')

theorem mutateRow_result {tbl : Table} {view : Option ViewPolicy} {nowNanos : Nat} {env : EntryEnv}
    {tx : TxEnv} {req : Entry} {db : Store} {x}
    (h : mutateRow tbl view nowNanos env tx req db = x) :
    MutateRowResult tbl view nowNanos env tx req db x := by
  subst h
  unfold mutateRow failed
  simp only
  split
  · rename_i st hcheck
    exact .invalid st hcheck
  rename_i hcheck
  split
  · rename_i st hseen
    exact .seenError st hcheck hseen
  · rename_i hseen
    exact .retry hcheck hseen
  rename_i hseen
  split
  · rename_i st hvalid
    exact .malformed st hcheck hseen hvalid
  rename_i hvalid
  split
  · rename_i st hstage
    exact .stageError st hcheck hseen hvalid hstage
  rename_i commit _ hstage
  split
  · rename_i st hpers
    exact .txError st commit hcheck hseen hvalid hstage hpers
  · rename_i db' hpers
    exact .written commit db' hcheck hseen hvalid hstage hpers

/-- `MutateRow` leaves the store alone or persists one staged commit. -/
theorem mutateRow_unchanged_or_written {tbl : Table} {view : Option ViewPolicy} {nowNanos : Nat}
    {env : EntryEnv} {tx : TxEnv} {req : Entry} {db : Store} :
    (mutateRow tbl view nowNanos env tx req db).2 = db ∨
      ∃ commit,
        checkView view req.rowKey req.mutations = none ∧
        validateMutations req.mutations tbl.families tbl.granularity = none ∧
        stage tbl db.rows env ∅ req.rowKey
          (mutateWith tbl (newTimestamp nowNanos) req.mutations) = .ok (commit, ()) ∧
        persistWith tbl tx db [commit] (fun db =>
          recordIdempotency db req.rowKey req.idempotency (tx.recordMicros 0)) =
            .ok (mutateRow tbl view nowNanos env tx req db).2 := by
  generalize hx : mutateRow tbl view nowNanos env tx req db = x
  cases mutateRow_result hx with
  | written commit db' hcheck _ hvalid hstage hpers =>
    simp only [mutateRowCheck, Option.or_eq_none_iff] at hcheck
    exact .inr ⟨commit, hcheck.2.2.2, hvalid, hstage, hpers⟩
  | _ => exact .inl rfl

end MutateRow

section MutateRows

/-- The check of the number of mutations of a batch. -/
def mutateRowsCheck (entries : List Entry) : Option Status :=
  let nMutations := (entries.map (fun e => e.mutations.length)).sum
  if nMutations = 0 then
    some (errorf .invalidArgument "No mutations provided" [])
  else if nMutations > maxMutationsPerRequest then
    some (errorf .invalidArgument "too many mutations: %d (maximum %d)"
      [.int nMutations, .int maxMutationsPerRequest])
  else
    none

/-- The loop of a batch. -/
def runBatch (tbl : Table) (view : Option ViewPolicy) (nowNanos : Nat) (env : Nat → EntryEnv)
    (entries : List Entry) (db : Store) : List EntryOutcome × BatchState :=
  batchLoop tbl view (newTimestamp nowNanos) db env 0 entries ⟨∅, [], []⟩

/-- The outcomes of `MutateRows`. -/
inductive MutateRowsResult (tbl : Table) (view : Option ViewPolicy) (nowNanos : Nat)
    (env : Nat → EntryEnv) (tx : TxEnv) (entries : List Entry) (db : Store) :
    Except Status BatchResult × Store → Prop
  | invalid
      (st : Status)
      (hcheck : mutateRowsCheck entries = some st) :
      MutateRowsResult tbl view nowNanos env tx entries db (.error st, db)
  | txError
      (st : Status)
      (hcheck : mutateRowsCheck entries = none)
      (hpersist : persistWith tbl tx db
        (runBatch tbl view nowNanos env entries db).2.final
        (recordTokens tx 0
          (entries.zip (runBatch tbl view nowNanos env entries db).1)) =
          .error st) :
      MutateRowsResult tbl view nowNanos env tx entries db
        (.ok ⟨(runBatch tbl view nowNanos env entries db).1.map
            (entryStatus (some st)),
          (runBatch tbl view nowNanos env entries db).1.map (fun _ => false)⟩, db)
  | written
      (db' : Store)
      (hcheck : mutateRowsCheck entries = none)
      (hpersist : persistWith tbl tx db
        (runBatch tbl view nowNanos env entries db).2.final
        (recordTokens tx 0 (entries.zip (runBatch tbl view nowNanos env entries db).1)) = .ok db') :
      MutateRowsResult tbl view nowNanos env tx entries db
        (.ok ⟨(runBatch tbl view nowNanos env entries db).1.map
            (entryStatus none),
          (runBatch tbl view nowNanos env entries db).1.map (fun o => decide (o = .staged))⟩, db')

theorem mutateRows_result {tbl : Table} {view : Option ViewPolicy} {nowNanos : Nat}
    {env : Nat → EntryEnv} {tx : TxEnv} {entries : List Entry} {db : Store} {x}
    (h : mutateRows tbl view nowNanos env tx entries db = x) :
    MutateRowsResult tbl view nowNanos env tx entries db x := by
  subst h
  unfold mutateRows failed
  simp only
  split_ifs with hzero hmany
  · exact .invalid _ (if_pos hzero)
  · exact .invalid _ ((if_neg hzero).trans (if_pos hmany))
  have hcheck : mutateRowsCheck entries = none := (if_neg hzero).trans (if_neg hmany)
  split
  · rename_i st hpers
    exact .txError st hcheck hpers
  · rename_i db' hpers
    exact .written db' hcheck hpers

/-- `MutateRows` leaves the store alone or persists the final staged commits. -/
theorem mutateRows_unchanged_or_written {tbl : Table} {view : Option ViewPolicy} {nowNanos : Nat}
    {env : Nat → EntryEnv} {tx : TxEnv} {entries : List Entry} {db : Store} :
    (mutateRows tbl view nowNanos env tx entries db).2 = db ∨
      persistWith tbl tx db (runBatch tbl view nowNanos env entries db).2.final
        (recordTokens tx 0 (entries.zip (runBatch tbl view nowNanos env entries db).1)) =
        .ok (mutateRows tbl view nowNanos env tx entries db).2 := by
  generalize hx : mutateRows tbl view nowNanos env tx entries db = x
  cases mutateRows_result hx with
  | invalid | txError => exact .inl rfl
  | written _ _ hpers => exact .inr hpers

end MutateRows

section CheckAndMutateRow

/-- The checks of `CheckAndMutateRow`; both branches must stay in the view. -/
def checkAndMutateRowCheck (compile : RegexpCompiler) (view : Option ViewPolicy)
    (req : CheckAndMutateRowRequest) : Option Status :=
  (validateRowKey req.rowKey).or <|
  (if req.trueMutations.length = 0 ∧ req.falseMutations.length = 0 then
    some (errorf .invalidArgument
      "at least one of true_mutations or false_mutations must be provided" [])
  else
    none).or <|
  (validateFilter compile req.predicateFilter).or <|
  (if req.trueMutations.length = 0 then none
    else checkView view req.rowKey req.trueMutations).or <|
  if req.falseMutations.length = 0 then none
    else checkView view req.rowKey req.falseMutations

/-- The outcomes of `CheckAndMutateRow`. -/
inductive CheckAndMutateRowResult (compile : RegexpCompiler) (draw : List Nat → ℚ) (tbl : Table)
    (view : Option ViewPolicy) (nowNanos : Nat) (predicateMicros : Int) (env : EntryEnv)
    (tx : TxEnv) (req : CheckAndMutateRowRequest) (db : Store) :
    Except Status Bool × Store → Prop
  | invalid
      (st : Status)
      (hcheck : checkAndMutateRowCheck compile view req = some st) :
      CheckAndMutateRowResult compile draw tbl view nowNanos predicateMicros env tx
        req db (.error st, db)
  | stageError
      (st : Status)
      (hcheck : checkAndMutateRowCheck compile view req = none)
      (hstage : stage tbl db.rows env ∅ req.rowKey
        (checkAndMutate compile draw tbl view (newTimestamp nowNanos)
          predicateMicros req) = .error st) :
      CheckAndMutateRowResult compile draw tbl view nowNanos predicateMicros env tx
        req db (.error st, db)
  | unrecorded
      (commit : RowCommit) (matched : Bool)
      (hcheck : checkAndMutateRowCheck compile view req = none)
      (hstage : stage tbl db.rows env ∅ req.rowKey
        (checkAndMutate compile draw tbl view (newTimestamp nowNanos)
          predicateMicros req) = .ok (commit, matched))
      (hnone : commit.userChanges = []) :
      CheckAndMutateRowResult compile draw tbl view nowNanos predicateMicros env tx
        req db (.ok matched, db)
  | txError
      (st : Status) (commit : RowCommit) (matched : Bool)
      (hcheck : checkAndMutateRowCheck compile view req = none)
      (hstage : stage tbl db.rows env ∅ req.rowKey
        (checkAndMutate compile draw tbl view (newTimestamp nowNanos)
          predicateMicros req) = .ok (commit, matched))
      (hsome : commit.userChanges ≠ [])
      (hpersist : persist tbl tx db [commit] = .error st) :
      CheckAndMutateRowResult compile draw tbl view nowNanos predicateMicros env tx
        req db (.error st, db)
  | written
      (commit : RowCommit) (matched : Bool) (db' : Store)
      (hcheck : checkAndMutateRowCheck compile view req = none)
      (hstage : stage tbl db.rows env ∅ req.rowKey
        (checkAndMutate compile draw tbl view (newTimestamp nowNanos)
          predicateMicros req) = .ok (commit, matched))
      (hsome : commit.userChanges ≠ [])
      (hpersist : persist tbl tx db [commit] = .ok db') :
      CheckAndMutateRowResult compile draw tbl view nowNanos predicateMicros env tx
        req db (.ok matched, db')

theorem checkAndMutateRow_result {compile : RegexpCompiler} {draw : List Nat → ℚ} {tbl : Table}
    {view : Option ViewPolicy} {nowNanos : Nat} {predicateMicros : Int} {env : EntryEnv}
    {tx : TxEnv} {req : CheckAndMutateRowRequest} {db : Store} {x}
    (h : checkAndMutateRow compile draw tbl view nowNanos predicateMicros env tx req db = x) :
    CheckAndMutateRowResult compile draw tbl view nowNanos predicateMicros env tx req db x := by
  subst h
  unfold checkAndMutateRow failed
  simp only
  split
  · rename_i st hcheck
    exact .invalid st hcheck
  rename_i hcheck
  split
  · rename_i st hstage
    exact .stageError st hcheck hstage
  rename_i commit matched hstage
  split_ifs with hchanges
  · have hsome : commit.userChanges ≠ [] := List.ne_nil_of_length_pos hchanges
    split
    · rename_i st hpers
      exact .txError st commit matched hcheck hstage hsome hpers
    · rename_i db' hpers
      exact .written commit matched db' hcheck hstage hsome hpers
  · have hnone : commit.userChanges = [] := by
      rw [← List.length_eq_zero_iff]
      omega
    exact .unrecorded commit matched hcheck hstage hnone

end CheckAndMutateRow

section ReadModifyWriteRow

/-- The checks of `ReadModifyWriteRow`. -/
def readModifyWriteRowCheck (tbl : Table) (view : Option ViewPolicy)
    (req : ReadModifyWriteRowRequest) : Option Status :=
  (validateRowKey req.rowKey).or <|
  (if req.rules.length = 0 then
    some (errorf .invalidArgument "at least one rule must be provided" [])
  else if req.rules.length > maxMutationsPerRequest then
    some (errorf .invalidArgument "too many rules: %d (maximum %d)"
      [.int req.rules.length, .int maxMutationsPerRequest])
  else
    none).or <|
  (view.bind (fun p => p.checkRules req.rowKey req.rules)).or <|
  validateRules tbl.families 0 req.rules

/-- The outcomes of `ReadModifyWriteRow`. -/
inductive ReadModifyWriteRowResult (tbl : Table) (view : Option ViewPolicy) (nowNanos : Nat → Nat)
    (visibleMicros : Int) (env : EntryEnv) (tx : TxEnv) (req : ReadModifyWriteRowRequest)
    (db : Store) :
    Except Status (List (Bytes × List (Bytes × Option Cell))) × Store → Prop
  | invalid
      (st : Status)
      (hcheck : readModifyWriteRowCheck tbl view req = some st) :
      ReadModifyWriteRowResult tbl view nowNanos visibleMicros env tx req db (.error st, db)
  | stageError
      (st : Status)
      (hcheck : readModifyWriteRowCheck tbl view req = none)
      (hstage : stage tbl db.rows env ∅ req.rowKey
        (readModifyWrite tbl nowNanos visibleMicros req) = .error st) :
      ReadModifyWriteRowResult tbl view nowNanos visibleMicros env tx req db (.error st, db)
  | txError
      (st : Status) (commit : RowCommit) (result : Row)
      (hcheck : readModifyWriteRowCheck tbl view req = none)
      (hstage : stage tbl db.rows env ∅ req.rowKey
        (readModifyWrite tbl nowNanos visibleMicros req) = .ok (commit, result))
      (hpersist : persist tbl tx db [commit] = .error st) :
      ReadModifyWriteRowResult tbl view nowNanos visibleMicros env tx req db (.error st, db)
  | written
      (commit : RowCommit) (result : Row) (db' : Store)
      (hcheck : readModifyWriteRowCheck tbl view req = none)
      (hstage : stage tbl db.rows env ∅ req.rowKey
        (readModifyWrite tbl nowNanos visibleMicros req) = .ok (commit, result))
      (hpersist : persist tbl tx db [commit] = .ok db') :
      ReadModifyWriteRowResult tbl view nowNanos visibleMicros env tx req db
        (.ok (ruleResponse result), db')

theorem readModifyWriteRow_result {tbl : Table} {view : Option ViewPolicy} {nowNanos : Nat → Nat}
    {visibleMicros : Int} {env : EntryEnv} {tx : TxEnv} {req : ReadModifyWriteRowRequest}
    {db : Store} {x}
    (h : readModifyWriteRow tbl view nowNanos visibleMicros env tx req db = x) :
    ReadModifyWriteRowResult tbl view nowNanos visibleMicros env tx req db x := by
  subst h
  unfold readModifyWriteRow failed
  simp only
  split
  · rename_i st hcheck
    exact .invalid st hcheck
  rename_i hcheck
  split
  · rename_i st hstage
    exact .stageError st hcheck hstage
  rename_i commit result hstage
  split
  · rename_i st hpers
    exact .txError st commit result hcheck hstage hpers
  · rename_i db' hpers
    exact .written commit result db' hcheck hstage hpers

end ReadModifyWriteRow

end Bttest
end LittleBigtable
