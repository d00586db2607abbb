import LittleBigtable.Bttest.Storage
import LittleBigtable.Bttest.Filter

/-!
# Data writes

`MutateRow`, `MutateRows`, `CheckAndMutateRow` and `ReadModifyWriteRow` on a
resolved table.  Each call stages the next state of the rows it changes, then
persists the staged rows, their change records and the idempotency tokens in one
transaction.

The clock readings of a call and the failures of the storage are inputs.
-/

namespace LittleBigtable
namespace Bttest

/-- The deduplication window of idempotency tokens: 15 minutes. -/
def idempotencyWindowMicros : Int := 15 * 60 * 1000000

/-- The clock readings and storage failures while one row is staged. -/
structure EntryEnv where
  sinceNanos : Int
  seenMicros : Int
  seenError : Option Status
  loadError : Option Status
  gcMicros : Int

/-- The clock readings and the failure of the transaction that persists a call;
`recordMicros i` is the reading when the token of entry `i` is recorded. -/
structure TxEnv where
  commitMicros : Int
  recordMicros : Nat → Int
  failure : Option Status

def validateIdempotency (idem : Option Idempotency) (nowNanos : Int) : Option Status :=
  match idem with
  | none => none
  | some idem =>
    if idem.token.length = 0 then
      none
    else if idem.token.length < 8 then
      some (errorf .invalidArgument "idempotency token must be at least 8 bytes long" [])
    else
      match idem.startTime with
      | none => none
      | some (seconds, nanos) =>
        if (seconds ≠ 0 ∨ nanos ≠ 0) ∧
            nowNanos - (seconds * 1000000000 + nanos) > idempotencyWindowMicros * 1000 then
          some (errorf .failedPrecondition
            "idempotency protection for this mutation (first attempted %v) has expired"
            [.int seconds, .int nanos])
        else
          none

/-- A mutation with this token was applied to the row inside the deduplication
window. -/
def idempotencySeen (db : Store) (key : Bytes) (idem : Option Idempotency)
    (env : EntryEnv) : Except Status Bool :=
  if (getToken idem).length = 0 then
    .ok false
  else
    match env.seenError with
    | some st => .error st
    | none =>
      match db.tokenExpiry key (getToken idem) with
      | none => .ok false
      | some expire => .ok (decide (expire > env.seenMicros))

def recordIdempotency (db : Store) (key : Bytes) (idem : Option Idempotency)
    (nowMicros : Int) : Store :=
  if (getToken idem).length = 0 then
    db
  else
    db.putToken key (getToken idem) (nowMicros + idempotencyWindowMicros)

/-- A fully validated next state for one row; `before` is the stored row. -/
structure RowCommit where
  key : Bytes
  before : Option Row
  after : Row
  userChanges : List Mutation
  gcChanges : List Mutation

/-- Drop the families that the schema does not have. -/
def dropUnknownFamilies (fams : Families) (r : Row) : Row :=
  { r with families := r.families.filter (fun name _ => fams[name]?.isSome) }

/-- The row that a staging starts from, and the stored row. -/
def stageBase (rows : SqlRows) (env : EntryEnv) (staged : GoMap RowCommit)
    (key : Bytes) : Except Status (Option Row × Option Row) :=
  match staged[key]? with
  | some prev => .ok (some prev.after, prev.before)
  | none =>
    match rows.load env.loadError key with
    | .error st => .error st
    | .ok stored => .ok (stored, stored)

/-- The commit of a candidate row: cells of deleted families are dropped, the GC
policy is applied, and the changes are added to those staged before. -/
def finishStage (tbl : Table) (env : EntryEnv) (prev : Option RowCommit) (key : Bytes)
    (before : Option Row) (candidate : Row) (changes : List Mutation) : RowCommit :=
  let collected :=
    (dropUnknownFamilies tbl.families candidate).gcWithChanges tbl.gcRules env.gcMicros
  { key := key
    before := before
    after := collected.1.normalize
    userChanges := (prev.map RowCommit.userChanges).getD [] ++ changes
    gcChanges := (prev.map RowCommit.gcChanges).getD [] ++ collected.2 }

/-- Load (or reuse a staged candidate for) `key`, apply `mutate` to a private
copy and finish the candidate.  Nothing is persisted.  `mutate` returns the
changed row, the recorded changes and a result of its own. -/
def stage {α : Type} (tbl : Table) (rows : SqlRows) (env : EntryEnv) (staged : GoMap RowCommit)
    (key : Bytes) (mutate : Row → Except Status (Row × List Mutation × α)) :
    Except Status (RowCommit × α) :=
  match stageBase rows env staged key with
  | .error st => .error st
  | .ok (base, before) =>
    match mutate (base.getD (newRow key)) with
    | .error st => .error st
    | .ok (candidate, changes, result) =>
      .ok (finishStage tbl env staged[key]? key before candidate changes, result)

/-- Write one commit: its row, then its change records. -/
def writeCommit (tbl : Table) (commitMicros : Int) (db : Store) (c : RowCommit) : Store :=
  let db := { db with rows := db.rows.save c.after }
  if tbl.changeStreamEnabled = false then
    db
  else
    let db :=
      if c.userChanges.length > 0 then
        db.appendChange ⟨c.key, .user, commitMicros, c.userChanges⟩
      else
        db
    if c.gcChanges.length > 0 then
      db.appendChange ⟨c.key, .garbageCollection, commitMicros, c.gcChanges⟩
    else
      db

def writeCommits (tbl : Table) (commitMicros : Int) (db : Store)
    (commits : List RowCommit) : Store :=
  commits.foldl (writeCommit tbl commitMicros) db

/-- Persist commits and run `extra` in the same transaction. -/
def persistWith (tbl : Table) (tx : TxEnv) (db : Store) (commits : List RowCommit)
    (extra : Store → Store) : Except Status Store :=
  if commits.length = 0 then
    .ok db
  else
    match tx.failure with
    | some st => .error st
    | none => .ok (extra (writeCommits tbl tx.commitMicros db commits))

def persist (tbl : Table) (tx : TxEnv) (db : Store)
    (commits : List RowCommit) : Except Status Store :=
  persistWith tbl tx db commits id

/-- The view check of a list of mutations, if the request goes through a view. -/
def checkView (view : Option ViewPolicy) (key : Bytes) (muts : List Mutation) : Option Status :=
  view.bind (fun p => p.checkMutations key muts)

/-- `applyMutations` in the form that `stage` runs. -/
def mutateWith (tbl : Table) (now : Int) (muts : List Mutation)
    (r : Row) : Except Status (Row × List Mutation × Unit) :=
  (applyMutations tbl.families tbl.granularity now r muts).map (fun x => (x.1, x.2, ()))

/-- A row key with its mutations and idempotency token: a `MutateRow` request, or
an entry of a `MutateRows` request. -/
structure Entry where
  rowKey : Bytes
  mutations : List Mutation
  idempotency : Option Idempotency

/-- The outcome of a call that fails leaves the store as it was. -/
def failed {α : Type} (db : Store) (st : Status) : Except Status α × Store :=
  (.error st, db)

/-- `MutateRow` on a resolved table. -/
def mutateRow (tbl : Table) (view : Option ViewPolicy) (nowNanos : Nat) (env : EntryEnv)
    (tx : TxEnv) (req : Entry) (db : Store) : Except Status Unit × Store :=
  let check := (if req.mutations.length = 0 then
      some (errorf .invalidArgument "No mutations provided" [])
    else
      none).or <|
    (validateRowKey req.rowKey).or <|
    (validateIdempotency req.idempotency env.sinceNanos).or <|
    checkView view req.rowKey req.mutations
  match check with
  | some st => failed db st
  | none =>
    match idempotencySeen db req.rowKey req.idempotency env with
    | .error st => failed db st
    | .ok true => (.ok (), db)
    | .ok false =>
      match validateMutations req.mutations tbl.families tbl.granularity with
      | some st => failed db st
      | none =>
        match stage tbl db.rows env ∅ req.rowKey
            (mutateWith tbl (newTimestamp nowNanos) req.mutations) with
        | .error st => failed db st
        | .ok (commit, _) =>
          match persistWith tbl tx db [commit] (fun db =>
              recordIdempotency db req.rowKey req.idempotency (tx.recordMicros 0)) with
          | .error st => failed db st
          | .ok db' => (.ok (), db')

section MutateRows

/-- What the loop of `MutateRows` decides about one entry: it fails, it is
answered OK as a retry, or its mutations are staged. -/
inductive EntryOutcome
  | failed (st : Status)
  | retry
  | staged
deriving DecidableEq

/-- The state of the loop of `MutateRows`; `order` lists the staged row keys in
the order of their first staging. -/
structure BatchState where
  staged : GoMap RowCommit
  order : List Bytes
  batchTokens : List Bytes

/-- The checks of one entry that do not look at tokens. -/
def validateEntry (tbl : Table) (view : Option ViewPolicy) (env : EntryEnv)
    (entry : Entry) : Option Status :=
  (validateRowKey entry.rowKey).or <|
  (validateIdempotency entry.idempotency env.sinceNanos).or <|
  (checkView view entry.rowKey entry.mutations).or <|
  validateMutations entry.mutations tbl.families tbl.granularity

/-- The key under which a batch remembers a token. -/
def batchKey (entry : Entry) : Bytes :=
  entry.rowKey ++ [0] ++ getToken entry.idempotency

/-- Remember the token of an entry, if it has one. -/
def BatchState.remember (s : BatchState) (entry : Entry) : BatchState :=
  if (getToken entry.idempotency).length > 0 then
    { s with batchTokens := batchKey entry :: s.batchTokens }
  else
    s

/-- Put a commit into the staged rows; a new row goes to the end of `order`. -/
def BatchState.put (s : BatchState) (key : Bytes) (c : RowCommit) : BatchState :=
  { s with
    staged := s.staged.insert key c
    order := if s.staged[key]?.isSome then s.order else s.order ++ [key] }

/-- One iteration of the loop of `MutateRows`. -/
def batchStep (tbl : Table) (view : Option ViewPolicy) (now : Int) (db : Store) (env : EntryEnv)
    (entry : Entry) (s : BatchState) : EntryOutcome × BatchState :=
  match validateEntry tbl view env entry with
  | some st => (.failed st, s)
  | none =>
    if (getToken entry.idempotency).length > 0 ∧ batchKey entry ∈ s.batchTokens then
      -- a retry of an entry earlier in this batch
      (.retry, s)
    else
      match idempotencySeen db entry.rowKey entry.idempotency env with
      | .ok true => (.retry, s)
      -- the token is remembered before the entry is known to succeed
      | .error st => (.failed st, s.remember entry)
      | .ok false =>
        match stage tbl db.rows env s.staged entry.rowKey (mutateWith tbl now entry.mutations) with
        | .error st => (.failed st, s.remember entry)
        | .ok (c, _) => (.staged, (s.remember entry).put entry.rowKey c)

/-- The loop of `MutateRows` from entry number `i` on. -/
def batchLoop (tbl : Table) (view : Option ViewPolicy) (now : Int) (db : Store)
    (env : Nat → EntryEnv) :
    Nat → List Entry → BatchState → List EntryOutcome × BatchState
  | _, [], s => ([], s)
  | i, entry :: entries, s =>
    let (outcome, s') := batchStep tbl view now db (env i) entry s
    let (outcomes, s'') := batchLoop tbl view now db env (i + 1) entries s'
    (outcome :: outcomes, s'')

/-- The final staged state of each row, once. -/
def BatchState.final (s : BatchState) : List RowCommit :=
  s.order.filterMap (fun key => s.staged[key]?)

/-- Record the tokens of the staged entries, from entry number `i` on. -/
def recordTokens (tx : TxEnv) :
    Nat → List (Entry × EntryOutcome) → Store → Store
  | _, [], db => db
  | i, (entry, outcome) :: rest, db =>
    recordTokens tx (i + 1) rest (if outcome = .staged then
        recordIdempotency db entry.rowKey entry.idempotency (tx.recordMicros i)
      else
        db)

/-- The status of an entry; `none` is OK.  A failed transaction fails every
entry that was staged. -/
def entryStatus (txFailure : Option Status) :
    EntryOutcome → Option Status
  | .failed st => some st
  | .retry => none
  | .staged => txFailure

/-- The answer of `MutateRows`: the status of each entry, and whether its
mutations were part of the committed transaction. -/
structure BatchResult where
  statuses : List (Option Status)
  applied : List Bool

/-- `MutateRows` on a resolved table. -/
def mutateRows (tbl : Table) (view : Option ViewPolicy) (nowNanos : Nat) (env : Nat → EntryEnv)
    (tx : TxEnv) (entries : List Entry) (db : Store) : Except Status BatchResult × Store :=
  let nMutations := (entries.map (fun e => e.mutations.length)).sum
  if nMutations = 0 then
    failed db (errorf .invalidArgument "No mutations provided" [])
  else if nMutations > maxMutationsPerRequest then
    failed db (errorf .invalidArgument "too many mutations: %d (maximum %d)"
      [.int nMutations, .int maxMutationsPerRequest])
  else
    let (outcomes, s) := batchLoop tbl view (newTimestamp nowNanos) db env 0 entries ⟨∅, [], []⟩
    match persistWith tbl tx db s.final (recordTokens tx 0 (entries.zip outcomes)) with
    | .error st => (.ok ⟨outcomes.map (entryStatus (some st)), outcomes.map (fun _ => false)⟩, db)
    | .ok db' =>
      (.ok ⟨outcomes.map (entryStatus none), outcomes.map (fun o => decide (o = .staged))⟩, db')

end MutateRows

section CheckAndMutateRow

structure CheckAndMutateRowRequest where
  rowKey : Bytes
  predicateFilter : RowFilter
  trueMutations : List Mutation
  falseMutations : List Mutation

/-- The predicate of `CheckAndMutateRow` on the current row. -/
def predicateMatched (compile : RegexpCompiler) (draw : List Nat → ℚ) (tbl : Table)
    (view : Option ViewPolicy) (gcMicros : Int) (predicateFilter : RowFilter)
    (r : Row) : Except Status Bool :=
  let visible :=
    match view with
    | none => r
    | some p => p.restrict r
  if predicateFilter.isNil then
    .ok (!visible.isEmpty)
  else
    (filterRow compile draw predicateFilter (visible.gc tbl.gcRules gcMicros)).map Prod.fst

/-- Evaluate the predicate and apply the selected branch.  Only that branch is
validated. -/
def checkAndMutate (compile : RegexpCompiler) (draw : List Nat → ℚ) (tbl : Table)
    (view : Option ViewPolicy) (now : Int) (gcMicros : Int) (req : CheckAndMutateRowRequest)
    (r : Row) : Except Status (Row × List Mutation × Bool) :=
  match predicateMatched compile draw tbl view gcMicros req.predicateFilter r with
  | .error st => .error st
  | .ok matched =>
    let muts := if matched then req.trueMutations else req.falseMutations
    if muts.length = 0 then
      .ok (r, [], matched)
    else
      match validateMutations muts tbl.families tbl.granularity with
      | some st => .error st
      | none =>
        (applyMutations tbl.families tbl.granularity now r muts).map (fun x => (x.1, x.2, matched))

/-- `CheckAndMutateRow` on a resolved table; the answer is
`predicate_matched`. -/
def checkAndMutateRow (compile : RegexpCompiler) (draw : List Nat → ℚ) (tbl : Table)
    (view : Option ViewPolicy) (nowNanos : Nat) (predicateMicros : Int) (env : EntryEnv)
    (tx : TxEnv) (req : CheckAndMutateRowRequest) (db : Store) : Except Status Bool × Store :=
  let checkBranch (muts : List Mutation) : Option Status :=
    if muts.length = 0 then none else checkView view req.rowKey muts
  let check :=
    (validateRowKey req.rowKey).or <|
    (if req.trueMutations.length = 0 ∧ req.falseMutations.length = 0 then
      some (errorf .invalidArgument
        "at least one of true_mutations or false_mutations must be provided" [])
    else
      none).or <|
    (validateFilter compile req.predicateFilter).or <|
    (checkBranch req.trueMutations).or <|
    checkBranch req.falseMutations
  match check with
  | some st => failed db st
  | none =>
    match stage tbl db.rows env ∅ req.rowKey
        (checkAndMutate compile draw tbl view (newTimestamp nowNanos) predicateMicros req) with
    | .error st => failed db st
    | .ok (commit, matched) =>
      if commit.userChanges.length > 0 then
        match persist tbl tx db [commit] with
        | .error st => failed db st
        | .ok db' => (.ok matched, db')
      else
        (.ok matched, db)

end CheckAndMutateRow

section ReadModifyWriteRow

structure ReadModifyWriteRowRequest where
  rowKey : Bytes
  rules : List ReadModifyWriteRule

/-- The check of rule number `i`. -/
def validateRule (fams : Families) (i : Nat) (rule : ReadModifyWriteRule) : Option Status :=
  match fams[rule.familyName]? with
  | none => some (unknownFamilyError rule.familyName)
  | some cf =>
    if familyAggregate cf ≠ .none then
      some (errorf .invalidArgument
        "rule %d: ReadModifyWrite is not supported on aggregate column family %q"
        [.int i, .bytes rule.familyName])
    else if rule.rule = .unset then
      some (errorf .invalidArgument
        "rule %d: rule must set append_value or increment_amount" [.int i])
    else
      none

def validateRules (fams : Families) :
    Nat → List ReadModifyWriteRule → Option Status
  | _, [] => none
  | i, rule :: rules => (validateRule fams i rule).or (validateRules fams (i + 1) rules)

/-- The value that rule number `i` writes over the newest visible cell. -/
def ruleValue (i : Nat) (rule : ReadModifyWriteRule) (prev : Option Cell) : Except Status Bytes :=
  match rule.rule with
  | .appendValue value => .ok ((prev.map Cell.value).getD [] ++ value)
  | .incrementAmount amount =>
    match prev with
    | none => .ok (encodeInt64 amount)
    | some c =>
      if c.value.length ≠ 8 then
        .error (errorf .failedPrecondition
          "rule %d: cannot increment %s:%s because its value is %d bytes, not a 64-bit big-endian integer"
          [.int i, .bytes rule.familyName, .bytes rule.columnQualifier, .int c.value.length])
      else
        .ok (encodeInt64 (decodeInt64 c.value + amount))
  | .unset => .ok []

/-- The rows a `ReadModifyWriteRow` works on: the row itself, its visible cells
and the cells to answer. -/
structure RuleState where
  row : Row
  visible : Row
  result : Row
  changes : List Mutation

/-- Apply rule number `i`. -/
def applyRule (fams : Families) (nowNanos : Nat) (i : Nat) (rule : ReadModifyWriteRule)
    (s : RuleState) : Except Status RuleState :=
  let fam := rule.familyName
  let col := rule.columnQualifier
  let order := (familyOf fams fam).order
  let prev := (s.visible.column fam col).head?
  let ts :=
    match prev with
    | none => newTimestamp nowNanos
    | some c => max (newTimestamp nowNanos) c.ts
  match ruleValue i rule prev with
  | .error st => .error st
  | .ok value =>
    let newCell : Cell := ⟨ts, value, []⟩
    .ok
      { row := s.row.updateColumn fam order col (appendOrReplaceCell newCell)
        visible := s.visible.updateColumn fam order col (appendOrReplaceCell newCell)
        result := s.result.updateColumn fam order col (fun _ => [newCell])
        changes :=
          s.changes ++ [Mutation.plain (.setCell fam col ts value)] }

/-- Apply the rules from number `i` on; a later rule observes the result of an
earlier one. -/
def applyRules (fams : Families) (nowNanos : Nat → Nat) :
    Nat → List ReadModifyWriteRule → RuleState → Except Status RuleState
  | _, [], s => .ok s
  | i, rule :: rules, s =>
    match applyRule fams (nowNanos i) i rule s with
    | .error st => .error st
    | .ok s' => applyRules fams nowNanos (i + 1) rules s'

/-- Rules read the cells that are visible after GC; the staging collects the row
itself. -/
def readModifyWrite (tbl : Table) (nowNanos : Nat → Nat) (gcMicros : Int)
    (req : ReadModifyWriteRowRequest) (r : Row) : Except Status (Row × List Mutation × Row) :=
  (applyRules tbl.families nowNanos 0 req.rules
    ⟨r, r.gc tbl.gcRules gcMicros, newRow req.rowKey, []⟩).map
      (fun s => (s.row, s.changes, s.result))

/-- The answer of `ReadModifyWriteRow`: for each family, in creation order, the
new cell of each column that was written. -/
def ruleResponse (result : Row) : List (Bytes × List (Bytes × Option Cell)) :=
  result.sortedFamilies.map (fun fam =>
    (fam.1, fam.2.colNames.map (fun col =>
      (col, (fam.2.cells[col]?.getD []).head?))))

/-- `ReadModifyWriteRow` on a resolved table. -/
def readModifyWriteRow (tbl : Table) (view : Option ViewPolicy) (nowNanos : Nat → Nat)
    (visibleMicros : Int) (env : EntryEnv) (tx : TxEnv) (req : ReadModifyWriteRowRequest)
    (db : Store) :
    Except Status (List (Bytes × List (Bytes × Option Cell))) × Store :=
  let check := (validateRowKey req.rowKey).or <| (if req.rules.length = 0 then
      some (errorf .invalidArgument "at least one rule must be provided" [])
    else if req.rules.length > maxMutationsPerRequest then
      some (errorf .invalidArgument "too many rules: %d (maximum %d)"
        [.int req.rules.length, .int maxMutationsPerRequest])
    else
      none).or <|
    (view.bind (fun p => p.checkRules req.rowKey req.rules)).or <|
    validateRules tbl.families 0 req.rules
  match check with
  | some st => failed db st
  | none =>
    match stage tbl db.rows env ∅ req.rowKey (readModifyWrite tbl nowNanos visibleMicros req) with
    | .error st => failed db st
    | .ok (commit, result) =>
      match persist tbl tx db [commit] with
      | .error st => failed db st
      | .ok db' => (.ok (ruleResponse result), db')

end ReadModifyWriteRow

end Bttest
end LittleBigtable
