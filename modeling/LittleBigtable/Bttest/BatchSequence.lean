import LittleBigtable.Bttest.BatchStatus

/-!
# A batch and the sequence of its entries

A batch of entries without tokens is compared with the same entries sent one after
the other as `MutateRow` requests.  The batch stages the rows it changes in memory
and saves each of them once; the sequence saves and reloads the row after each
entry.  The staged rows stand for the stored rows of the sequence all along, so the
two end with the same rows and, entry by entry, with the same status codes.

The one exception is an entry without mutations for a row outside an authorized
view, where the two paths make their checks in different orders.
-/

namespace LittleBigtable
namespace Bttest

open List

section Sequence

/-- Send the entries one by one, from entry number `i` on. -/
def mutateEach (tbl : Table) (view : Option ViewPolicy) (nowNanos : Nat) (env : Nat → EntryEnv)
    (tx : TxEnv) :
    Nat → List Entry → Store → List (Except Status Unit) × Store
  | _, [], db => ([], db)
  | i, entry :: entries, db =>
    let (answer, db') := mutateRow tbl view nowNanos (env i) tx entry db
    let (answers, db'') := mutateEach tbl view nowNanos env tx (i + 1) entries db'
    (answer :: answers, db'')

/-- The status code of an answer; `none` is OK. -/
def answerCode : Except Status Unit → Option Code
  | .ok _ => none
  | .error st => some st.code

/-- The status code of each entry of a batch.  A batch that is rejected as a whole
gives its status to every entry. -/
def batchCodes (entries : List Entry) :
    Except Status BatchResult → List (Option Code)
  | .ok result => result.statuses.map (Option.map Status.code)
  | .error st => entries.map (fun _ => some st.code)

/-- The target of a request has the row. -/
def hasRow (view : Option ViewPolicy) (key : Bytes) : Bool :=
  match view with
  | none => true
  | some p => p.rowAllowed key

variable {tbl : Table} {view : Option ViewPolicy} {nowNanos : Nat} {env : EntryEnv} {tx : TxEnv}
variable {entry : Entry}

theorem validateEntry_eq (hne : entry.mutations ≠ []) :
    validateEntry tbl view env entry =
      (mutateRowCheck view env entry).or
        (validateMutations entry.mutations tbl.families tbl.granularity) := by
  unfold validateEntry mutateRowCheck
  rw [if_neg (by rwa [length_eq_zero_iff])]
  simp only [Option.none_or, Option.or_assoc]

variable {idem : Option Idempotency} {db : Store}

theorem idempotencySeen_no_token (db : Store) (key : Bytes) (env : EntryEnv)
    (h : getToken idem = []) :
    idempotencySeen db key idem env = .ok false := by
  unfold idempotencySeen
  rw [h]
  rfl

/-- An entry without token. -/
theorem batchStep_no_token {now : Int} (s : BatchState) (htoken : getToken entry.idempotency = []) :
    batchStep tbl view now db env entry s =
      match validateEntry tbl view env entry with
      | some st => (.failed st, s)
      | none =>
        match stage tbl db.rows env s.staged entry.rowKey (mutateWith tbl now entry.mutations) with
        | .error st => (.failed st, s)
        | .ok (c, _) => (.staged, s.put entry.rowKey c) := by
  have hremember : s.remember entry = s := by
    unfold BatchState.remember
    rw [htoken]
    rfl
  unfold batchStep
  cases validateEntry tbl view env entry with
  | some st => rfl
  | none =>
    simp only [idempotencySeen_no_token db _ env htoken, hremember, htoken, length_nil,
      gt_iff_lt, lt_irrefl, false_and, if_false]
    all_goals rfl

/-- Staging an entry on top of staged commits applies it to the rows that they stand
for, or fails as that would. -/
theorem applyEntry_of_stagedRows (tbl : Table) (now : Int) (entry : Entry) {rows rows' : SqlRows}
    {staged : GoMap RowCommit} (h : StagedRows rows staged rows') (hload : env.loadError = none) :
    applyEntry tbl now env entry rows' =
      (stage tbl rows env staged entry.rowKey
        (mutateWith tbl now entry.mutations)).map (fun x => rows'.save x.1.after) := by
  obtain ⟨base, before, hbase⟩ := stageBase_total entry.rowKey hload
  unfold applyEntry stage mutateWith
  rw [hbase, ← h.base hbase]
  simp only
  cases applyMutations tbl.families tbl.granularity now
      (base.getD (newRow entry.rowKey)) entry.mutations with
  | error st => rfl
  | ok x => rfl

/-- What a single request with mutations and without token does. -/
theorem mutateRow_no_token (tbl : Table) (view : Option ViewPolicy) (nowNanos : Nat) (db : Store)
    (hcommit : tx.failure = none) (htoken : getToken entry.idempotency = [])
    (hload : env.loadError = none) (hne : entry.mutations ≠ []) :
    (∃ st, validateEntry tbl view env entry = some st ∧
      mutateRow tbl view nowNanos env tx entry db = (.error st, db)) ∨
    (validateEntry tbl view env entry = none ∧
      ((∃ st, applyEntry tbl (newTimestamp nowNanos) env entry db.rows = .error st ∧
          mutateRow tbl view nowNanos env tx entry db = (.error st, db)) ∨
        (mutateRow tbl view nowNanos env tx entry db).1 = .ok () ∧
          applyEntry tbl (newTimestamp nowNanos) env entry db.rows =
            .ok (mutateRow tbl view nowNanos env tx entry db).2.rows)) := by
  have happly := applyEntry_of_stagedRows tbl (newTimestamp nowNanos) entry
    (stagedRows_empty db.rows) hload
  have hseen := idempotencySeen_no_token db entry.rowKey env htoken
  rw [validateEntry_eq hne]
  generalize hx : mutateRow tbl view nowNanos env tx entry db = x
  cases mutateRow_result hx with
  | invalid st hcheck => exact .inl ⟨st, by rw [hcheck]; rfl, rfl⟩
  | seenError _ _ hseen' | retry _ hseen' =>
    rw [hseen] at hseen'
    cases hseen'
  | malformed st hcheck _ hvalid => exact .inl ⟨st, by rw [hcheck, hvalid]; rfl, rfl⟩
  | stageError st hcheck _ hvalid hstage =>
    refine .inr ⟨by rw [hcheck, hvalid]; rfl, .inl ⟨st, ?_, rfl⟩⟩
    rw [happly, hstage]
    rfl
  | txError st _ _ _ _ _ hpers => exact absurd hpers (persistWith_ne_error hcommit)
  | written commit db' hcheck _ hvalid hstage hpers =>
    refine .inr ⟨by rw [hcheck, hvalid]; rfl, .inr ⟨rfl, ?_⟩⟩
    rw [happly, hstage, persistWith_rows (fun db => recordIdempotency_rows) hpers]
    rfl

theorem validateIdempotency_no_token (h : getToken idem = []) (nowNanos : Int) :
    validateIdempotency idem nowNanos = none := by
  cases idem with
  | none => rfl
  | some idem =>
    unfold validateIdempotency
    have hlen : idem.token.length = 0 := by
      rw [length_eq_zero_iff]
      exact h
    simp only [hlen, if_true]

/-- An entry without mutations is rejected.  A row of the target gives the code of a
single request. -/
theorem validateEntry_no_mutations (tbl : Table) (view : Option ViewPolicy) (env : EntryEnv)
    (htoken : getToken entry.idempotency = []) (hnil : entry.mutations = []) :
    ∃ st, validateEntry tbl view env entry = some st ∧
      (hasRow view entry.rowKey = true → st.code = .invalidArgument) := by
  unfold validateEntry
  rw [validateIdempotency_no_token htoken, hnil]
  unfold validateRowKey
  split_ifs
  · exact ⟨_, rfl, fun _ => rfl⟩
  · exact ⟨_, rfl, fun _ => rfl⟩
  cases view with
  | none => exact ⟨_, rfl, fun _ => rfl⟩
  | some p =>
    by_cases hrow : p.rowAllowed entry.rowKey = true
    · refine ⟨errorf .invalidArgument "No mutations provided" [], ?_, fun _ => rfl⟩
      simp [checkView, ViewPolicy.checkMutations, hrow, validateMutations]
    · refine ⟨viewDenied p.name "row \"%s\"" [.bytes entry.rowKey], ?_, ?_⟩
      · simp [checkView, ViewPolicy.checkMutations, hrow]
      · exact fun h => absurd h hrow

theorem mutateRow_no_mutations (tbl : Table) (view : Option ViewPolicy) (nowNanos : Nat)
    (env : EntryEnv) (tx : TxEnv) (db : Store) (hnil : entry.mutations = []) :
    mutateRow tbl view nowNanos env tx entry db =
      (.error (errorf .invalidArgument "No mutations provided" []), db) := by
  unfold mutateRow failed
  rw [hnil]
  rfl

/-- The stored rows of the sequence follow the staged rows of the batch, and the
codes are the same. -/
theorem mutateRow_simulates (tbl : Table) (view : Option ViewPolicy) (nowNanos : Nat) {dbs : Store}
    {s : BatchState} (hkeys : ∀ (key : Bytes) (r : Row), db.rows[key]? = some r → r.key = key)
    (h : StagedRows db.rows s.staged dbs.rows) (hcommit : tx.failure = none)
    (htoken : getToken entry.idempotency = []) (hload : env.loadError = none) :
    StagedRows db.rows
        (batchStep tbl view (newTimestamp nowNanos) db env entry s).2.staged
        (mutateRow tbl view nowNanos env tx entry dbs).2.rows ∧
      (entry.mutations ≠ [] ∨ hasRow view entry.rowKey = true →
        (entryStatus none
            (batchStep tbl view (newTimestamp nowNanos) db env entry s).1).map Status.code =
          answerCode (mutateRow tbl view nowNanos env tx entry dbs).1) := by
  rw [batchStep_no_token s htoken]
  by_cases hnil : entry.mutations = []
  · obtain ⟨st, hst, hcode⟩ := validateEntry_no_mutations tbl view env htoken hnil
    rw [mutateRow_no_mutations tbl view nowNanos env tx dbs hnil, hst]
    refine ⟨h, fun hrow => ?_⟩
    rcases hrow with hne | hrow
    · exact absurd hnil hne
    · simp [entryStatus, answerCode, hcode hrow, errorf]
  rcases mutateRow_no_token tbl view nowNanos dbs hcommit htoken hload hnil with
    ⟨st, hst, hcall⟩ | ⟨hvalid, ⟨st, hst, hcall⟩ | ⟨hok, hrows⟩⟩
  · rw [hst, hcall]
    exact ⟨h, fun _ => rfl⟩
  · rw [applyEntry_of_stagedRows tbl _ entry h hload] at hst
    rw [hvalid, hcall]
    cases hstage : stage tbl db.rows env s.staged entry.rowKey
        (mutateWith tbl (newTimestamp nowNanos) entry.mutations) with
    | error st' =>
      rw [hstage] at hst
      cases hst
      exact ⟨h, fun _ => rfl⟩
    | ok x =>
      rw [hstage] at hst
      cases hst
  · rw [hvalid]
    cases hstage : stage tbl db.rows env s.staged entry.rowKey
        (mutateWith tbl (newTimestamp nowNanos) entry.mutations) with
    | error st =>
      rw [applyEntry_of_stagedRows tbl _ entry h hload, hstage] at hrows
      cases hrows
    | ok x =>
      obtain ⟨c, u⟩ := x
      obtain ⟨rows'', hrows'', hstaged⟩ := h.stage hkeys hstage
      rw [hrows''] at hrows
      cases hrows
      refine ⟨hstaged, fun _ => ?_⟩
      rw [hok]
      rfl

/-- The whole loop: the staged rows stand for the rows of the sequence, and the codes
are the same entry by entry. -/
theorem mutateEach_simulates {envs : Nat → EntryEnv} (tbl : Table) (view : Option ViewPolicy)
    (nowNanos : Nat) (hkeys : ∀ (key : Bytes) (r : Row), db.rows[key]? = some r → r.key = key)
    (hcommit : tx.failure = none) (hload : ∀ i, (envs i).loadError = none) (i : Nat)
    (entries : List Entry) (htoken : ∀ entry ∈ entries, getToken entry.idempotency = [])
    {dbs : Store} (s : BatchState) (h : StagedRows db.rows s.staged dbs.rows) :
    StagedRows db.rows
        (batchLoop tbl view (newTimestamp nowNanos) db envs i entries s).2.staged
        (mutateEach tbl view nowNanos envs tx i entries dbs).2.rows ∧
      ∀ (j : Nat) (entry : Entry), entries[j]? = some entry →
        entry.mutations ≠ [] ∨ hasRow view entry.rowKey = true →
        ((batchLoop tbl view (newTimestamp nowNanos) db envs i entries s).1.map
            (fun o => (entryStatus none o).map Status.code))[j]? =
          ((mutateEach tbl view nowNanos envs tx i entries dbs).1.map answerCode)[j]? := by
  induction entries generalizing i dbs s with
  | nil =>
    refine ⟨h, fun j entry hj => ?_⟩
    simp at hj
  | cons entry entries ih =>
    obtain ⟨hstaged, hcode⟩ := mutateRow_simulates tbl view nowNanos hkeys h hcommit
      (htoken entry (by simp)) (hload i)
    obtain ⟨hstaged', hcodes⟩ := ih (i + 1)
      (fun entry' hmem => htoken entry' (mem_cons_of_mem entry hmem)) _ hstaged
    refine ⟨hstaged', fun j entry' hj hrow => ?_⟩
    cases j with
    | zero =>
      simp only [getElem?_cons_zero, Option.some.injEq] at hj
      subst hj
      simp only [batchLoop, mutateEach, map_cons, getElem?_cons_zero, hcode hrow]
    | succ j =>
      simp only [getElem?_cons_succ] at hj
      simp only [batchLoop, mutateEach, map_cons, getElem?_cons_succ]
      exact hcodes j entry' hj hrow

/-- Entries without mutations change nothing and are all rejected with the code of
the batch. -/
theorem mutateEach_no_mutations (tbl : Table) (view : Option ViewPolicy) (nowNanos : Nat)
    (envs : Nat → EntryEnv) (tx : TxEnv) (i : Nat) (entries : List Entry)
    (hnil : ∀ entry ∈ entries, entry.mutations = []) (db : Store) :
    (mutateEach tbl view nowNanos envs tx i entries db).2 = db ∧
      (mutateEach tbl view nowNanos envs tx i entries db).1.map answerCode =
        entries.map (fun _ => some .invalidArgument) := by
  induction entries generalizing i db with
  | nil => exact ⟨rfl, rfl⟩
  | cons entry entries ih =>
    have hcall := mutateRow_no_mutations tbl view nowNanos (envs i) tx db (hnil entry (by simp))
    obtain ⟨hdb, hcodes⟩ := ih (i + 1)
      (fun entry' hmem => hnil entry' (mem_cons_of_mem entry hmem)) db
    simp only [mutateEach, hcall, hdb, map_cons, hcodes]
    exact ⟨trivial, rfl⟩

/-- A batch of entries without tokens leaves the rows that its entries leave when
they are sent one by one, and gives each entry the status code of the single request,
unless the entry has no mutations and its row is outside the view. -/
theorem mutateRows_eq_sequence (tbl : Table) (view : Option ViewPolicy) (nowNanos : Nat)
    (env : Nat → EntryEnv) (tx : TxEnv) (entries : List Entry) (db : Store)
    (hkeys : ∀ (key : Bytes) (r : Row), db.rows[key]? = some r → r.key = key)
    (hcommit : tx.failure = none) (hload : ∀ i, (env i).loadError = none)
    (htoken : ∀ entry ∈ entries, getToken entry.idempotency = [])
    (hsize : (entries.map (fun e => e.mutations.length)).sum ≤ maxMutationsPerRequest) :
    (mutateRows tbl view nowNanos env tx entries db).2.rows =
        (mutateEach tbl view nowNanos env tx 0 entries db).2.rows ∧
      ∀ (j : Nat) (entry : Entry), entries[j]? = some entry →
        entry.mutations ≠ [] ∨ hasRow view entry.rowKey = true →
        (batchCodes entries (mutateRows tbl view nowNanos env tx entries db).1)[j]? =
          ((mutateEach tbl view nowNanos env tx 0 entries db).1.map answerCode)[j]? := by
  obtain ⟨hstaged, hcodes⟩ := mutateEach_simulates tbl view nowNanos hkeys hcommit
    hload 0 entries htoken ⟨∅, [], []⟩ (stagedRows_empty db.rows)
  generalize hx : mutateRows tbl view nowNanos env tx entries db = x
  cases mutateRows_result hx with
  | invalid st hcheck =>
    unfold mutateRowsCheck at hcheck
    simp only at hcheck
    split_ifs at hcheck with hzero hmany
    · have hnil : ∀ entry ∈ entries, entry.mutations = [] := by
        intro entry hmem
        rw [List.sum_eq_zero_iff_forall_eq_nat] at hzero
        rw [← List.length_eq_zero_iff]
        exact hzero _ (List.mem_map_of_mem hmem)
      obtain ⟨hdb, hanswers⟩ := mutateEach_no_mutations tbl view nowNanos env tx 0 entries hnil db
      cases hcheck
      rw [hdb, hanswers]
      exact ⟨rfl, fun _ _ _ _ => rfl⟩
    · omega
  | txError st _ hpersist => exact absurd hpersist (persistWith_ne_error hcommit)
  | written db' _ hpersist =>
    refine ⟨hstaged.persistWith (batchLoop_ordered 0 ordered_initial)
      (recordTokens_rows 0 _) hpersist, fun j entry hj hrow => ?_⟩
    rw [← hcodes j entry hj hrow]
    simp only [batchCodes, runBatch, map_map]
    rfl

/-- A view of the rows whose keys begin with `a`. -/
def rowsBelowA : ViewPolicy :=
  ⟨[118], [[97]], (∅ : GoMap FamilySubset).insert [102] ⟨[], [[]]⟩⟩

/-- An entry without mutations for a row outside the view, and a write in the
view. -/
def emptyAndWrite : List Entry :=
  [⟨[98], [], none⟩, ⟨[97], [.plain (.setCell [102] [113] 1000 [1])], none⟩]

/-- The batch answers the first entry with PERMISSION_DENIED, the single request with
INVALID_ARGUMENT. -/
theorem emptyEntry_codes_differ :
    batchCodes emptyAndWrite
      (mutateRows (tableWithFamily none ⟨false⟩ false) (some rowsBelowA) 0
        (fun _ => ⟨0, 0, none, none, 0⟩) ⟨0, fun _ => 0, none⟩ emptyAndWrite
        ⟨∅, ∅, []⟩).1 = [some .permissionDenied, none] ∧
    (mutateEach (tableWithFamily none ⟨false⟩ false) (some rowsBelowA) 0
      (fun _ => ⟨0, 0, none, none, 0⟩) ⟨0, fun _ => 0, none⟩ 0 emptyAndWrite
      ⟨∅, ∅, []⟩).1.map answerCode = [some .invalidArgument, none] := by
  decide +kernel

/-- Two writes to one row and the deletion of the row in between. -/
def writeDeleteWrite : List Entry :=
  [⟨[97], [.plain (.setCell [102] [113] 1000 [1])], none⟩,
    ⟨[97], [.plain .deleteFromRow], none⟩,
    ⟨[97], [.plain (.setCell [102] [114] 1000 [2])], none⟩]

theorem mutateRows_eq_sequence_one_row :
    (mutateRows (tableWithFamily none ⟨false⟩ false) none 0
        (fun _ => ⟨0, 0, none, none, 0⟩) ⟨0, fun _ => 0, none⟩ writeDeleteWrite
        ⟨∅, ∅, []⟩).2.rows =
      (mutateEach (tableWithFamily none ⟨false⟩ false) none 0
        (fun _ => ⟨0, 0, none, none, 0⟩) ⟨0, fun _ => 0, none⟩ 0 writeDeleteWrite
        ⟨∅, ∅, []⟩).2.rows ∧
    ∀ (j : Nat) (entry : Entry), writeDeleteWrite[j]? = some entry →
      (batchCodes writeDeleteWrite
        (mutateRows (tableWithFamily none ⟨false⟩ false) none 0
          (fun _ => ⟨0, 0, none, none, 0⟩) ⟨0, fun _ => 0, none⟩ writeDeleteWrite
          ⟨∅, ∅, []⟩).1)[j]? =
        ((mutateEach (tableWithFamily none ⟨false⟩ false) none 0
          (fun _ => ⟨0, 0, none, none, 0⟩) ⟨0, fun _ => 0, none⟩ 0 writeDeleteWrite
          ⟨∅, ∅, []⟩).1.map answerCode)[j]? := by
  obtain ⟨hrows, hcodes⟩ := mutateRows_eq_sequence (tableWithFamily none ⟨false⟩ false)
    none 0 (fun _ => ⟨0, 0, none, none, 0⟩) ⟨0, fun _ => 0, none⟩ writeDeleteWrite
    ⟨∅, ∅, []⟩ (fun key r hr => by simp at hr) rfl (fun _ => rfl)
    (by simp [writeDeleteWrite, getToken]) (by decide +kernel)
  exact ⟨hrows, fun j entry hj => hcodes j entry hj (.inr rfl)⟩

end Sequence

end Bttest
end LittleBigtable
