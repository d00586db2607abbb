import LittleBigtable.Bttest.RowInvariant

/-!
# The statuses of `MutateRows`

An entry of a batch is answered OK when its mutations are part of the committed
transaction, or when it is taken for a retry.  The second answer is right only if
the retried entry has the same row key and the same token and was itself applied.
The batch remembers a token under the concatenation of row key and token, and
before the entry is known to succeed; this module states exactly when its answers
are right.
-/

namespace LittleBigtable
namespace Bttest

open List FiniteMap

section Specification

/-- Apply the mutations of one entry to the stored rows. -/
def applyEntry (tbl : Table) (now : Int) (env : EntryEnv) (entry : Entry)
    (rows : SqlRows) : Except Status SqlRows :=
  (applyMutations tbl.families tbl.granularity now
    (storedRow rows entry.rowKey) entry.mutations).map (fun x =>
      rows.save ((dropUnknownFamilies tbl.families x.1).gc tbl.gcRules env.gcMicros).normalize)

/-- Apply one after the other the entries that are marked, from entry number `i`
on. -/
def applyEntries (tbl : Table) (now : Int) (env : Nat → EntryEnv) :
    Nat → List (Entry × Bool) → SqlRows → Except Status SqlRows
  | _, [], rows => .ok rows
  | i, (_, false) :: rest, rows => applyEntries tbl now env (i + 1) rest rows
  | i, (entry, true) :: rest, rows =>
    match applyEntry tbl now (env i) entry rows with
    | .error st => .error st
    | .ok rows' => applyEntries tbl now env (i + 1) rest rows'

/-- The entry carries an idempotency token. -/
def Entry.HasToken (entry : Entry) : Prop :=
  0 < (getToken entry.idempotency).length

/-- The row key and the token of two entries are the same. -/
def Entry.SamePair (entry entry' : Entry) : Prop :=
  entry.rowKey = entry'.rowKey ∧ getToken entry.idempotency = getToken entry'.idempotency

/-- The store holds the row key and the token of the entry, and the deduplication
window is still open when the entry is looked up. -/
def Entry.Live (entry : Entry) (db : Store) (env : EntryEnv) : Prop :=
  ∃ expire,
    db.tokenExpiry entry.rowKey (getToken entry.idempotency) = some expire ∧
    expire > env.seenMicros

/-- Entry `j` is a retry: it was applied before inside the window, by an earlier
call or by an earlier entry of the batch. -/
def RetryOfApplied (env : Nat → EntryEnv) (entries : List Entry) (db : Store) (result : BatchResult)
    (j : Nat) (entry : Entry) : Prop :=
  entry.HasToken ∧
    (entry.Live db (env j) ∨
      ∃ i entry', i < j ∧ entries[i]? = some entry' ∧ entry'.SamePair entry ∧
        result.applied[i]? = some true)

/-- The answer of a batch is right. -/
structure AnswerRight (tbl : Table) (now : Int) (env : Nat → EntryEnv) (tx : TxEnv)
    (entries : List Entry) (db : Store) (result : BatchResult) (db' : Store) : Prop where
  /-- the durable rows are those of the applied entries, one after the other -/
  rows_eq : applyEntries tbl now env 0 (entries.zip result.applied) db.rows = .ok db'.rows
  /-- an entry that is answered OK is applied or a retry of an applied one -/
  ok : ∀ j entry, entries[j]? = some entry →
    result.statuses[j]? = some none →
    result.applied[j]? = some true ∨ RetryOfApplied env entries db result j entry
  /-- no row key and token is applied twice, in the batch or before it -/
  once : ∀ j entry, entries[j]? = some entry → entry.HasToken →
    result.applied[j]? = some true →
    ¬ RetryOfApplied env entries db result j entry
  /-- the tokens of applied entries are durable -/
  recorded : ∀ j entry, entries[j]? = some entry → entry.HasToken →
    result.applied[j]? = some true →
    db'.tokenExpiry entry.rowKey (getToken entry.idempotency) =
      some (tx.recordMicros j + idempotencyWindowMicros)

/-- Entry `i` is looked up in the store and remembers its token: it is valid and
not answered as a retry. -/
def RemembersToken (tbl : Table) (view : Option ViewPolicy) (env : Nat → EntryEnv)
    (result : BatchResult) (i : Nat) (entry : Entry) : Prop :=
  validateEntry tbl view (env i) entry = none ∧ entry.HasToken ∧
    (result.statuses[i]? = some none → result.applied[i]? = some true)

/-- Whenever a valid entry has the concatenation of row key and token that an
earlier entry remembered, both have the same row key and the same token and the
earlier one is applied, unless the pair is live in the store anyway. -/
def RemembersApplied (tbl : Table) (view : Option ViewPolicy) (env : Nat → EntryEnv)
    (entries : List Entry) (db : Store) (result : BatchResult) : Prop :=
  ∀ i j entry entry', i < j →
    entries[i]? = some entry → entries[j]? = some entry' →
    RemembersToken tbl view env result i entry →
    validateEntry tbl view (env j) entry' = none → entry'.HasToken →
    batchKey entry = batchKey entry' →
    (entry.SamePair entry' ∧ result.applied[i]? = some true) ∨ entry'.Live db (env j)

end Specification

section Loop

variable {tbl : Table} {view : Option ViewPolicy} {now : Int} {db : Store} {env : Nat → EntryEnv}

theorem batchLoop_length (i : Nat) (l : List Entry) (s : BatchState) :
    (batchLoop tbl view now db env i l s).1.length = l.length := by
  induction l generalizing i s with
  | nil => rfl
  | cons entry l ih => simp [batchLoop, ih]

/-- Entry `i` remembers its token in the loop. -/
def Remembered (tbl : Table) (view : Option ViewPolicy) (env : EntryEnv) (entry : Entry)
    (outcome : EntryOutcome) : Prop :=
  validateEntry tbl view env entry = none ∧ entry.HasToken ∧ outcome ≠ .retry

theorem mem_remember_batchTokens (s : BatchState) (entry : Entry) (k : Bytes) :
    k ∈ (s.remember entry).batchTokens ↔
      k ∈ s.batchTokens ∨ entry.HasToken ∧ batchKey entry = k := by
  unfold BatchState.remember Entry.HasToken
  split_ifs with htoken
  · simp only [mem_cons, htoken, true_and]
    constructor
    · rintro (rfl | hmem)
      · exact .inr rfl
      · exact .inl hmem
    · rintro (hmem | rfl)
      · exact .inr hmem
      · exact .inl rfl
  · simp [htoken]

theorem batchStep_batchTokens (env : EntryEnv) (entry : Entry) (s : BatchState) (k : Bytes) :
    k ∈ (batchStep tbl view now db env entry s).2.batchTokens ↔
      k ∈ s.batchTokens ∨
        Remembered tbl view env entry
          (batchStep tbl view now db env entry s).1 ∧ batchKey entry = k := by
  generalize hx : batchStep tbl view now db env entry s = x
  unfold Remembered
  cases batchStep_result hx with
  | invalid st hentry => simp [hentry]
  | batchRetry | seen => simp
  | seenError _ hentry | stageError _ hentry | staged _ hentry =>
    simp [hentry, mem_remember_batchTokens]

/-- What the loop decides about an entry. -/
inductive Decision (tbl : Table) (view : Option ViewPolicy) (db : Store) (env : EntryEnv)
    (entry : Entry) (collides : Prop) :
    EntryOutcome → Prop
  | failed
      (st : Status)
      (h : validateEntry tbl view env entry = none → entry.HasToken → ¬ collides) :
      Decision tbl view db env entry collides (.failed st)
  | retry
      (hentry : validateEntry tbl view env entry = none)
      (htoken : entry.HasToken)
      (h : collides ∨ entry.Live db env) :
      Decision tbl view db env entry collides .retry
  | staged
      (hentry : validateEntry tbl view env entry = none)
      (hcollides : entry.HasToken → ¬ collides)
      (hlive : entry.HasToken → ¬ entry.Live db env) :
      Decision tbl view db env entry collides .staged

theorem live_of_idempotencySeen {env : EntryEnv} {entry : Entry}
    (h : idempotencySeen db entry.rowKey entry.idempotency env = .ok true) :
    entry.HasToken ∧ entry.Live db env := by
  unfold idempotencySeen at h
  split_ifs at h with htoken
  · cases h
  cases hseen : env.seenError with
  | some st => simp [hseen] at h
  | none =>
    cases hexpire : db.tokenExpiry entry.rowKey (getToken entry.idempotency) with
    | none => simp [hseen, hexpire] at h
    | some expire =>
      simp only [hseen, hexpire, Except.ok.injEq, decide_eq_true_eq] at h
      exact ⟨Nat.pos_of_ne_zero htoken, expire, hexpire, h⟩

theorem not_live_of_idempotencySeen {env : EntryEnv} {entry : Entry}
    (h : idempotencySeen db entry.rowKey entry.idempotency env = .ok false)
    (htoken : entry.HasToken) :
    ¬ entry.Live db env := by
  rintro ⟨expire, hexpire, hlive⟩
  unfold idempotencySeen at h
  rw [if_neg (Nat.ne_of_gt htoken)] at h
  cases hseen : env.seenError with
  | some st => simp [hseen] at h
  | none =>
    simp only [hseen, hexpire, Except.ok.injEq, decide_eq_false_iff_not] at h
    exact h hlive

theorem batchStep_decision (env : EntryEnv) (entry : Entry) (s : BatchState) :
    Decision tbl view db env entry (batchKey entry ∈ s.batchTokens)
      (batchStep tbl view now db env entry s).1 := by
  generalize hx : batchStep tbl view now db env entry s = x
  cases batchStep_result hx with
  | invalid st hentry =>
    refine .failed st (fun hvalid => ?_)
    rw [hentry] at hvalid
    cases hvalid
  | batchRetry hentry htoken hmem => exact .retry hentry htoken (.inl hmem)
  | seen hentry hnew hseen =>
    obtain ⟨htoken, hlive⟩ := live_of_idempotencySeen hseen
    exact .retry hentry htoken (.inr hlive)
  | seenError st hentry hnew hseen => exact .failed st (fun _ htoken hmem => hnew ⟨htoken, hmem⟩)
  | stageError st hentry hnew hseen hstage =>
    exact .failed st (fun _ htoken hmem => hnew ⟨htoken, hmem⟩)
  | staged c hentry hnew hseen hstage =>
    exact .staged hentry (fun htoken hmem => hnew ⟨htoken, hmem⟩)
      (not_live_of_idempotencySeen hseen)

/-- An earlier entry remembered the key of entry `j`. -/
def Collides (tbl : Table) (view : Option ViewPolicy) (env : Nat → EntryEnv) (entries : List Entry)
    (outcomes : List EntryOutcome) (j : Nat) (entry : Entry) : Prop :=
  ∃ i entry' outcome, i < j ∧ entries[i]? = some entry' ∧
    outcomes[i]? = some outcome ∧
    Remembered tbl view (env i) entry' outcome ∧ batchKey entry' = batchKey entry

variable (tbl view now db env) in
/-- The state in which the loop meets an entry: the remembered keys are those of the start
and those of the earlier entries. -/
theorem batchLoop_meets (i : Nat) (entries : List Entry) (s : BatchState) {j : Nat} {entry : Entry}
    (hj : entries[j]? = some entry) :
    ∃ s',
      (batchLoop tbl view now db env i entries s).1[j]? =
        some (batchStep tbl view now db (env (i + j)) entry s').1 ∧
      (batchKey entry ∈ s'.batchTokens ↔ batchKey entry ∈ s.batchTokens ∨
        Collides tbl view (fun n => env (i + n)) entries
          (batchLoop tbl view now db env i entries s).1 j entry) := by
  induction entries generalizing i s j with
  | nil => cases hj
  | cons first entries ih =>
    cases j with
    | zero =>
      cases hj
      exact ⟨s, rfl, by simp [Collides]⟩
    | succ j =>
      obtain ⟨s', hs', htokens⟩ := ih (i + 1) (batchStep tbl view now db (env i) first s).2 hj
      have hindex : ∀ n, env (i + (n + 1)) = env (i + 1 + n) :=
        fun n => congrArg env (by omega)
      refine ⟨s', by rw [hindex]; exact hs', ?_⟩
      rw [htokens, batchStep_batchTokens, or_assoc]
      unfold Collides
      conv_rhs => rw [← Nat.or_exists_add_one]
      simp [batchLoop, hindex]

end Loop

section Rows

variable {tbl : Table} {view : Option ViewPolicy} {now : Int} {db : Store} {env : Nat → EntryEnv}

/-- The rows that staged commits stand for. -/
structure StagedRows (rows : SqlRows) (staged : GoMap RowCommit) (rows' : SqlRows) : Prop where
  rows_eq : ∀ key : Bytes, rows'[key]? =
    (staged[key]?.map (fun c => persistedRow c.after)).getD rows[key]?
  commit : ∀ (key : Bytes) (c : RowCommit), staged[key]? = some c →
    c.key = key ∧ c.after.key = key ∧ c.after.Normal

variable (i : Nat) {rows : SqlRows} {key : Bytes} {rows' : SqlRows} {staged : GoMap RowCommit}
variable {s : BatchState}

/-- A normal row is what is loaded after it has been saved. -/
theorem storedRow_of_normal {r : Row} (hnormal : r.Normal) (hkey : r.key = key)
    (h : rows[key]? = persistedRow r) :
    storedRow rows key = r := by
  unfold storedRow
  rw [h]
  unfold persistedRow
  split_ifs with hempty
  · obtain ⟨k, fams⟩ := r
    rw [hnormal.isEmpty_iff_families] at hempty
    simp only at hempty hkey
    rw [hempty, hkey]
    rfl
  · rfl

theorem stageBase_total {rows : SqlRows} {staged : GoMap RowCommit} (key : Bytes) {env : EntryEnv}
    (hload : env.loadError = none) :
    ∃ base before, stageBase rows env staged key = .ok (base, before) := by
  unfold stageBase SqlRows.load
  rw [hload]
  cases staged[key]? with
  | none | some => exact ⟨_, _, rfl⟩

/-- A staging starts from the row that the staged commits stand for. -/
theorem StagedRows.base (h : StagedRows rows staged rows') {env : EntryEnv}
    {base before : Option Row} (hbase : stageBase rows env staged key = .ok (base, before)) :
    base.getD (newRow key) = storedRow rows' key := by
  have hrow := h.rows_eq key
  rcases stageBase_eq_ok hbase with ⟨prev, hprev, heq⟩ | ⟨hprev, heq⟩
  · obtain ⟨_, hkey, hnormal⟩ := h.commit key prev hprev
    rw [hprev] at hrow
    rw [heq, storedRow_of_normal hnormal hkey hrow]
  · rw [hprev] at hrow
    rw [heq, storedRow, storedRow, hrow]
    rfl

theorem stagedRows_empty (rows : SqlRows) :
    StagedRows rows ∅ rows where
  rows_eq key := by simp
  commit key c hc := by simp at hc

/-- Staging an entry applies it to the rows that the staged commits stand for. -/
theorem StagedRows.stage (hkeys : ∀ (key : Bytes) (r : Row), db.rows[key]? = some r → r.key = key)
    (h : StagedRows db.rows staged rows') {env : EntryEnv} {entry : Entry} {c : RowCommit}
    (hstage : Bttest.stage tbl db.rows env staged entry.rowKey
      (mutateWith tbl now entry.mutations) = .ok (c, ())) :
    ∃ rows'',
      applyEntry tbl now env entry rows' = .ok rows'' ∧
      StagedRows db.rows (staged.insert entry.rowKey c) rows'' := by
  obtain ⟨base, before, _, _, hbase, hmutate, hc⟩ := stage_eq_ok hstage
  obtain ⟨⟨candidate, changes⟩, happly, heq⟩ := exceptMap_eq_ok hmutate
  cases heq
  have hstored := h.base hbase
  have hkey : (base.getD (newRow entry.rowKey)).key = entry.rowKey := by
    rw [hstored]
    unfold storedRow
    cases hr : rows'[entry.rowKey]? with
    | none => rfl
    | some r =>
      rw [h.rows_eq entry.rowKey] at hr
      cases hprev : staged[entry.rowKey]? with
      | some prev =>
        simp only [hprev, Option.map_some, Option.getD_some, persistedRow_eq_some] at hr
        rw [Option.getD_some, hr.2]
        exact (h.commit entry.rowKey prev hprev).2.1
      | none =>
        simp only [hprev, Option.map_none, Option.getD_none] at hr
        exact hkeys entry.rowKey r hr
  have hafter : c.after =
      ((dropUnknownFamilies tbl.families candidate).gc tbl.gcRules env.gcMicros).normalize := by
    rw [hc]
    rfl
  have hafterKey : c.after.key = entry.rowKey := by
    rw [hafter]
    exact (gcWithChanges_key).trans ((applyMutations_key happly).trans hkey)
  refine ⟨rows'.save c.after, ?_, ?_, ?_⟩
  · unfold applyEntry
    rw [← hstored, happly, hafter]
    rfl
  · intro key
    rw [save_getElem?, hafterKey, getElem?_insert_eq]
    by_cases hk : entry.rowKey = key
    · simp [hk]
    · rw [if_neg (Ne.symm hk), if_neg hk, h.rows_eq]
  · refine forall_insert ⟨by rw [hc]; rfl, hafterKey, ?_⟩ h.commit
    rw [hafter]
    exact normalize_normal _

/-- The staged commits stand for the rows after the staged entries. -/
theorem batchLoop_rows (hkeys : ∀ (key : Bytes) (r : Row), db.rows[key]? = some r → r.key = key)
    (entries : List Entry) (h : StagedRows db.rows s.staged rows) :
    ∃ rows',
      applyEntries tbl now env i
        (entries.zip ((batchLoop tbl view now db env i entries s).1.map
          (fun o => decide (o = .staged)))) rows = .ok rows' ∧
      StagedRows db.rows (batchLoop tbl view now db env i entries s).2.staged rows' := by
  induction entries generalizing i s rows with
  | nil => exact ⟨rows, rfl, h⟩
  | cons entry entries ih =>
    unfold batchLoop
    generalize hx : batchStep tbl view now db (env i) entry s = x
    cases batchStep_result hx with
    | invalid | batchRetry | seen => exact ih (i + 1) h
    | seenError | stageError => exact ih (i + 1) (by rwa [remember_staged])
    | staged c _ _ _ hstage =>
      obtain ⟨rows₁, happly, hstaged⟩ := h.stage hkeys hstage
      obtain ⟨rows', hrest, hstaged'⟩ := ih (i + 1)
        (show StagedRows db.rows ((s.remember entry).put entry.rowKey c).staged rows₁ by
          rwa [put_staged, remember_staged])
      refine ⟨rows', ?_, hstaged'⟩
      simp only [map_cons, zip_cons_cons, decide_true, applyEntries, happly]
      exact hrest

/-- A row that is staged stays staged. -/
theorem batchStep_staged_isSome {env : EntryEnv} {entry : Entry}
    (h : s.staged[key]?.isSome = true ∨
      key = entry.rowKey ∧ (batchStep tbl view now db env entry s).1 = .staged) :
    (batchStep tbl view now db env entry s).2.staged[key]?.isSome = true := by
  generalize hx : batchStep tbl view now db env entry s = x at h
  cases batchStep_result hx with
  | invalid | batchRetry | seen | seenError | stageError => simpa using h
  | staged c _ _ _ _ =>
    rw [put_staged, remember_staged, Std.ExtTreeMap.getElem?_insert]
    simp only [Std.compare_eq_iff_eq]
    rcases h with h | ⟨rfl, _⟩
    · split_ifs
      · rfl
      · exact h
    · simp

theorem batchLoop_staged_isSome (entries : List Entry)
    (h : s.staged[key]?.isSome = true ∨
      ∃ (j : Nat) (entry : Entry), entries[j]? = some entry ∧
        key = entry.rowKey ∧
        (batchLoop tbl view now db env i entries s).1[j]? = some EntryOutcome.staged) :
    (batchLoop tbl view now db env i entries s).2.staged[key]?.isSome = true := by
  induction entries generalizing i s with
  | nil => simpa [batchLoop] using h
  | cons entry entries ih =>
    refine ih (i + 1) ?_
    rcases h with h | ⟨j, entry', hj, hkey, hout⟩
    · exact .inl (batchStep_staged_isSome (.inl h))
    cases j with
    | zero =>
      cases hj
      exact .inl (batchStep_staged_isSome (.inr ⟨hkey, Option.some.inj hout⟩))
    | succ j => exact .inr ⟨j, entry', hj, hkey, hout⟩

/-- The committed rows are those that the staged commits stand for. -/
theorem StagedRows.persistWith (hordered : s.Ordered) (h : StagedRows db.rows s.staged rows')
    {tx : TxEnv} {db' : Store} {extra : Store → Store} (hextra : ∀ db, (extra db).rows = db.rows)
    (hpers : Bttest.persistWith tbl tx db s.final extra = .ok db') :
    db'.rows = rows' := by
  have hkey : ∀ (key : Bytes) (c : RowCommit), s.staged[key]? = some c →
      c.key = key :=
    fun key c hc => (h.commit key c hc).1
  refine Std.ExtTreeMap.ext_getElem? (fun key => ?_)
  rw [persistWith_rows hextra hpers,
    foldl_save_getElem? RowCommit.key RowCommit.after ?_ (final_pairwise hordered hkey),
    find?_eq_getElem? hkey (fun _ => mem_final hordered), h.rows_eq]
  · cases s.staged[key]? <;> rfl
  intro c hc
  obtain ⟨key, hc⟩ := (mem_final hordered).mp hc
  obtain ⟨hckey, hafter, _⟩ := h.commit key c hc
  rw [hckey, hafter]

theorem applyEntries_unmarked (entries : List Entry) (outcomes : List EntryOutcome)
    (rows : SqlRows) :
    applyEntries tbl now env i (entries.zip (outcomes.map (fun _ => false))) rows = .ok rows := by
  induction entries generalizing i outcomes with
  | nil => rfl
  | cons entry entries ih =>
    cases outcomes with
    | nil => rfl
    | cons o outcomes => exact ih (i + 1) outcomes

end Rows

section Tokens

theorem recordIdempotency_tokenExpiry {db : Store} {entry : Entry} {nowMicros : Int}
    {key token : Bytes} (htoken : 0 < token.length) :
    (recordIdempotency db entry.rowKey entry.idempotency nowMicros).tokenExpiry
      key token =
        if entry.rowKey = key ∧ getToken entry.idempotency = token then
          some (nowMicros + idempotencyWindowMicros)
        else
          db.tokenExpiry key token := by
  unfold recordIdempotency
  split_ifs with hempty hpair hpair
  · rw [hpair.2] at hempty
    omega
  · rfl
  · rw [putToken_tokenExpiry, if_pos ⟨hpair.1.symm, hpair.2.symm⟩]
  · rw [putToken_tokenExpiry, if_neg]
    exact fun heq => hpair ⟨heq.1.symm, heq.2.symm⟩

theorem recordTokens_tokenExpiry_of_ne (tx : TxEnv) (i : Nat) (l : List (Entry × EntryOutcome))
    (db : Store) {key token : Bytes} (htoken : 0 < token.length)
    (hne : ∀ entry, (entry, EntryOutcome.staged) ∈ l →
      ¬ (entry.rowKey = key ∧ getToken entry.idempotency = token)) :
    (recordTokens tx i l db).tokenExpiry key token =
      db.tokenExpiry key token := by
  induction l generalizing i db with
  | nil => rfl
  | cons x l ih =>
    obtain ⟨entry, outcome⟩ := x
    unfold recordTokens
    rw [ih _ _ (fun e he => hne e (mem_cons_of_mem _ he))]
    split_ifs with hstaged
    · subst hstaged
      rw [recordIdempotency_tokenExpiry htoken,
        if_neg (hne entry (mem_cons_self ..))]
    · rfl

/-- The token of a staged entry is recorded at its own time, when no later entry
records the same row key and token. -/
theorem recordTokens_tokenExpiry (tx : TxEnv) (i : Nat) (l : List (Entry × EntryOutcome))
    (db : Store) {j : Nat} {entry : Entry} (hj : l[j]? = some (entry, .staged))
    (htoken : entry.HasToken)
    (hlater : ∀ j' entry', j < j' → l[j']? = some (entry', .staged) → ¬ entry'.SamePair entry) :
    (recordTokens tx i l db).tokenExpiry entry.rowKey
      (getToken entry.idempotency) = some (tx.recordMicros (i + j) + idempotencyWindowMicros) := by
  induction l generalizing i j db with
  | nil => simp at hj
  | cons x l ih =>
    cases j with
    | zero =>
      cases hj
      unfold recordTokens
      rw [recordTokens_tokenExpiry_of_ne _ _ _ _ htoken, if_pos rfl,
        recordIdempotency_tokenExpiry htoken, if_pos ⟨rfl, rfl⟩,
        Nat.add_zero]
      intro entry' hmem hpair
      obtain ⟨j', hj'⟩ := mem_iff_getElem?.mp hmem
      exact hlater (j' + 1) entry' (by omega) hj' hpair
    | succ j =>
      obtain ⟨entry', outcome⟩ := x
      unfold recordTokens
      have hindex : i + (j + 1) = i + 1 + j := by omega
      rw [hindex]
      refine ih (i + 1) _ hj ?_
      intro j' e' hlt hj' hpair
      exact hlater (j' + 1) e' (by omega) hj' hpair

end Tokens

section Answers

variable {tbl : Table} {view : Option ViewPolicy} {nowNanos : Nat} {env : Nat → EntryEnv}
variable {tx : TxEnv} {entries : List Entry} {db db' : Store} {result : BatchResult}

variable {j : Nat} {entry : Entry} {outcomes : List EntryOutcome} {failure : Option Status}
variable {i : Nat}

theorem runBatch_decision {tbl : Table} {view : Option ViewPolicy} {nowNanos : Nat}
    {env : Nat → EntryEnv} {db : Store} (hj : entries[j]? = some entry) :
    ∃ outcome,
      (runBatch tbl view nowNanos env entries db).1[j]? = some outcome ∧
      Decision tbl view db (env j) entry
        (Collides tbl view env entries
          (runBatch tbl view nowNanos env entries db).1 j entry) outcome := by
  obtain ⟨s, hs, htokens⟩ := batchLoop_meets tbl view (newTimestamp nowNanos) db env 0 entries
    ⟨∅, [], []⟩ hj
  simp only [Nat.zero_add, not_mem_nil, false_or] at hs htokens
  unfold runBatch
  refine ⟨_, hs, ?_⟩
  rw [← htokens]
  exact batchStep_decision (env j) entry s

/-- How the answer of a batch comes from the outcomes and the failure of the
transaction. -/
structure AnswerOf (outcomes : List EntryOutcome) (failure : Option Status)
    (result : BatchResult) : Prop where
  statuses_eq : result.statuses = outcomes.map (entryStatus failure)
  applied_eq : result.applied = outcomes.map (fun o => decide (o = .staged ∧ failure = none))

theorem AnswerOf.applied_iff (h : AnswerOf outcomes failure result) :
    result.applied[j]? = some true ↔ outcomes[j]? = some .staged ∧ failure = none := by
  rw [h.applied_eq, getElem?_map]
  cases outcomes[j]? <;> simp

theorem AnswerOf.ok_iff (h : AnswerOf outcomes failure result) :
    result.statuses[j]? = some none ↔
      outcomes[j]? = some .retry ∨ result.applied[j]? = some true := by
  rw [h.applied_iff, h.statuses_eq, getElem?_map]
  cases outcomes[j]? with
  | none => simp
  | some o => cases o <;> simp [entryStatus]

theorem AnswerOf.remembersToken_iff (h : AnswerOf outcomes failure result) {outcome : EntryOutcome}
    (hout : outcomes[i]? = some outcome) :
    RemembersToken tbl view env result i entry ↔ Remembered tbl view (env i) entry outcome := by
  unfold RemembersToken Remembered
  rw [h.ok_iff, h.applied_iff, hout]
  cases outcome <;> simp

theorem persistWith_ne_error {commits : List RowCommit} {extra : Store → Store} {st : Status}
    (hcommit : tx.failure = none) :
    persistWith tbl tx db commits extra ≠ .error st := by
  intro h
  unfold persistWith at h
  rw [hcommit] at h
  split_ifs at h

/-- A staged entry leaves a commit. -/
theorem runBatch_final_ne_nil
    (h : EntryOutcome.staged ∈ (runBatch tbl view nowNanos env entries db).1) :
    (runBatch tbl view nowNanos env entries db).2.final ≠ [] := by
  obtain ⟨j, hj⟩ := mem_iff_getElem?.mp h
  have hlt : j < entries.length := by
    have hlt := (List.getElem?_eq_some_iff.mp hj).1
    rwa [show (runBatch tbl view nowNanos env entries db).1.length =
      entries.length from batchLoop_length 0 entries ⟨∅, [], []⟩] at hlt
  have hsome : (runBatch tbl view nowNanos env entries db).2.staged[
      entries[j].rowKey]?.isSome = true :=
    batchLoop_staged_isSome 0 entries (.inr ⟨j, entries[j],
      getElem?_eq_getElem hlt, rfl, hj⟩)
  obtain ⟨c, hc⟩ := Option.isSome_iff_exists.mp hsome
  have hordered : (runBatch tbl view nowNanos env entries db).2.Ordered :=
    batchLoop_ordered 0 ordered_initial
  exact ne_nil_of_mem ((mem_final hordered).mpr ⟨_, hc⟩)

/-- The answer, the rows and the tokens that a batch leaves. -/
theorem mutateRows_eq_ok (hkeys : ∀ (key : Bytes) (r : Row), db.rows[key]? = some r → r.key = key)
    (h : mutateRows tbl view nowNanos env tx entries db = (.ok result, db')) :
    ∃ failure,
      AnswerOf (runBatch tbl view nowNanos env entries db).1 failure result ∧
      applyEntries tbl (newTimestamp nowNanos) env 0
        (entries.zip result.applied) db.rows = .ok db'.rows ∧
      (failure = none →
        EntryOutcome.staged ∈ (runBatch tbl view nowNanos env entries db).1 →
        ∃ db₀, db' = recordTokens tx 0
          (entries.zip (runBatch tbl view nowNanos env entries db).1) db₀) := by
  obtain ⟨rows', happly, hstaged⟩ : ∃ rows',
      applyEntries tbl (newTimestamp nowNanos) env 0
        (entries.zip ((runBatch tbl view nowNanos env entries db).1.map
          (fun o => decide (o = .staged)))) db.rows = .ok rows' ∧
      StagedRows db.rows (runBatch tbl view nowNanos env entries db).2.staged
        rows' :=
    batchLoop_rows 0 hkeys entries (stagedRows_empty db.rows)
  have hordered : (runBatch tbl view nowNanos env entries db).2.Ordered :=
    batchLoop_ordered 0 ordered_initial
  have hfinal : EntryOutcome.staged ∈
      (runBatch tbl view nowNanos env entries db).1 →
      (runBatch tbl view nowNanos env entries db).2.final ≠ [] :=
    runBatch_final_ne_nil
  unfold mutateRows failed at h
  simp only at h
  split_ifs at h
  · cases h
  · cases h
  rw [show batchLoop tbl view (newTimestamp nowNanos) db env 0 entries
    ⟨∅, [], []⟩ = runBatch tbl view nowNanos env entries db from rfl] at h
  generalize runBatch tbl view nowNanos env entries db = x at *
  split at h
  · obtain ⟨hres, rfl⟩ := Prod.mk.inj h
    cases hres
    rename_i st hpers
    refine ⟨some st, ⟨rfl, by simp⟩, ?_, by simp⟩
    exact applyEntries_unmarked 0 entries _ _
  rename_i db₁ hpers
  obtain ⟨hres, rfl⟩ := Prod.mk.inj h
  cases hres
  refine ⟨none, ⟨rfl, by simp⟩, ?_, ?_⟩
  · rw [happly, hstaged.persistWith hordered (recordTokens_rows 0 _) hpers]
  · rintro _ hmem
    exact ⟨_, (persistWith_eq_ok hpers).resolve_left (fun h => hfinal hmem h.1)⟩

variable {entry' : Entry}

theorem batchKey_of_samePair (h : entry.SamePair entry') :
    batchKey entry = batchKey entry' := by
  unfold batchKey
  rw [h.1, h.2]

/-- An applied entry was staged: it was valid, its key was not remembered and its
token was not live. -/
theorem AnswerOf.staged
    (hanswer : AnswerOf (runBatch tbl view nowNanos env entries db).1 failure result)
    (hj : entries[j]? = some entry) (happlied : result.applied[j]? = some true) :
    (runBatch tbl view nowNanos env entries db).1[j]? = some .staged ∧
    validateEntry tbl view (env j) entry = none ∧
    (entry.HasToken →
      ¬ Collides tbl view env entries (runBatch tbl view nowNanos env entries db).1 j entry ∧
      ¬ entry.Live db (env j)) := by
  obtain ⟨outcome, hout, hdecision⟩ := runBatch_decision hj
  obtain ⟨hstaged, _⟩ := hanswer.applied_iff.mp happlied
  rw [hout] at hstaged
  cases hstaged
  cases hdecision with
  | staged hentry hcollides hlive =>
    exact ⟨hout, hentry, fun htoken => ⟨hcollides htoken, hlive htoken⟩⟩

theorem AnswerOf.collides_of_applied
    (hanswer : AnswerOf (runBatch tbl view nowNanos env entries db).1 failure result) (hlt : i < j)
    (hi : entries[i]? = some entry') (happlied : result.applied[i]? = some true)
    (htoken : entry'.HasToken) (hkey : batchKey entry' = batchKey entry) :
    Collides tbl view env entries (runBatch tbl view nowNanos env entries db).1 j entry := by
  obtain ⟨hout, hentry, _⟩ := hanswer.staged hi happlied
  exact ⟨i, entry', .staged, hlt, hi, hout, ⟨hentry, htoken, by simp⟩, hkey⟩

theorem Entry.SamePair.hasToken (h : entry.SamePair entry') (htoken : entry'.HasToken) :
    entry.HasToken := by
  unfold Entry.HasToken
  rw [h.2]
  exact htoken

theorem AnswerOf.not_retryOfApplied
    (hanswer : AnswerOf (runBatch tbl view nowNanos env entries db).1 failure result)
    (hj : entries[j]? = some entry) (htoken : entry.HasToken)
    (happlied : result.applied[j]? = some true) :
    ¬ RetryOfApplied env entries db result j entry := by
  obtain ⟨_, _, hnew⟩ := hanswer.staged hj happlied
  rintro ⟨_, hlive | ⟨i, entry', hlt, hi, hpair, hi'⟩⟩
  · exact (hnew htoken).2 hlive
  · exact (hnew htoken).1 (hanswer.collides_of_applied hlt hi hi'
      (hpair.hasToken htoken) (batchKey_of_samePair hpair))

theorem not_collides_of_remembered {outcome : EntryOutcome} (hi : entries[i]? = some entry)
    (hout : (runBatch tbl view nowNanos env entries db).1[i]? = some outcome)
    (h : Remembered tbl view (env i) entry outcome) :
    ¬ Collides tbl view env entries (runBatch tbl view nowNanos env entries db).1 i entry := by
  obtain ⟨outcome', hout', hdecision⟩ := runBatch_decision hi
  rw [hout] at hout'
  cases hout'
  obtain ⟨hentry, htoken, hretry⟩ := h
  cases hdecision with
  | failed st hnot => exact hnot hentry htoken
  | retry _ _ _ => exact absurd rfl hretry
  | staged _ hnot _ => exact hnot htoken

/-- The entries that are answered OK are applied, or retries of applied ones,
exactly when the remembered entries are applied. -/
theorem AnswerOf.ok_iff_remembersApplied
    (hanswer : AnswerOf (runBatch tbl view nowNanos env entries db).1 failure result) :
    (∀ j entry, entries[j]? = some entry →
      result.statuses[j]? = some none →
      result.applied[j]? = some true ∨ RetryOfApplied env entries db result j entry) ↔
    RemembersApplied tbl view env entries db result := by
  constructor
  · intro hok i j entry entry' hlt hi hj hremembers hvalid htoken hkey
    obtain ⟨outcome, hout, _⟩ := runBatch_decision hi
    have hremembered := (hanswer.remembersToken_iff hout).mp hremembers
    have hcollides : Collides tbl view env entries
        (runBatch tbl view nowNanos env entries db).1 j entry' :=
      ⟨i, entry, outcome, hlt, hi, hout, hremembered, hkey⟩
    -- so the later entry is answered as a retry
    obtain ⟨outcome', hout', hdecision⟩ := runBatch_decision hj
    cases hdecision with
    | failed st hnot => exact absurd hcollides (hnot hvalid htoken)
    | staged _ hnot _ => exact absurd hcollides (hnot htoken)
    | retry _ _ _ =>
      have hstatus := hok j entry' hj (hanswer.ok_iff.mpr (.inl hout'))
      rcases hstatus with happlied | ⟨_, hlive | hearlier⟩
      · rw [hanswer.applied_iff, hout'] at happlied
        cases happlied.1
      · exact .inr hlive
      obtain ⟨i', entry'', hlt', hi', hpair, happlied⟩ := hearlier
      have htoken' := hpair.hasToken htoken
      have hkey' := batchKey_of_samePair hpair
      -- only one entry remembered this key
      rcases Nat.lt_trichotomy i i' with hcmp | hcmp | hcmp
      · exact absurd ⟨i, entry, outcome, hcmp, hi, hout, hremembered,
          hkey.trans hkey'.symm⟩
          ((hanswer.staged hi' happlied).2.2 htoken').1
      · subst hcmp
        rw [hi] at hi'
        cases hi'
        exact .inl ⟨hpair, happlied⟩
      · exact absurd (hanswer.collides_of_applied hcmp hi' happlied htoken'
          (hkey'.trans hkey.symm))
          (not_collides_of_remembered hi hout hremembered)
  · intro hremembers j entry hj hstatus
    rcases hanswer.ok_iff.mp hstatus with hretry | happlied
    · right
      obtain ⟨outcome, hout, hdecision⟩ := runBatch_decision hj
      rw [hretry] at hout
      cases hout
      cases hdecision with
      | retry hentry htoken hwhy =>
        refine ⟨htoken, ?_⟩
        rcases hwhy with hcollides | hlive
        · obtain ⟨i, entry', outcome', hlt, hi, hout', hremembered, hkey⟩ := hcollides
          rcases hremembers i j entry' entry hlt hi hj
            ((hanswer.remembersToken_iff hout').mpr hremembered) hentry htoken
            hkey with ⟨hpair, happlied⟩ | hlive
          · exact .inr ⟨i, entry', hlt, hi, hpair, happlied⟩
          · exact .inl hlive
        · exact .inl hlive
    · exact .inl happlied

end Answers

/-- An entry that writes one cell, with a token. -/
def tokenEntry (key token : Bytes) : Entry :=
  ⟨key, [.plain (.setCell [102] [113] 1000 [1])], some ⟨token, none⟩⟩

/-- A batch on an empty store. -/
def smallBatch (entries : List Entry) : Except Status BatchResult × Store :=
  mutateRows (tableWithFamily none ⟨false⟩ false) none 0 (fun _ => ⟨0, 0, none, none, 0⟩)
    ⟨0, fun _ => 0, none⟩ entries ⟨∅, ∅, []⟩

end Bttest
end LittleBigtable
