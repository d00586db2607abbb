import LittleBigtable.Bttest.BatchStatus
import LittleBigtable.Bttest.TableCalls

/-!
# Idempotency tokens across the lifecycle of tables

Tokens are stored under the name of a table, and neither the deletion nor the
creation of a table removes them.  A write with a token that a write to an earlier
table of the same name recorded is answered OK without being applied.

The history below keeps, beside the server, which token writes were answered OK, which
were applied to which table object, and whose write recorded each stored token.  When
every stored token that a write meets was recorded by a write to the same table
object, and every token that a batch remembers was applied, then every token write
that is answered OK was applied to the table it was addressed to.
-/

namespace LittleBigtable
namespace Bttest

open Transaction List

section History

/-- A write with a token, and the table object that it is addressed to. -/
structure TokenWrite where
  incarnation : Nat
  rowKey : Bytes
  token : Bytes
deriving DecidableEq

def Entry.write (entry : Entry) (t : TableObject) : TokenWrite :=
  ⟨t.incarnation, entry.rowKey, getToken entry.idempotency⟩

/-- An entry of a write call with its outcome: answered OK, and applied. -/
structure EntryAnswer where
  entry : Entry
  ok : Bool
  applied : Bool

/-- The server with the token writes so far.  `recorder` tells by table name, row key
and token which table object the write that recorded the token was addressed to. -/
structure TokenHistory where
  server : Server
  answered : List TokenWrite
  applied : List TokenWrite
  recorder : Bytes → Bytes → Bytes → Option Nat

def newTokenHistory (strictAdmin : Bool) (instances : List Bytes) : TokenHistory :=
  ⟨newServerState strictAdmin instances, [], [], fun _ _ _ => none⟩

/-- The token writes among the answers of a call for which `p` holds. -/
def tokenWrites (t : TableObject) (p : EntryAnswer → Bool)
    (answers : List EntryAnswer) : List TokenWrite :=
  (answers.filter (fun a =>
    p a && decide (0 < (getToken a.entry.idempotency).length))).map (fun a =>
      a.entry.write t)

/-- The history after a write call on a table. -/
def TokenHistory.record (h : TokenHistory) (t : TableObject) (answers : List EntryAnswer)
    (store : Store) : TokenHistory where
  server := { h.server with db := h.server.db.putStore t store }
  answered := h.answered ++ tokenWrites t EntryAnswer.ok answers
  applied := h.applied ++ tokenWrites t EntryAnswer.applied answers
  recorder := fun name key token =>
    if name = t.name ∧ ⟨t.incarnation, key, token⟩ ∈ tokenWrites t EntryAnswer.applied answers then
      some t.incarnation
    else
      h.recorder name key token

/-- The calls of a history. -/
inductive TokenCall
  | createTable (protoSize : GcRule → Nat) (req : CreateTableRequest)
  | deleteTable
      (name : Bytes) (reading : Option Bytes) (deleteTime : Int) (fault : Option (Fault TxPoint))
  | undeleteTable (name : Bytes) (now : Int) (fault : Option (Fault TxPoint))
  | mutateRow
      (name : Bytes) (view : Option ViewPolicy) (nowNanos : Nat) (env : EntryEnv) (tx : TxEnv)
      (req : Entry)
  | mutateRows
      (name : Bytes) (view : Option ViewPolicy) (nowNanos : Nat) (env : Nat → EntryEnv) (tx : TxEnv)
      (entries : List Entry)

/-- The answer to `MutateRow`.  The mutations are applied unless the token was seen. -/
def mutateRowAnswers (tbl : Table) (view : Option ViewPolicy) (nowNanos : Nat) (env : EntryEnv)
    (tx : TxEnv) (req : Entry) (db : Store) : List EntryAnswer :=
  match (mutateRow tbl view nowNanos env tx req db).1 with
  | .error _ => [⟨req, false, false⟩]
  | .ok _ =>
    match idempotencySeen db req.rowKey req.idempotency env with
    | .ok false => [⟨req, true, true⟩]
    | _ => [⟨req, true, false⟩]

/-- The entries of a batch with the answer. -/
def batchAnswers (entries : List Entry) (result : BatchResult) : List EntryAnswer :=
  (entries.zip (result.statuses.zip result.applied)).map (fun x =>
    ⟨x.1, x.2.1.isNone, x.2.2⟩)

/-- The answers to the entries of `MutateRows`. -/
def mutateRowsAnswers (tbl : Table) (view : Option ViewPolicy) (nowNanos : Nat)
    (env : Nat → EntryEnv) (tx : TxEnv) (entries : List Entry) (db : Store) : List EntryAnswer :=
  match (mutateRows tbl view nowNanos env tx entries db).1 with
  | .error _ => entries.map (fun entry => ⟨entry, false, false⟩)
  | .ok result => batchAnswers entries result

/-- The history after a call.  A write to a table that does not exist fails. -/
def TokenHistory.next (h : TokenHistory) (call : TokenCall) : Option TokenHistory :=
  some <|
    match call with
    | .createTable protoSize req => { h with server := (h.server.createTable protoSize req).2 }
    | .deleteTable name reading deleteTime fault =>
      { h with server := (h.server.deleteTable name reading deleteTime fault).2 }
    | .undeleteTable name now fault =>
      { h with server := (h.server.undeleteTable name now fault).2 }
    | .mutateRow name view nowNanos env tx req =>
      match h.server.tables[name]? with
      | none => h
      | some t =>
        let db := h.server.db.store t
        h.record t (mutateRowAnswers t.schema view nowNanos env tx req db)
          (mutateRow t.schema view nowNanos env tx req db).2
    | .mutateRows name view nowNanos env tx entries =>
      match h.server.tables[name]? with
      | none => h
      | some t =>
        let db := h.server.db.store t
        h.record t (mutateRowsAnswers t.schema view nowNanos env tx entries db)
          (mutateRows t.schema view nowNanos env tx entries db).2

end History

section Condition

/-- If the token of the entry is stored and its window is open, then a write to the
same table object recorded it. -/
def TokenHistory.OwnToken (h : TokenHistory) (t : TableObject) (env : EntryEnv)
    (entry : Entry) : Prop :=
  entry.HasToken → entry.Live (h.server.db.store t) env →
    ∀ n, h.recorder t.name entry.rowKey (getToken entry.idempotency) = some n → n = t.incarnation

/-- Writes meet only tokens that writes to the same table object recorded, and batches
remember only tokens of entries that they apply. -/
def TokenHistory.OwnTokens (h : TokenHistory) (call : TokenCall) : Prop :=
  match call with
  | .mutateRow name _ _ env _ req => ∀ t, h.server.tables[name]? = some t → h.OwnToken t env req
  | .mutateRows name view nowNanos env tx entries =>
    ∀ t, h.server.tables[name]? = some t →
      (∀ j entry, entries[j]? = some entry → h.OwnToken t (env j) entry) ∧
      ∀ result,
        (mutateRows t.schema view nowNanos env tx entries (h.server.db.store t)).1 = .ok result →
        RemembersApplied t.schema view env entries (h.server.db.store t) result
  | _ => True

end Condition

section Tokens

variable {s s' : Server} {name : Bytes}

/-- The expiry time of a token that is stored under a table name. -/
def Database.tokenExpiry (db : Database) (name key token : Bytes) : Option Int :=
  (db.tokens name)[key]?.bind (fun m => m[token]?)

theorem store_tokenExpiry (db : Database) (t : TableObject) (key token : Bytes) :
    (db.store t).tokenExpiry key token = db.tokenExpiry t.name key token := by
  rfl

theorem putStore_tokenExpiry (db : Database) (t : TableObject) (store : Store)
    (name key token : Bytes) :
    (db.putStore t store).tokenExpiry name key token =
      if name = t.name then
        store.tokenExpiry key token
      else
        db.tokenExpiry name key token := by
  unfold Database.tokenExpiry Database.putStore Store.tokenExpiry
  by_cases hname : name = t.name
  · subst hname
    simp
  · simp [hname]

theorem moveRows_tokens {db db' : Database} {src dst : StorageKey}
    (h : db.moveRows src dst = .ok db') :
    db'.tokens = db.tokens := by
  unfold Database.moveRows at h
  split_ifs at h with heq hclash
  · cases h
    rfl
  · cases h
    rfl

theorem createTable_tokens (protoSize : GcRule → Nat) (req : CreateTableRequest) (s : Server) :
    (s.createTable protoSize req).2.db.tokens = s.db.tokens := by
  unfold Server.createTable
  split
  · rfl
  simp only
  split
  · rfl
  · rfl

theorem deleteTable_tokens {name : Bytes} {reading : Option Bytes} {deleteTime : Int}
    {fault : Option (Fault TxPoint)} {s : Server} :
    (s.deleteTable name reading deleteTime fault).2.db.tokens = s.db.tokens := by
  cases hcall : s.deleteTable name reading deleteTime fault with
  | mk result s' =>
    cases result with
    | ok u =>
      obtain ⟨t, db₁, _, _, hmove, rfl⟩ := deleteTable_eq_ok hcall
      have htokens := moveRows_tokens hmove
      exact htokens
    | error st =>
      unfold Server.deleteTable at hcall
      split at hcall
      · cases hcall
        rfl
      split at hcall
      · cases hcall
        rfl
      split at hcall
      · cases hcall
        rfl
      · cases hcall

theorem undeleteTable_tokens (name : Bytes) (now : Int) (fault : Option (Fault TxPoint))
    (s : Server) :
    (s.undeleteTable name now fault).2.db.tokens = s.db.tokens := by
  cases hcall : s.undeleteTable name now fault with
  | mk result s' =>
    cases result with
    | ok u =>
      obtain ⟨key, t, db₁, _, _, _, hmove, rfl⟩ := undeleteTable_eq_ok hcall
      have htokens := moveRows_tokens hmove
      exact htokens
    | error st =>
      rcases undeleteTable_eq_error hcall with rfl | ⟨_, key, t, _, rfl⟩
      · rfl
      · rfl

end Tokens

section Sound

variable {h h' : TokenHistory} {t : TableObject}

/-- Every stored token was recorded by an applied write, and every token write that is
answered OK was applied to its table object. -/
structure TokenHistory.Sound (h : TokenHistory) : Prop where
  recorded : ∀ name key token, 0 < token.length →
    h.server.db.tokenExpiry name key token ≠ none →
    ∃ n, h.recorder name key token = some n
  recorder_applied : ∀ name key token n, h.recorder name key token = some n →
    ⟨n, key, token⟩ ∈ h.applied
  answered_applied : ∀ w ∈ h.answered, w ∈ h.applied

theorem sound_newTokenHistory (strictAdmin : Bool) (instances : List Bytes) :
    (newTokenHistory strictAdmin instances).Sound where
  recorded := by
    intro name key token _ hstored
    simp [Database.tokenExpiry, newTokenHistory, newServerState] at hstored
  recorder_applied := by
    intro name key token n hn
    cases hn
  answered_applied := by
    intro w hw
    cases hw

theorem TokenHistory.Sound.of_tokens (hsound : h.Sound) {s' : Server}
    (htokens : s'.db.tokens = h.server.db.tokens) :
    { h with server := s' : TokenHistory }.Sound where
  recorded := by
    intro name key token hpos hstored
    refine hsound.recorded name key token hpos ?_
    unfold Database.tokenExpiry at hstored ⊢
    rwa [← htokens]
  recorder_applied := hsound.recorder_applied
  answered_applied := hsound.answered_applied

variable {answers : List EntryAnswer}

theorem mem_tokenWrites {p : EntryAnswer → Bool} {w : TokenWrite} :
    w ∈ tokenWrites t p answers ↔
      ∃ a ∈ answers, p a = true ∧ a.entry.HasToken ∧ a.entry.write t = w := by
  simp only [tokenWrites, mem_map, mem_filter, Bool.and_eq_true,
    decide_eq_true_eq, Entry.HasToken, and_assoc]

/-- A write call on a table: what it stores is what was there and what it applied, and
what it answers OK is applied by it or was before. -/
theorem TokenHistory.Sound.record (hsound : h.Sound) {store : Store}
    (hstored : ∀ key token, 0 < token.length → store.tokenExpiry key token ≠ none →
      (h.server.db.store t).tokenExpiry key token ≠ none ∨
        ⟨t.incarnation, key, token⟩ ∈ tokenWrites t EntryAnswer.applied answers)
    (hok : ∀ w ∈ tokenWrites t EntryAnswer.ok answers,
      w ∈ tokenWrites t EntryAnswer.applied answers ∨ w ∈ h.applied) :
    (h.record t answers store).Sound where
  recorded := by
    intro name key token hpos hexpiry
    unfold TokenHistory.record at hexpiry ⊢
    simp only [putStore_tokenExpiry] at hexpiry ⊢
    by_cases happlied : name = t.name ∧
        ⟨t.incarnation, key, token⟩ ∈ tokenWrites t EntryAnswer.applied answers
    · exact ⟨t.incarnation, if_pos happlied⟩
    rw [if_neg happlied]
    refine hsound.recorded name key token hpos ?_
    split_ifs at hexpiry with hname
    · subst hname
      rcases hstored key token hpos hexpiry with hbefore | hnow
      · exact hbefore
      · exact absurd ⟨rfl, hnow⟩ happlied
    · exact hexpiry
  recorder_applied := by
    intro name key token n hn
    unfold TokenHistory.record at hn ⊢
    simp only at hn ⊢
    split_ifs at hn with happlied
    · cases hn
      exact mem_append_right _ happlied.2
    · exact mem_append_left _ (hsound.recorder_applied name key token n hn)
  answered_applied := by
    intro w hw
    unfold TokenHistory.record at hw ⊢
    rcases mem_append.mp hw with hbefore | hnow
    · exact mem_append_left _ (hsound.answered_applied w hbefore)
    · rcases hok w hnow with happlied | happlied
      · exact mem_append_right _ happlied
      · exact mem_append_left _ happlied

/-- A stored token whose window is open was applied to the table object, when a write
to this object recorded it. -/
theorem TokenHistory.Sound.live_applied (hsound : h.Sound) {env : EntryEnv} {entry : Entry}
    (hown : h.OwnToken t env entry) (htoken : entry.HasToken)
    (hlive : entry.Live (h.server.db.store t) env) :
    entry.write t ∈ h.applied := by
  obtain ⟨expire, hexpire, _⟩ := id hlive
  obtain ⟨n, hn⟩ := hsound.recorded t.name entry.rowKey (getToken entry.idempotency)
    htoken (by rw [← store_tokenExpiry, hexpire]; simp)
  have happlied := hsound.recorder_applied _ _ _ _ hn
  rw [hown htoken hlive n hn] at happlied
  exact happlied

end Sound

section MutateRow

variable {h : TokenHistory} {t : TableObject} {tbl : Table} {nowNanos : Nat} {env : EntryEnv}
variable {tx : TxEnv} {req : Entry}

/-- What `MutateRow` answers and stores: it fails, it answers a retry without a
change, or it persists the row with the mutations applied and records the token. -/
inductive MutateRowAnswer (tbl : Table) (nowNanos : Nat) (env : EntryEnv) (tx : TxEnv) (req : Entry)
    (db : Store) :
    List EntryAnswer → Store → Prop
  | failed : MutateRowAnswer tbl nowNanos env tx req db [⟨req, false, false⟩] db
  | retry
      (hlive : req.Live db env) :
      MutateRowAnswer tbl nowNanos env tx req db [⟨req, true, false⟩] db
  | applied
      (commit : RowCommit) (db' : Store)
      (hstage : stage tbl db.rows env ∅ req.rowKey
        (mutateWith tbl (newTimestamp nowNanos) req.mutations) = .ok (commit, ()))
      (hpersist : persistWith tbl tx db [commit] (fun db =>
        recordIdempotency db req.rowKey req.idempotency (tx.recordMicros 0)) = .ok db') :
      MutateRowAnswer tbl nowNanos env tx req db [⟨req, true, true⟩] db'

theorem mutateRow_answer {tbl : Table} {view : Option ViewPolicy} {nowNanos : Nat} {env : EntryEnv}
    {tx : TxEnv} {req : Entry} {db : Store} :
    MutateRowAnswer tbl nowNanos env tx req db
      (mutateRowAnswers tbl view nowNanos env tx req db)
      (mutateRow tbl view nowNanos env tx req db).2 := by
  unfold mutateRowAnswers
  generalize hx : mutateRow tbl view nowNanos env tx req db = x
  cases mutateRow_result hx with
  | retry _ hseen =>
    simp only [hseen]
    exact .retry (live_of_idempotencySeen hseen).2
  | written commit db' _ hseen _ hstage hpers =>
    simp only [hseen]
    exact .applied commit db' hstage hpers
  | _ => exact .failed

theorem MutateRowAnswer.sound (hsound : h.Sound) {answers : List EntryAnswer} {store : Store}
    (hanswer : MutateRowAnswer tbl nowNanos env tx req (h.server.db.store t) answers store)
    (hown : h.OwnToken t env req) :
    (h.record t answers store).Sound := by
  cases hanswer with
  | failed =>
    refine hsound.record (fun _ _ _ hstored => .inl hstored) ?_
    intro w hw
    obtain ⟨a, ha, hok, _⟩ := mem_tokenWrites.mp hw
    cases mem_singleton.mp ha
    cases hok
  | retry hlive =>
    refine hsound.record (fun _ _ _ hstored => .inl hstored) ?_
    intro w hw
    obtain ⟨a, ha, _, htoken, rfl⟩ := mem_tokenWrites.mp hw
    cases mem_singleton.mp ha
    exact .inr (hsound.live_applied hown htoken hlive)
  | applied commit db' _ hpers =>
    refine hsound.record ?_ ?_
    · intro key token hpos hstored
      rcases persistWith_eq_ok hpers with ⟨hnil, _⟩ | rfl
      · cases hnil
      rw [recordIdempotency_tokenExpiry hpos] at hstored
      split_ifs at hstored with hpair
      · refine .inr (mem_tokenWrites.mpr ⟨_, mem_singleton_self _, rfl, ?_, ?_⟩)
        · unfold Entry.HasToken
          rw [hpair.2]
          exact hpos
        · unfold Entry.write
          rw [hpair.1, hpair.2]
      · rw [writeCommits_eq] at hstored
        exact .inl hstored
    · intro w hw
      obtain ⟨a, ha, _, htoken, rfl⟩ := mem_tokenWrites.mp hw
      cases mem_singleton.mp ha
      exact .inl (mem_tokenWrites.mpr ⟨_, mem_singleton_self _, rfl, htoken, rfl⟩)

/-- A `MutateRow` with a token that is sent again within the window is answered OK and changes
nothing, whatever has become of the schema. -/
theorem mutateRow_retry {tbl' : Table} {view : Option ViewPolicy} {nowNanos' : Nat}
    {env' : EntryEnv} {tx' : TxEnv} {db db' : Store} (htoken : req.HasToken)
    (hnew : db.tokenExpiry req.rowKey (getToken req.idempotency) = none)
    (hok : mutateRow tbl view nowNanos env tx req db = (.ok (), db'))
    (hcheck : mutateRowCheck view env' req = none) (hread : env'.seenError = none)
    (hwindow : env'.seenMicros < tx.recordMicros 0 + idempotencyWindowMicros) :
    mutateRow tbl' view nowNanos' env' tx' req db' = (.ok (), db') := by
  have hexpire : db'.tokenExpiry req.rowKey (getToken req.idempotency) =
      some (tx.recordMicros 0 + idempotencyWindowMicros) := by
    cases mutateRow_result hok with
    | retry _ hseen =>
      obtain ⟨_, expire, hexpire, _⟩ := live_of_idempotencySeen hseen
      rw [hnew] at hexpire
      cases hexpire
    | written commit _ _ _ _ _ hpers =>
      rcases persistWith_eq_ok hpers with ⟨hnil, _⟩ | rfl
      · cases hnil
      · rw [recordIdempotency_tokenExpiry htoken, if_pos ⟨rfl, rfl⟩]
  have hseen : idempotencySeen db' req.rowKey req.idempotency env' = .ok true := by
    simp [idempotencySeen, Nat.ne_of_gt htoken, hread, hexpire, hwindow]
  generalize hx : mutateRow tbl' view nowNanos' env' tx' req db' = x
  cases mutateRow_result hx with
  | retry => rfl
  | _ => simp_all

/-- A write with a token, which is looked up at the given time. -/
def tokenWrite (seenMicros : Int) (db : Store) : Except Status Unit × Store :=
  mutateRow (tableWithFamily none ⟨false⟩ false) none 0 ⟨0, seenMicros, none, none, 0⟩
    ⟨0, fun _ => 0, none⟩ (tokenEntry [97] (List.replicate 8 121)) db

theorem mutateRow_retry_later :
    ∃ db', tokenWrite 0 ⟨∅, ∅, []⟩ = (.ok (), db') ∧ tokenWrite 1000 db' = (.ok (), db') := by
  have hok : ∃ db', tokenWrite 0 ⟨∅, ∅, []⟩ = (.ok (), db') := ⟨_, rfl⟩
  obtain ⟨db', hok⟩ := hok
  exact ⟨db', hok, mutateRow_retry (Nat.succ_pos 7) rfl hok rfl rfl (by decide)⟩

end MutateRow

section MutateRows

variable {h : TokenHistory} {t : TableObject} {view : Option ViewPolicy} {env : Nat → EntryEnv}
variable {tx : TxEnv} {entries : List Entry}

variable {result : BatchResult} {outcomes : List EntryOutcome}

/-- The answers of a batch, entry by entry. -/
theorem mem_batchAnswers {a : EntryAnswer} :
    a ∈ batchAnswers entries result ↔
      ∃ (j : Nat) (status : Option Status), entries[j]? = some a.entry ∧
        result.statuses[j]? = some status ∧ a.ok = status.isNone ∧
        result.applied[j]? = some a.applied := by
  unfold batchAnswers
  rw [mem_iff_getElem?]
  refine exists_congr fun j => ?_
  rw [getElem?_map, Option.map_eq_some_iff]
  constructor
  · rintro ⟨⟨entry, status, applied⟩, hj, rfl⟩
    obtain ⟨hentry, hpair⟩ := getElem?_zip_eq_some.mp hj
    obtain ⟨hstatus, happlied⟩ := getElem?_zip_eq_some.mp hpair
    exact ⟨status, hentry, hstatus, rfl, happlied⟩
  rintro ⟨status, hentry, hstatus, hok, happlied⟩
  refine ⟨(a.entry, status, a.applied), ?_, ?_⟩
  · exact getElem?_zip_eq_some.mpr
      ⟨hentry, getElem?_zip_eq_some.mpr ⟨hstatus, happlied⟩⟩
  · rw [← hok]

theorem mem_tokenWrites_applied {failure : Option Status}
    (hanswer : AnswerOf outcomes failure result) {j : Nat} {entry : Entry}
    (hj : entries[j]? = some entry) (htoken : entry.HasToken)
    (happlied : result.applied[j]? = some true) :
    entry.write t ∈ tokenWrites t EntryAnswer.applied (batchAnswers entries result) := by
  have hstatus := hanswer.ok_iff.mpr (.inr happlied)
  refine mem_tokenWrites.mpr ⟨⟨entry, true, true⟩, ?_, rfl, htoken, rfl⟩
  exact mem_batchAnswers.mpr ⟨j, none, hj, hstatus, rfl, happlied⟩

/-- A token write of a batch that is answered OK is applied by the batch, or was
applied before. -/
theorem batchAnswers_ok (hsound : h.Sound) {failure : Option Status}
    (hanswer : AnswerOf outcomes failure result)
    (hown : ∀ j entry, entries[j]? = some entry → h.OwnToken t (env j) entry)
    (hright : ∀ j entry, entries[j]? = some entry →
      result.statuses[j]? = some none →
      result.applied[j]? = some true ∨
        RetryOfApplied env entries (h.server.db.store t) result j entry)
    {w : TokenWrite}
    (hw : w ∈ tokenWrites t EntryAnswer.ok (batchAnswers entries result)) :
    w ∈ tokenWrites t EntryAnswer.applied (batchAnswers entries result) ∨ w ∈ h.applied := by
  obtain ⟨a, ha, hok, htoken, rfl⟩ := mem_tokenWrites.mp hw
  obtain ⟨j, status, hj, hstatus, hnone, _⟩ := mem_batchAnswers.mp ha
  rw [hok] at hnone
  cases status with
  | some st => cases hnone
  | none =>
    rcases hright j a.entry hj hstatus with happlied | ⟨_, hlive | hearlier⟩
    · exact .inl (mem_tokenWrites_applied hanswer hj htoken happlied)
    · exact .inr (hsound.live_applied (hown j a.entry hj) htoken hlive)
    obtain ⟨i, entry', _, hi, hpair, happlied⟩ := hearlier
    have hwrite : a.entry.write t = entry'.write t := by
      unfold Entry.write
      rw [hpair.1, hpair.2]
    rw [hwrite]
    exact .inl (mem_tokenWrites_applied hanswer hi (hpair.hasToken htoken) happlied)

theorem recordTokens_stored {db₀ : Store} {key token : Bytes} (hpos : 0 < token.length)
    (hstored : (recordTokens tx 0 (entries.zip outcomes) db₀).tokenExpiry key token ≠ none) :
    db₀.tokenExpiry key token ≠ none ∨
      ∃ (j : Nat) (entry : Entry), entries[j]? = some entry ∧
        outcomes[j]? = some EntryOutcome.staged ∧ entry.rowKey = key ∧
        getToken entry.idempotency = token := by
  by_cases hexists : ∃ entry, (entry, EntryOutcome.staged) ∈ entries.zip outcomes ∧
      entry.rowKey = key ∧ getToken entry.idempotency = token
  · obtain ⟨entry, hmem, hpair⟩ := hexists
    obtain ⟨j, hj⟩ := mem_iff_getElem?.mp hmem
    obtain ⟨hentry, hout⟩ := getElem?_zip_eq_some.mp hj
    exact .inr ⟨j, entry, hentry, hout, hpair⟩
  · rw [recordTokens_tokenExpiry_of_ne tx 0 _ _ hpos] at hstored
    · exact .inl hstored
    · exact fun entry hmem hpair => hexists ⟨entry, hmem, hpair⟩

theorem answerOf_error (outcomes : List EntryOutcome) (st : Status) :
    AnswerOf outcomes (some st)
      ⟨outcomes.map (entryStatus (some st)), outcomes.map (fun _ => false)⟩ :=
  ⟨rfl, by simp⟩

theorem answerOf_ok (outcomes : List EntryOutcome) :
    AnswerOf outcomes none
      ⟨outcomes.map (entryStatus none), outcomes.map (fun o => decide (o = .staged))⟩ :=
  ⟨rfl, by simp⟩

theorem mutateRows_sound (hsound : h.Sound) {nowNanos : Nat}
    (hown : ∀ j entry, entries[j]? = some entry → h.OwnToken t (env j) entry)
    (hremembers : ∀ result,
      (mutateRows t.schema view nowNanos env tx entries (h.server.db.store t)).1 = .ok result →
      RemembersApplied t.schema view env entries (h.server.db.store t) result) :
    (h.record t
      (mutateRowsAnswers t.schema view nowNanos env tx entries (h.server.db.store t))
      (mutateRows t.schema view nowNanos env tx entries (h.server.db.store t)).2).Sound := by
  unfold mutateRowsAnswers
  generalize hx : mutateRows t.schema view nowNanos env tx entries (h.server.db.store t) = x
    at hremembers ⊢
  cases mutateRows_result hx with
  | invalid st _ =>
    refine hsound.record (fun _ _ _ hstored => .inl hstored) ?_
    intro w hw
    obtain ⟨a, ha, hok, _⟩ := mem_tokenWrites.mp hw
    obtain ⟨entry, _, rfl⟩ := mem_map.mp ha
    cases hok
  | txError st _ hpers =>
    have hanswer := answerOf_error
      (runBatch t.schema view nowNanos env entries (h.server.db.store t)).1 st
    refine hsound.record (fun _ _ _ hstored => .inl hstored) ?_
    exact fun w hw => batchAnswers_ok hsound hanswer hown
      (hanswer.ok_iff_remembersApplied.mpr (hremembers _ rfl)) hw
  | written db' _ hpers =>
    have hanswer := answerOf_ok
      (runBatch t.schema view nowNanos env entries (h.server.db.store t)).1
    refine hsound.record ?_ ?_
    · intro key token hpos hstored
      rcases persistWith_eq_ok hpers with ⟨_, rfl⟩ | rfl
      · exact .inl hstored
      rcases recordTokens_stored hpos hstored with hbefore | hstaged
      · rw [writeCommits_eq] at hbefore
        exact .inl hbefore
      · obtain ⟨j, entry, hj, hout, rfl, rfl⟩ := hstaged
        exact .inr (mem_tokenWrites_applied hanswer hj hpos
          (hanswer.applied_iff.mpr ⟨hout, rfl⟩))
    · exact fun w hw => batchAnswers_ok hsound hanswer hown
        (hanswer.ok_iff_remembersApplied.mpr (hremembers _ rfl)) hw

end MutateRows

section Run

theorem sound_next (h : TokenHistory) (call : TokenCall) (h' : TokenHistory) (hsound : h.Sound)
    (hown : h.OwnTokens call) (hnext : h.next call = some h') :
    h'.Sound := by
  cases hnext
  cases call with
  | createTable protoSize req => exact hsound.of_tokens (createTable_tokens protoSize req h.server)
  | deleteTable name reading deleteTime fault =>
    exact hsound.of_tokens (deleteTable_tokens)
  | undeleteTable name now fault =>
    exact hsound.of_tokens (undeleteTable_tokens name now fault h.server)
  | mutateRow name view nowNanos env tx req =>
    simp only
    split
    · exact hsound
    · rename_i t ht
      exact (mutateRow_answer).sound hsound (hown t ht)
  | mutateRows name view nowNanos env tx entries =>
    simp only
    split
    · exact hsound
    · rename_i t ht
      obtain ⟨howns, hremembers⟩ := hown t ht
      exact mutateRows_sound hsound howns hremembers

/-- Create the table `i/tables/t` with one family. -/
def createSmallTable : TokenCall :=
  .createTable (fun _ => 0)
    { emptyTableRequest (utf8 "i") (utf8 "t") with
      columnFamilies :=
        (∅ : GoMap (Option GcRule × Option ValueType)).insert [102] (none, none) }

/-- Write one cell of `i/tables/t` with a token. -/
def writeSmallTable (token : Bytes) : TokenCall :=
  .mutateRow (utf8 "i/tables/t") none 0 ⟨0, 0, none, none, 0⟩ ⟨0, fun _ => 0, none⟩
    (tokenEntry [97] token)

/-- The condition on a `MutateRow` call holds when its token was recorded by the table
object or not at all. -/
theorem ownTokens_of_recorder {h : TokenHistory} {name : Bytes} {view : Option ViewPolicy}
    {nowNanos : Nat} {env : EntryEnv} {tx : TxEnv} {req : Entry}
    (hrecorder : h.server.tables[name]?.all (fun t =>
      (h.recorder t.name req.rowKey (getToken req.idempotency)).all (fun n =>
        decide (n = t.incarnation))) = true) :
    h.OwnTokens (.mutateRow name view nowNanos env tx req) := by
  intro t ht _ _ n hn
  simpa [ht, hn] using hrecorder

end Run

end Bttest
end LittleBigtable
