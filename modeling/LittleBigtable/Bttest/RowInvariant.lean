import LittleBigtable.Bttest.TableAdmin
import LittleBigtable.Bttest.Batch
import LittleBigtable.Bttest.WriteCalls
import LittleBigtable.Bttest.MutationEffect
import LittleBigtable.Lib.Transition

/-!
# Stored rows are well formed

The state of a table is its metadata with its stored rows, tokens and change
log.  Every successful data write, family modification and range drop keeps every
stored row well formed with respect to the schema of the table.
-/

namespace LittleBigtable
namespace Bttest

open StableSort List Std
open StrictDescending

section Staging

/-- Every staged commit holds the next state of its row, well formed. -/
def StagedWellFormed (tbl : Table) (staged : GoMap RowCommit) : Prop :=
  ∀ (key : Bytes) (c : RowCommit), staged[key]? = some c →
    c.after.key = key ∧ c.after.WellFormed tbl.families tbl.granularity

/-- Every stored row is stored under its key, holds a cell and is well formed. -/
def RowsWellFormed (tbl : Table) (rows : SqlRows) : Prop :=
  ∀ (key : Bytes) (r : Row), rows[key]? = some r →
    r.key = key ∧ r.isEmpty = false ∧ r.WellFormed tbl.families tbl.granularity

variable {tbl : Table} {rows : SqlRows} {staged : GoMap RowCommit} {env : EntryEnv} {key : Bytes}

/-- A staging starts from the commit staged before, or from the stored row. -/
theorem stageBase_eq_ok {base before : Option Row}
    (h : stageBase rows env staged key = .ok (base, before)) :
    (∃ prev, staged[key]? = some prev ∧ base.getD (newRow key) = prev.after) ∨
      staged[key]? = none ∧ base.getD (newRow key) = storedRow rows key := by
  unfold stageBase SqlRows.load at h
  cases hprev : staged[key]? with
  | some prev =>
    simp only [hprev] at h
    cases h
    exact .inl ⟨prev, rfl, rfl⟩
  | none =>
    simp only [hprev] at h
    cases hload : env.loadError with
    | some st => simp [hload] at h
    | none =>
      simp only [hload] at h
      cases h
      exact .inr ⟨rfl, rfl⟩

theorem storedRow_wellFormed (hrows : RowsWellFormed tbl rows) {key : Bytes} :
    (storedRow rows key).WellFormed tbl.families tbl.granularity ∧
      (storedRow rows key).key = key := by
  unfold storedRow
  cases hrow : rows[key]? with
  | none => exact ⟨newRow_wellFormed key, rfl⟩
  | some r =>
    obtain ⟨hkey, _, hwf⟩ := hrows key r hrow
    exact ⟨hwf, hkey⟩

/-- `stage` changes a row that is well formed. -/
theorem stageBase_wellFormed (hrows : RowsWellFormed tbl rows)
    (hstaged : StagedWellFormed tbl staged) {base before : Option Row}
    (h : stageBase rows env staged key = .ok (base, before)) :
    (base.getD (newRow key)).key = key ∧
      (base.getD (newRow key)).WellFormed tbl.families tbl.granularity := by
  rcases stageBase_eq_ok h with ⟨prev, hprev, hbase⟩ | ⟨_, hbase⟩
  · rw [hbase]
    exact hstaged key prev hprev
  · rw [hbase]
    exact (storedRow_wellFormed hrows).symm

variable {r : Row} {α : Type} {c : RowCommit} {result : α}

theorem dropUnknownFamilies_eq_self {fams : Families}
    (h : ∀ (fam : Bytes) (f : Family), r.families[fam]? = some f → fams[fam]?.isSome) :
    dropUnknownFamilies fams r = r := by
  obtain ⟨key, families⟩ := r
  simp only [dropUnknownFamilies, Row.mk.injEq, true_and]
  refine ExtTreeMap.ext_getElem? (fun fam => ?_)
  rw [ExtTreeMap.getElem?_filter']
  cases hf : families[fam]? with
  | none => rfl
  | some f => simp [h fam f hf]

/-- A well-formed candidate is only garbage-collected. -/
theorem finishStage_eq {candidate : Row} (h : candidate.WellFormed tbl.families tbl.granularity)
    (prev : Option RowCommit) (before : Option Row) (changes : List Mutation) :
    finishStage tbl env prev key before candidate changes =
      { key := key
        before := before
        after := (candidate.gcWithChanges tbl.gcRules env.gcMicros).1
        userChanges := (prev.map RowCommit.userChanges).getD [] ++ changes
        gcChanges := (prev.map RowCommit.gcChanges).getD [] ++
          (candidate.gcWithChanges tbl.gcRules env.gcMicros).2 } := by
  have hknown : dropUnknownFamilies tbl.families candidate = candidate := by
    refine dropUnknownFamilies_eq_self (fun fam f hf => ?_)
    obtain ⟨cf, hcf, _⟩ := h.schema fam f hf
    simp [hcf]
  unfold finishStage
  simp only [hknown, RowCommit.mk.injEq, true_and, and_true]
  exact (h.normal.gcWithChanges tbl.gcRules env.gcMicros).normalize_eq

/-- A change of a row that keeps its key and keeps it well formed. -/
def KeepsWellFormed {α : Type} (tbl : Table)
    (mutate : Row → Except Status (Row × List Mutation × α)) : Prop :=
  ∀ (r candidate : Row) (changes : List Mutation) (result : α),
    r.WellFormed tbl.families tbl.granularity →
    mutate r = .ok (candidate, changes, result) →
    candidate.key = r.key ∧ candidate.WellFormed tbl.families tbl.granularity

variable {mutate : Row → Except Status (Row × List Mutation × α)}

theorem stage_eq_ok (h : stage tbl rows env staged key mutate = .ok (c, result)) :
    ∃ base before candidate changes,
      stageBase rows env staged key = .ok (base, before) ∧
      mutate (base.getD (newRow key)) = .ok (candidate, changes, result) ∧
      c = finishStage tbl env staged[key]? key before candidate changes := by
  unfold stage at h
  split at h
  · cases h
  rename_i base before hbase
  split at h
  · cases h
  rename_i candidate changes result' hmutate
  cases h
  exact ⟨base, before, candidate, changes, hbase, hmutate, rfl⟩

theorem stage_wellFormed (hrows : RowsWellFormed tbl rows) (hstaged : StagedWellFormed tbl staged)
    (hmutate : KeepsWellFormed tbl mutate)
    (h : stage tbl rows env staged key mutate = .ok (c, result)) :
    c.after.key = key ∧ c.after.WellFormed tbl.families tbl.granularity := by
  obtain ⟨base, before, candidate, changes, hbase, hcand, rfl⟩ := stage_eq_ok h
  obtain ⟨hkey, hwf⟩ := stageBase_wellFormed hrows hstaged hbase
  obtain ⟨hkey', hwf'⟩ := hmutate _ candidate changes result hwf hcand
  rw [finishStage_eq hwf']
  refine ⟨?_, hwf'.gcWithChanges tbl.gcRules env.gcMicros⟩
  rw [gcWithChanges_key, hkey', hkey]

theorem stage_fresh_eq_ok (hrows : RowsWellFormed tbl rows) (hmutate : KeepsWellFormed tbl mutate)
    (h : stage tbl rows env ∅ key mutate = .ok (c, result)) :
    ∃ candidate,
      mutate (storedRow rows key) = .ok (candidate, c.userChanges, result) ∧
      c.after = candidate.gc tbl.gcRules env.gcMicros ∧
      candidate.key = key ∧
      candidate.WellFormed tbl.families tbl.granularity := by
  obtain ⟨base, before, candidate, changes, hbase, hcand, hc⟩ := stage_eq_ok h
  obtain ⟨_, hprev, _⟩ | ⟨_, hstored⟩ := stageBase_eq_ok hbase
  · simp at hprev
  rw [hstored] at hcand
  obtain ⟨hwf, hkey⟩ := storedRow_wellFormed hrows
  obtain ⟨hkey', hwf'⟩ := hmutate _ _ _ _ hwf hcand
  rw [finishStage_eq hwf'] at hc
  subst hc
  exact ⟨candidate, by simpa using hcand, rfl, hkey'.trans hkey, hwf'⟩

theorem storedRow_column_of_persisted {key : Bytes} (h : rows[key]? = persistedRow r)
    (fam col : Bytes) :
    (storedRow rows key).column fam col = r.column fam col := by
  unfold storedRow
  rw [h]
  unfold persistedRow
  split_ifs with hempty
  · rw [(isEmpty_iff _).mp hempty fam col]
    exact newRow_column key fam col
  · rfl

theorem stagedWellFormed_empty :
    StagedWellFormed tbl ∅ := by
  intro key c hc
  simp at hc

theorem RowsWellFormed.save (hrows : RowsWellFormed tbl rows)
    (hr : r.WellFormed tbl.families tbl.granularity) :
    RowsWellFormed tbl (rows.save r) := by
  intro key r' hr'
  rw [save_getElem?] at hr'
  split_ifs at hr' with hkey
  · obtain ⟨hempty, rfl⟩ := persistedRow_eq_some.mp hr'
    exact ⟨hkey.symm, hempty, hr⟩
  · exact hrows key r' hr'

end Staging

section Writes

variable {tbl : Table}

/-- The change records of a commit. -/
def commitRecords (commitMicros : Int) (c : RowCommit) : List ChangeRecord :=
  (if c.userChanges.length > 0 then
    [⟨c.key, .user, commitMicros, c.userChanges⟩]
  else
    []) ++
  (if c.gcChanges.length > 0 then
    [⟨c.key, .garbageCollection, commitMicros, c.gcChanges⟩]
  else
    [])

theorem writeCommits_eq (tbl : Table) (commitMicros : Int) (db : Store)
    (commits : List RowCommit) :
    writeCommits tbl commitMicros db commits =
      { db with
        rows := commits.foldl (fun rows c => rows.save c.after) db.rows
        changeLog := db.changeLog ++
          if tbl.changeStreamEnabled then commits.flatMap (commitRecords commitMicros)
          else [] } := by
  induction commits generalizing db with
  | nil => simp [writeCommits]
  | cons c commits ih =>
    unfold writeCommits at ih ⊢
    rw [foldl_cons, ih]
    unfold writeCommit commitRecords Store.appendChange
    cases tbl.changeStreamEnabled <;> split_ifs <;> simp_all

theorem recordIdempotency_rows {db : Store} {key : Bytes} {idem : Option Idempotency}
    {nowMicros : Int} :
    (recordIdempotency db key idem nowMicros).rows = db.rows := by
  unfold recordIdempotency Store.putToken
  split_ifs <;> rfl

theorem recordTokens_rows {tx : TxEnv} (i : Nat) (entries : List (Entry × EntryOutcome))
    (db : Store) :
    (recordTokens tx i entries db).rows = db.rows := by
  induction entries generalizing i db with
  | nil => rfl
  | cons entry entries ih =>
    unfold recordTokens
    rw [ih]
    split_ifs
    · exact recordIdempotency_rows
    · rfl

theorem recordIdempotency_changeLog {db : Store} {key : Bytes} {idem : Option Idempotency}
    {nowMicros : Int} :
    (recordIdempotency db key idem nowMicros).changeLog = db.changeLog := by
  unfold recordIdempotency Store.putToken
  split_ifs <;> rfl

theorem recordTokens_changeLog (tx : TxEnv) (i : Nat) (entries : List (Entry × EntryOutcome))
    (db : Store) :
    (recordTokens tx i entries db).changeLog = db.changeLog := by
  induction entries generalizing i db with
  | nil => rfl
  | cons entry entries ih =>
    unfold recordTokens
    rw [ih]
    split_ifs
    · exact recordIdempotency_changeLog
    · rfl

variable {db : Store} {tx : TxEnv} {db' : Store} {nowNanos : Nat} {view : Option ViewPolicy}
variable {env : EntryEnv} {rule : ReadModifyWriteRule} {req : ReadModifyWriteRowRequest}

variable {commits : List RowCommit} {extra : Store → Store}

/-- A transaction without commits does nothing. -/
theorem persistWith_eq_ok (h : persistWith tbl tx db commits extra = .ok db') :
    (commits = [] ∧ db' = db) ∨ db' = extra (writeCommits tbl tx.commitMicros db commits) := by
  unfold persistWith at h
  split_ifs at h with hnil
  · cases h
    exact .inl ⟨length_eq_zero_iff.mp hnil, rfl⟩
  split at h
  · cases h
  · cases h
    exact .inr rfl

theorem persistWith_observe {α : Type} {obs : Store → α} (hextra : ∀ db, obs (extra db) = obs db)
    (h : persistWith tbl tx db commits extra = .ok db') :
    obs db' = obs (writeCommits tbl tx.commitMicros db commits) := by
  rcases persistWith_eq_ok h with ⟨rfl, rfl⟩ | rfl
  · rfl
  · exact hextra _

/-- A transaction that succeeds has saved the rows of its commits. -/
theorem persistWith_rows (hextra : ∀ db, (extra db).rows = db.rows)
    (h : persistWith tbl tx db commits extra = .ok db') :
    db'.rows = commits.foldl (fun rows c => rows.save c.after) db.rows := by
  rw [persistWith_observe hextra h, writeCommits_eq]

theorem RowsWellFormed.foldl_save {rows : SqlRows} (hrows : RowsWellFormed tbl rows)
    {commits : List RowCommit}
    (hcommits : ∀ c ∈ commits, c.after.WellFormed tbl.families tbl.granularity) :
    RowsWellFormed tbl (commits.foldl (fun rows c => rows.save c.after) rows) := by
  induction commits generalizing rows with
  | nil => exact hrows
  | cons c commits ih =>
    refine ih (hrows.save (hcommits c (by simp))) ?_
    exact fun c' hc' => hcommits c' (mem_cons_of_mem c hc')

theorem keepsWellFormed_mutateWith (nowNanos : Nat) {muts : List Mutation}
    (hvalid : validateMutations muts tbl.families tbl.granularity = none) :
    KeepsWellFormed tbl (mutateWith tbl (newTimestamp nowNanos) muts) := by
  intro r candidate changes result hr h
  obtain ⟨⟨r', changes'⟩, happly, heq⟩ := exceptMap_eq_ok h
  cases heq
  exact ⟨applyMutations_key happly,
    hr.applyMutations (applicable_of_validateMutations
      (newTimestamp_storable nowNanos) hvalid) happly⟩

/-- The outcome of evaluating the predicate and applying the selected branch. -/
theorem checkAndMutate_eq_ok {compile : RegexpCompiler} {draw : List Nat → ℚ} {now micros : Int}
    {req : CheckAndMutateRowRequest} {r candidate : Row} {changes : List Mutation} {matched : Bool}
    (h : checkAndMutate compile draw tbl view now micros req r =
      .ok (candidate, changes, matched)) :
    predicateMatched compile draw tbl view micros req.predicateFilter r =
        .ok matched ∧
      ((if matched then req.trueMutations else req.falseMutations) = [] ∧
          candidate = r ∧ changes = [] ∨
        validateMutations (if matched then req.trueMutations else req.falseMutations)
            tbl.families tbl.granularity = none ∧
          applyMutations tbl.families tbl.granularity now r
            (if matched then req.trueMutations else req.falseMutations) =
              .ok (candidate, changes)) := by
  unfold checkAndMutate at h
  split at h
  · cases h
  rename_i matched' hpred
  by_cases hnil : (if matched' = true then req.trueMutations
      else req.falseMutations) = []
  · rw [hnil] at h
    cases h
    exact ⟨hpred, .inl ⟨hnil, rfl, rfl⟩⟩
  rw [if_neg (by rwa [length_eq_zero_iff])] at h
  split at h
  · cases h
  rename_i hvalid
  obtain ⟨⟨r', changes'⟩, happly, heq⟩ := exceptMap_eq_ok h
  cases heq
  exact ⟨hpred, .inr ⟨hvalid, happly⟩⟩

theorem keepsWellFormed_checkAndMutate {compile : RegexpCompiler} {draw : List Nat → ℚ}
    {view : Option ViewPolicy} {nowNanos : Nat} {gcMicros : Int} {req : CheckAndMutateRowRequest} :
    KeepsWellFormed tbl
      (checkAndMutate compile draw tbl view (newTimestamp nowNanos) gcMicros req) := by
  intro r candidate changes matched hr h
  obtain ⟨_, ⟨_, rfl, _⟩ | ⟨hvalid, happly⟩⟩ := checkAndMutate_eq_ok h
  · exact ⟨rfl, hr⟩
  · exact ⟨applyMutations_key happly,
      hr.applyMutations (applicable_of_validateMutations
        (newTimestamp_storable nowNanos) hvalid) happly⟩

/-- What the checks of the rules ensure about each of them. -/
theorem validateRules_valid {fams : Families} (i : Nat) {rules : List ReadModifyWriteRule}
    (h : validateRules fams i rules = none) (hmem : rule ∈ rules) :
    ∃ cf, fams[rule.familyName]? = some cf ∧ familyAggregate cf = .none ∧ rule.rule ≠ .unset := by
  induction rules generalizing i with
  | nil => cases hmem
  | cons rule' rules ih =>
    obtain ⟨hrule, hrules⟩ := Option.or_eq_none_iff.mp h
    rcases mem_cons.mp hmem with rfl | hmem'
    · unfold validateRule at hrule
      cases hcf : fams[rule.familyName]? with
      | none => simp [hcf] at hrule
      | some cf =>
        simp only [hcf] at hrule
        split_ifs at hrule with hagg hset
        exact ⟨cf, rfl, by simpa using hagg, hset⟩
    · exact ih (i + 1) hrules hmem'

/-- A rule keeps the row and its visible cells well formed. -/
theorem applyRule_wellFormed {i : Nat} {s s' : RuleState} {cf : ColumnFamily}
    (hcf : tbl.families[rule.familyName]? = some cf)
    (hrow : s.row.WellFormed tbl.families tbl.granularity)
    (hvis : s.visible.WellFormed tbl.families tbl.granularity)
    (h : applyRule tbl.families nowNanos i rule s = .ok s') :
    s'.row.key = s.row.key ∧
      s'.row.WellFormed tbl.families tbl.granularity ∧
      s'.visible.WellFormed tbl.families tbl.granularity := by
  unfold applyRule at h
  simp only [familyOf_eq hcf] at h
  split at h
  · cases h
  rename_i value _
  cases h
  -- the new timestamp is a clock reading or the one of a visible cell
  refine ⟨rfl, hrow.addCell hcf _ rfl ?_, hvis.addCell hcf _ rfl ?_⟩
  all_goals
    cases hhead : (s.visible.column rule.familyName rule.columnQualifier).head? with
    | none => exact newTimestamp_storable nowNanos
    | some c =>
      have hc := hvis.storable _ _ c (mem_of_mem_head? hhead)
      have hnow := newTimestamp_storable nowNanos (g := tbl.granularity)
      rcases le_total (newTimestamp nowNanos) c.ts with hle | hle
      · simpa only [max_eq_right hle] using hc
      · simpa only [max_eq_left hle] using hnow

/-- What every rule keeps, a list of rules keeps. -/
theorem applyRules_invariant {fams : Families} {nowNanos : Nat → Nat} {i : Nat}
    {rules : List ReadModifyWriteRule} {s s' : RuleState} (P : RuleState → Prop)
    (h : applyRules fams nowNanos i rules s = .ok s') (hs : P s)
    (hrules : ∀ rule ∈ rules, ∀ i s s', P s → applyRule fams (nowNanos i) i rule s = .ok s' → P s') :
    P s' := by
  induction rules generalizing i s with
  | nil =>
    cases h
    exact hs
  | cons rule rules ih =>
    unfold applyRules at h
    split at h
    · cases h
    rename_i s₁ hrule
    exact ih h (hrules rule (by simp) i s s₁ hs hrule)
      (fun rule' hmem => hrules rule' (mem_cons_of_mem rule hmem))

theorem keepsWellFormed_readModifyWrite {nowNanos : Nat → Nat} {visibleMicros : Int}
    (hvalid : validateRules tbl.families 0 req.rules = none) :
    KeepsWellFormed tbl (readModifyWrite tbl nowNanos visibleMicros req) := by
  intro r candidate changes result hr happly
  obtain ⟨s', hs', heq⟩ := exceptMap_eq_ok happly
  cases heq
  have hkept := applyRules_invariant (fun s => s.row.key = r.key ∧
      s.row.WellFormed tbl.families tbl.granularity ∧
      s.visible.WellFormed tbl.families tbl.granularity) hs'
    ⟨rfl, hr, hr.gcWithChanges tbl.gcRules visibleMicros⟩ (fun rule hmem i s s₁ hs hrule => by
      obtain ⟨cf, hcf, _⟩ := validateRules_valid 0 hvalid hmem
      obtain ⟨hkey, hwf⟩ := applyRule_wellFormed hcf hs.2.1 hs.2.2 hrule
      exact ⟨hkey.trans hs.1, hwf⟩)
  exact ⟨hkept.1, hkept.2.1⟩

/-- What the checks of `ReadModifyWriteRow` ensure. -/
theorem readModifyWriteRowCheck_eq_none (h : readModifyWriteRowCheck tbl view req = none) :
    view.bind (fun p => p.checkRules req.rowKey req.rules) = none ∧
      validateRules tbl.families 0 req.rules = none := by
  simp only [readModifyWriteRowCheck, Option.or_eq_none_iff] at h
  exact h.2.2

/-- A change of the row `key` that a write call makes through the view. -/
inductive RowChange (tbl : Table) (view : Option ViewPolicy) (key : Bytes) :
    {α : Type} → (Row → Except Status (Row × List Mutation × α)) → Prop
  | mutations (nowNanos : Nat) {muts : List Mutation} (hview : checkView view key muts = none)
      (hvalid : validateMutations muts tbl.families tbl.granularity = none) :
      RowChange tbl view key (mutateWith tbl (newTimestamp nowNanos) muts)
  | conditional (compile : RegexpCompiler) (draw : List Nat → ℚ) (nowNanos : Nat) (micros : Int)
      {req : CheckAndMutateRowRequest} (hkey : req.rowKey = key)
      (hcheck : checkAndMutateRowCheck compile view req = none) :
      RowChange tbl view key
        (checkAndMutate compile draw tbl view (newTimestamp nowNanos) micros req)
  | rules (nowNanos : Nat → Nat) (micros : Int) {req : ReadModifyWriteRowRequest}
      (hkey : req.rowKey = key) (hcheck : readModifyWriteRowCheck tbl view req = none) :
      RowChange tbl view key (readModifyWrite tbl nowNanos micros req)

/-- A commit that a write call stages on top of others; it collects garbage at the clock
readings. -/
inductive StagedBy (tbl : Table) (view : Option ViewPolicy) (rows : SqlRows)
    (reading : Int → Prop) : Bytes → RowCommit → Prop
  | stage {α : Type} {key : Bytes} {env : EntryEnv} {staged : GoMap RowCommit}
      {mutate : Row → Except Status (Row × List Mutation × α)} {c : RowCommit} {result : α}
      (hstaged : ∀ (k : Bytes) (c' : RowCommit), staged[k]? = some c' →
        StagedBy tbl view rows reading k c')
      (hchange : RowChange tbl view key mutate) (hreading : reading env.gcMicros)
      (hstage : stage tbl rows env staged key mutate = .ok (c, result)) :
      StagedBy tbl view rows reading key c

/-- The store after a write call, and the clock readings at which it collects garbage. -/
inductive Written (tbl : Table) (view : Option ViewPolicy) (db : Store) :
    (Int → Prop) → Store → Prop
  | mutateRow (nowNanos : Nat) (env : EntryEnv) (tx : TxEnv) (req : Entry) :
      Written tbl view db (fun t => t = env.gcMicros) (mutateRow tbl view nowNanos env tx req db).2
  | mutateRows (nowNanos : Nat) (env : Nat → EntryEnv) (tx : TxEnv) (entries : List Entry) :
      Written tbl view db (fun t => ∃ i, t = (env i).gcMicros)
        (mutateRows tbl view nowNanos env tx entries db).2
  | checkAndMutateRow (compile : RegexpCompiler) (draw : List Nat → ℚ) (nowNanos : Nat)
      (predicateMicros : Int) (env : EntryEnv) (tx : TxEnv) (req : CheckAndMutateRowRequest) :
      Written tbl view db (fun t => t = env.gcMicros)
        (checkAndMutateRow compile draw tbl view nowNanos predicateMicros env tx req db).2
  | readModifyWriteRow (nowNanos : Nat → Nat) (visibleMicros : Int) (env : EntryEnv) (tx : TxEnv)
      (req : ReadModifyWriteRowRequest) :
      Written tbl view db (fun t => t = env.gcMicros)
        (readModifyWriteRow tbl view nowNanos visibleMicros env tx req db).2

variable {reading : Int → Prop} {key : Bytes} {c : RowCommit}

/-- Every write call persists commits that it has staged, or none. -/
theorem Written.persists (h : Written tbl view db reading db') :
    ∃ tx commits extra,
      (∀ c ∈ commits, ∃ key, StagedBy tbl view db.rows reading key c) ∧
      (∀ db, (extra db).rows = db.rows) ∧ (∀ db, (extra db).changeLog = db.changeLog) ∧
      persistWith tbl tx db commits extra = .ok db' := by
  have hunchanged : ∃ tx commits extra,
      (∀ c ∈ commits, ∃ key, StagedBy tbl view db.rows reading key c) ∧
      (∀ db, (extra db).rows = db.rows) ∧ (∀ db, (extra db).changeLog = db.changeLog) ∧
      persistWith tbl tx db commits extra = .ok db :=
    ⟨⟨0, fun _ => 0, none⟩, [], id, by simp, fun _ => rfl, fun _ => rfl, rfl⟩
  have hnone : ∀ (k : Bytes) (c' : RowCommit), (∅ : GoMap RowCommit)[k]? = some c' →
      StagedBy tbl view db.rows reading k c' := fun k c' hc' => by simp at hc'
  cases h with
  | mutateRow nowNanos env tx req =>
    rcases mutateRow_unchanged_or_written with
      heq | ⟨commit, hview, hvalid, hstage, hpers⟩
    · rwa [heq]
    · refine ⟨tx, [commit], _, ?_, fun db => recordIdempotency_rows,
        fun db => recordIdempotency_changeLog, hpers⟩
      simpa using ⟨_, .stage hnone (.mutations nowNanos hview hvalid) rfl hstage⟩
  | mutateRows nowNanos env tx entries =>
    rcases mutateRows_unchanged_or_written with
      heq | hpers
    · rwa [heq]
    refine ⟨tx, _, _, fun c hc => ?_, recordTokens_rows 0 _, recordTokens_changeLog tx 0 _,
      hpers⟩
    obtain ⟨key, _, hkey⟩ := mem_filterMap.mp hc
    refine ⟨key, batchLoop_staged_all (fun j _ _ _ hstaged hentry hstage => ?_) 0 hnone
      key c hkey⟩
    exact .stage hstaged (.mutations nowNanos (validateEntry_view hentry)
      (validateEntry_mutations hentry)) ⟨j, rfl⟩ hstage
  | checkAndMutateRow compile draw nowNanos predicateMicros env tx req =>
    generalize hx : Bttest.checkAndMutateRow _ _ _ _ _ _ _ _ _ _ = x
    cases checkAndMutateRow_result hx with
    | written commit matched db' hcheck hstage _ hpers =>
      refine ⟨tx, [commit], id, ?_, fun _ => rfl, fun _ => rfl, hpers⟩
      simpa using ⟨_, .stage hnone (.conditional compile draw nowNanos predicateMicros rfl hcheck)
        rfl hstage⟩
    | _ => exact hunchanged
  | readModifyWriteRow nowNanos visibleMicros env tx req =>
    generalize hx : Bttest.readModifyWriteRow _ _ _ _ _ _ _ _ = x
    cases readModifyWriteRow_result hx with
    | written commit result db' hcheck hstage hpers =>
      refine ⟨tx, [commit], id, ?_, fun _ => rfl, fun _ => rfl, hpers⟩
      simpa using ⟨_, .stage hnone (.rules nowNanos visibleMicros rfl hcheck) rfl hstage⟩
    | _ => exact hunchanged

theorem RowChange.keepsWellFormed {α : Type}
    {mutate : Row → Except Status (Row × List Mutation × α)} (h : RowChange tbl view key mutate) :
    KeepsWellFormed tbl mutate := by
  cases h with
  | mutations nowNanos _ hvalid => exact keepsWellFormed_mutateWith nowNanos hvalid
  | conditional compile draw nowNanos micros _ _ =>
    exact keepsWellFormed_checkAndMutate
  | rules nowNanos micros _ hcheck =>
    exact keepsWellFormed_readModifyWrite (readModifyWriteRowCheck_eq_none hcheck).2

theorem StagedBy.wellFormed (hrows : RowsWellFormed tbl db.rows)
    (h : StagedBy tbl view db.rows reading key c) :
    c.after.key = key ∧ c.after.WellFormed tbl.families tbl.granularity := by
  induction h with
  | stage _ hchange _ hstage ih => exact stage_wellFormed hrows ih hchange.keepsWellFormed hstage

theorem Written.rowsWellFormed (h : Written tbl view db reading db')
    (hrows : RowsWellFormed tbl db.rows) :
    RowsWellFormed tbl db'.rows := by
  obtain ⟨tx, commits, extra, hcommits, hextra, _, hpers⟩ := h.persists
  rw [persistWith_rows hextra hpers]
  refine hrows.foldl_save (fun c hc => ?_)
  obtain ⟨key, hstaged⟩ := hcommits c hc
  exact (hstaged.wellFormed hrows).2

end Writes

section Schema

/-- A family that was there before and is not dropped keeps its order number. -/
def DraftKeeps (old : Families) (s : SchemaDraft) : Prop :=
  ∀ (fam : Bytes) (cf : ColumnFamily), old[fam]? = some cf → fam ∉ s.dropped →
    ∃ cf', s.next[fam]? = some cf' ∧ cf'.order = cf.order

/-- A family that was there before and is not dropped keeps the part `proj` of its
schema. -/
def DraftKeepsField {β : Type} (proj : ColumnFamily → β) (old : Families)
    (s : SchemaDraft) : Prop :=
  ∀ (fam : Bytes) (cf : ColumnFamily), old[fam]? = some cf → fam ∉ s.dropped →
    ∃ cf', s.next[fam]? = some cf' ∧ proj cf' = proj cf

/-- An update of a family keeps its order number and its value type. -/
theorem applyUpdatePaths_keeps {id : Bytes} {gcRule : Option GcRule} {valueType : Option ValueType}
    {paths : List String} {cur cur' : ColumnFamily}
    (h : applyUpdatePaths id gcRule valueType paths cur = .ok cur') :
    cur'.order = cur.order ∧ cur'.valueType = cur.valueType := by
  induction paths generalizing cur with
  | nil =>
    cases h
    exact ⟨rfl, rfl⟩
  | cons path paths ih =>
    unfold applyUpdatePaths at h
    split_ifs at h
    · have hkeeps := ih h
      exact hkeeps
    · exact ih h

section Draft

variable {β : Type} {proj : ColumnFamily → β} {protoSize : GcRule → Nat} {old : Families}

/-- What an accepted modification does to the draft. -/
inductive Modified (mod : Modification) (s : SchemaDraft) : SchemaDraft → Prop
  | create (gcRule : Option GcRule) (valueType : Option ValueType)
      (hkind : mod.kind = .create gcRule valueType) (hnew : s.next[mod.id]? = none) :
      Modified mod s
        { s with
          next := s.next.insert mod.id ⟨s.counter, gcRule, valueType⟩
          counter := s.counter + 1 }
  | update (gcRule : Option GcRule) (valueType : Option ValueType) (updateMask paths : List String)
      (cur cur' : ColumnFamily) (hkind : mod.kind = .update gcRule valueType updateMask)
      (hpaths : "gc_rule" ∈ paths ↔ updateMask = [] ∨ "gc_rule" ∈ updateMask)
      (hcur : s.next[mod.id]? = some cur)
      (happly : applyUpdatePaths mod.id gcRule valueType paths cur = .ok cur') :
      Modified mod s { s with next := s.next.insert mod.id cur' }
  | drop (hkind : mod.kind = .drop true) :
      Modified mod s { s with next := s.next.erase mod.id, dropped := s.dropped ++ [mod.id] }

theorem modified_of_applyModification {mod : Modification} {s s' : SchemaDraft}
    (h : applyModification protoSize mod s = .ok s') :
    Modified mod s s' := by
  unfold applyModification at h
  cases hkind : mod.kind with simp only [hkind] at h
  | create gcRule valueType =>
    split at h
    · cases h
    split_ifs at h with hexists
    cases h
    exact .create gcRule valueType hkind (by simpa using hexists)
  | update gcRule valueType updateMask =>
    split at h
    · cases h
    rename_i cur hcur
    split at h
    · cases h
    split at h
    · cases h
    rename_i cur' hpaths
    cases h
    refine .update gcRule valueType updateMask _ cur cur' hkind ?_ hcur hpaths
    split_ifs with hmask <;> simp [← length_eq_zero_iff, hmask]
  | drop flag =>
    split_ifs at h with hflag
    cases h
    exact .drop (by rw [hkind, Bool.eq_true_of_not_eq_false hflag])
  | unset =>
    cases h

/-- What holds of the draft before the modifications, and is kept by each, holds after them. -/
theorem applyModifications_induction {P : List Modification → SchemaDraft → Prop}
    (hstep : ∀ {l mod s s'}, Modified mod s s' → P l s → P (l ++ [mod]) s')
    {l mods : List Modification} {s s' : SchemaDraft} (hs : P l s)
    (h : applyModifications protoSize mods s = .ok s') :
    P (l ++ mods) s' := by
  induction mods generalizing l s with
  | nil =>
    cases h
    rwa [append_nil]
  | cons mod mods ih =>
    unfold applyModifications at h
    split at h
    · cases h
    rename_i s₁ hmod
    have hrest := ih (hstep (modified_of_applyModification hmod) hs) h
    rwa [append_assoc] at hrest

theorem applyModifications_keepsField
    (hupdate : ∀ {id gcRule valueType paths cur cur'},
      applyUpdatePaths id gcRule valueType paths cur = .ok cur' → proj cur' = proj cur)
    {mods : List Modification}
    {s s' : SchemaDraft}
    (hkeeps : DraftKeepsField proj old s)
    (h : applyModifications protoSize mods s = .ok s') :
    DraftKeepsField proj old s' := by
  refine applyModifications_induction (P := fun _ => DraftKeepsField proj old)
    (fun {_ mod s s'} hmod hkeeps fam cf hcf hdropped => ?_) (l := []) hkeeps h
  cases hmod with
  | create gcRule valueType hkind hnew =>
    obtain ⟨cf', hcf', hfield⟩ := hkeeps fam cf hcf hdropped
    -- a created family is new, so it is not one that was kept
    have hne : mod.id ≠ fam := by
      rintro rfl
      rw [hcf'] at hnew
      cases hnew
    exact ⟨cf', by simp [ExtTreeMap.getElem?_insert, hne, hcf'], hfield⟩
  | update gcRule valueType updateMask paths cur cur' hkind _ hcur happly =>
    obtain ⟨cf', hcf', hfield⟩ := hkeeps fam cf hcf hdropped
    by_cases hid : mod.id = fam
    · subst hid
      rw [hcur] at hcf'
      cases hcf'
      exact ⟨cur', by simp, by rw [hupdate happly, hfield]⟩
    · exact ⟨cf', by simp [ExtTreeMap.getElem?_insert, hid, hcf'], hfield⟩
  | drop hkind =>
    simp only [mem_append, mem_singleton, not_or] at hdropped
    obtain ⟨cf', hcf', hfield⟩ := hkeeps fam cf hcf hdropped.1
    have hne : mod.id ≠ fam := fun heq => hdropped.2 heq.symm
    exact ⟨cf', by simp [ExtTreeMap.getElem?_erase, hne, hcf'], hfield⟩

end Draft

theorem dropFamilies_families (r : Row) (families : List Bytes) (fam : Bytes) :
    (r.dropFamilies families).families[fam]? =
      if fam ∈ families then none else r.families[fam]? := by
  unfold Row.dropFamilies
  simp only [ExtTreeMap.getElem?_filter']
  by_cases hmem : fam ∈ families
  · cases r.families[fam]? <;> simp [hmem]
  · cases r.families[fam]? <;> simp [hmem]

theorem dropFamilies_column (r : Row) (families : List Bytes) (fam col : Bytes) :
    (r.dropFamilies families).column fam col =
      if fam ∈ families then [] else r.column fam col := by
  unfold Row.column
  rw [dropFamilies_families]
  split_ifs <;> rfl

/-- What is left of a stored row after the data of families is dropped. -/
def survivingRow (families : List Bytes) (r : Row) : Option Row :=
  if (r.dropFamilies families).isEmpty then
    none
  else
    some (r.dropFamilies families)

/-- A row that is stored under its key is found by the key among the rows that pass a test. -/
theorem find?_filter_rows {rows : SqlRows}
    (hkey : ∀ (key : Bytes) (r : Row), rows[key]? = some r → r.key = key) (q : Row → Bool)
    (key : Bytes) :
    ((rows.toList.map Prod.snd).filter q).find? (fun r => r.key = key) = rows[key]?.filter q := by
  have hfilter : ∀ key : Bytes, (rows.filter (fun _ r => q r))[key]? = rows[key]?.filter q :=
    fun key => ExtTreeMap.getElem?_filter'
  rw [← hfilter]
  refine FiniteMap.find?_eq_getElem? (fun key r hr => ?_) (fun r => ?_) key
  · rw [hfilter] at hr
    exact hkey key r (Option.filter_eq_some_iff.mp hr).1
  · simp only [hfilter, Option.filter_eq_some_iff, mem_filter, mem_map, Prod.exists,
      ExtTreeMap.mem_toList_iff_getElem?_eq_some, exists_eq_right, exists_and_right]

theorem dropFamilies_eq_self {r : Row} {families : List Bytes}
    (h : ∀ fam ∈ families, r.families[fam]? = none) :
    r.dropFamilies families = r := by
  obtain ⟨key, fams⟩ := r
  simp only [Row.dropFamilies, Row.mk.injEq, true_and]
  refine ExtTreeMap.ext_getElem? (fun fam => ?_)
  have hfam := dropFamilies_families ⟨key, fams⟩ families fam
  simp only [Row.dropFamilies] at hfam
  rw [hfam]
  split_ifs with hin
  · exact (h fam hin).symm
  · rfl

/-- `dropFamilyData` drops the families from every row.  Rows that hold none of
them, which the code does not save again, are their own remainder. -/
theorem dropFamilyData_getElem? {rows : SqlRows}
    (hkey : ∀ (key : Bytes) (r : Row), rows[key]? = some r → r.key = key ∧ r.isEmpty = false)
    (families : List Bytes) (key : Bytes) :
    (dropFamilyData rows families)[key]? = rows[key]?.bind (survivingRow families) := by
  have hdistinct : (rows.toList.map Prod.snd).Pairwise (fun a b => a.key ≠ b.key) := by
    rw [pairwise_map]
    refine ExtTreeMap.distinct_keys_toList.imp_of_mem ?_
    intro a b ha hb hab heq
    rw [ExtTreeMap.mem_toList_iff_getElem?_eq_some] at ha hb
    rw [(hkey _ _ ha).1, (hkey _ _ hb).1] at heq
    exact hab (Std.compare_eq_iff_eq.mpr heq)
  unfold dropFamilyData
  simp only [scan_all]
  rw [foldl_save_getElem? Row.key (fun r => r.dropFamilies families)
    (fun _ _ => rfl) (hdistinct.sublist filter_sublist),
    find?_filter_rows (fun key r hr => (hkey key r hr).1)]
  cases hrow : rows[key]? with
  | none => rfl
  | some r =>
    rw [Option.filter_some]
    split_ifs with hany
    · rfl
    -- the row holds none of the families, so dropping them changes nothing
    have hsame : r.dropFamilies families = r := by
      refine dropFamilies_eq_self (fun fam hfam => ?_)
      rw [any_eq_true] at hany
      exact Option.not_isSome_iff_eq_none.mp (fun hsome => hany ⟨fam, hfam, hsome⟩)
    simp [survivingRow, hsame, (hkey key r hrow).2]

/-- Dropping the data of dropped families makes a row fit the new schema. -/
theorem Row.WellFormed.dropFamilies {old : Families} {g : Granularity} {r : Row}
    (hr : r.WellFormed old g) {s : SchemaDraft} (hkeeps : DraftKeeps old s) :
    (r.dropFamilies s.dropped).WellFormed s.next g := by
  refine ⟨?_, ?_, ?_, ?_⟩
  · intro fam f hf
    rw [dropFamilies_families] at hf
    split_ifs at hf
    exact hr.normal fam f hf
  · intro fam col
    rw [dropFamilies_column]
    split_ifs
    · exact List.Pairwise.nil
    · exact hr.strict fam col
  · intro fam col c hc
    rw [dropFamilies_column] at hc
    split_ifs at hc
    · simp at hc
    · exact hr.storable fam col c hc
  · intro fam f hf
    rw [dropFamilies_families] at hf
    split_ifs at hf with hdropped
    obtain ⟨cf, hcf, horder⟩ := hr.schema fam f hf
    obtain ⟨cf', hcf', horder'⟩ := hkeeps fam cf hcf hdropped
    exact ⟨cf', hcf', horder.trans horder'.symm⟩

variable {mods : List Modification} {tbl : Table} {db db' : Store}

/-- What a successful `ModifyColumnFamilies` does to the schema and the rows. -/
theorem modifyColumnFamilies_eq_ok {protoSize : GcRule → Nat} {txFailure : Option Status}
    {tbl' : Table} (hrows : RowsWellFormed tbl db.rows)
    (h : modifyColumnFamilies protoSize txFailure mods tbl db = (.ok (), tbl', db')) :
    ∃ s,
      applyModifications protoSize mods ⟨tbl.families, tbl.counter, []⟩ = .ok s ∧
      tbl' = { tbl with families := s.next, counter := s.counter } ∧
      ∀ key : Bytes, db'.rows[key]? = db.rows[key]?.bind (survivingRow s.dropped) := by
  unfold modifyColumnFamilies at h
  split_ifs at h
  · cases h
  split at h
  · cases h
  rename_i s hmods
  split at h
  · cases h
  split at h
  · cases h
  cases h
  refine ⟨s, hmods, rfl, fun key => ?_⟩
  split_ifs with hnil
  · -- nothing was dropped
    cases hr : db.rows[key]? with
    | none => rfl
    | some r =>
      rw [length_eq_zero_iff.mp hnil]
      simp [survivingRow, dropFamilies_eq_self, (hrows key r hr).2.1]
  · exact dropFamilyData_getElem?
      (fun k r hr => ⟨(hrows k r hr).1, (hrows k r hr).2.1⟩) s.dropped key

theorem bind_survivingRow_eq_some {families : List Bytes} {stored : Option Row} {r : Row}
    (h : stored.bind (survivingRow families) = some r) :
    r.isEmpty = false ∧ ∃ r₀, stored = some r₀ ∧ r = r₀.dropFamilies families := by
  obtain ⟨r₀, rfl, hr⟩ := Option.bind_eq_some_iff.mp h
  unfold survivingRow at hr
  split_ifs at hr with hempty
  cases hr
  exact ⟨by simpa using hempty, r₀, rfl, rfl⟩

theorem modifyColumnFamilies_rowsWellFormed {protoSize : GcRule → Nat} {txFailure : Option Status}
    {tbl' : Table} (hrows : RowsWellFormed tbl db.rows)
    (h : modifyColumnFamilies protoSize txFailure mods tbl db = (.ok (), tbl', db')) :
    RowsWellFormed tbl' db'.rows := by
  obtain ⟨s, hmods, rfl, hsurvive⟩ := modifyColumnFamilies_eq_ok hrows h
  have hkeeps : DraftKeeps tbl.families s :=
    applyModifications_keepsField (fun hpaths => (applyUpdatePaths_keeps hpaths).1)
      (fun fam cf hcf _ => ⟨cf, hcf, rfl⟩) hmods
  intro key r hr
  obtain ⟨hne, r₀, hr₀, rfl⟩ := bind_survivingRow_eq_some ((hsurvive key).symm.trans hr)
  obtain ⟨hkey, _, hwf⟩ := hrows key r₀ hr₀
  exact ⟨hkey, hne, hwf.dropFamilies hkeeps⟩

/-- The key range that `DropRowRange` scans for the rows it removes. -/
def DropTarget.range : DropTarget → KeyRange
  | .rowKeyPrefix pre => prefixRange pre
  | _ => ⟨[], []⟩

theorem foldl_appendChange {α : Type} (record : α → ChangeRecord) (l : List α) (db : Store) :
    l.foldl (fun db c => db.appendChange (record c)) db =
      { db with changeLog := db.changeLog ++ l.map record } := by
  induction l generalizing db with
  | nil => simp
  | cons c l ih =>
    rw [foldl_cons, ih]
    simp [Store.appendChange]

/-- The record of a removed row. -/
def dropRecord (tx : TxEnv) (r : Row) : ChangeRecord :=
  ⟨r.key, .user, tx.commitMicros, (dropCommit r).userChanges⟩

/-- What a successful `DropRowRange` does: the rows of its range are erased and recorded. -/
theorem dropRowRange_eq_ok {tx : TxEnv} {target : DropTarget}
    (h : dropRowRange tbl tx target db = (.ok (), db')) :
    ∃ rows : SqlRows,
      (target = .deleteAllDataFromTable true ∧ rows = ∅ ∨
        (∃ pre, target = .rowKeyPrefix pre ∧ pre ≠ []) ∧
          rows = (db.rows.scan target.range false).foldl (fun rows r => rows.erase r.key) db.rows) ∧
      db' = if tbl.changeStreamEnabled then
          { db with
            rows := rows
            changeLog := db.changeLog ++
              (db.rows.scan target.range false).map (dropRecord tx) }
        else
          { db with rows := rows } := by
  unfold dropRowRange failed at h
  simp only [foldl_appendChange, foldl_map] at h
  cases target with
  | deleteAllDataFromTable flag =>
    cases flag with
    | false => cases h
    | true =>
      simp only [if_true] at h
      split at h
      · cases h
      · cases h
        exact ⟨∅, .inl ⟨rfl, rfl⟩, rfl⟩
  | rowKeyPrefix pre =>
    by_cases hpre : pre.length = 0
    · simp only [if_pos hpre] at h
      cases h
    simp only [if_neg hpre] at h
    split at h
    · cases h
    · cases h
      exact ⟨_, .inr ⟨⟨pre, rfl, length_eq_zero_iff.not.mp hpre⟩, rfl⟩, rfl⟩
  | unset => cases h

/-- A range drop only removes rows. -/
theorem dropRowRange_rows {tx : TxEnv} {target : DropTarget}
    (h : dropRowRange tbl tx target db = (.ok (), db')) {key : Bytes} {r : Row}
    (hr : db'.rows[key]? = some r) :
    db.rows[key]? = some r := by
  obtain ⟨rows, hrows, rfl⟩ := dropRowRange_eq_ok h
  have hr' : rows[key]? = some r := by
    split_ifs at hr
    all_goals exact hr
  rcases hrows with ⟨_, rfl⟩ | ⟨_, rfl⟩
  · simp at hr'
  · rw [foldl_erase_getElem?] at hr'
    split_ifs at hr'
    exact hr'

end Schema

section Runs

/-- A table with what is stored under its name. -/
structure TableState where
  tbl : Table
  db : Store

/-- A call on the table, with everything it reads from its surroundings. -/
inductive Call
  | mutateRow
      (view : Option ViewPolicy) (nowNanos : Nat) (env : EntryEnv) (tx : TxEnv) (req : Entry)
  | mutateRows
      (view : Option ViewPolicy) (nowNanos : Nat) (env : Nat → EntryEnv) (tx : TxEnv)
      (entries : List Entry)
  | checkAndMutateRow
      (compile : RegexpCompiler) (draw : List Nat → ℚ) (view : Option ViewPolicy) (nowNanos : Nat)
      (predicateMicros : Int) (env : EntryEnv) (tx : TxEnv) (req : CheckAndMutateRowRequest)
  | readModifyWriteRow
      (view : Option ViewPolicy) (nowNanos : Nat → Nat) (visibleMicros : Int) (env : EntryEnv)
      (tx : TxEnv) (req : ReadModifyWriteRowRequest)
  | modifyColumnFamilies
      (protoSize : GcRule → Nat) (txFailure : Option Status) (mods : List Modification)
  | dropRowRange (tx : TxEnv) (target : DropTarget)

/-- The calls that write data. -/
def Call.writesData : Call → Bool
  | .modifyColumnFamilies _ _ _ => false
  | _ => true

/-- The store after a data call that succeeds. -/
def afterSuccess {α : Type} (tbl : Table) (answer : Except Status α × Store) : Option TableState :=
  match answer with
  | (.ok _, db) => some ⟨tbl, db⟩
  | (.error _, _) => none

/-- The state after a successful call. -/
def TableState.call (s : TableState) : Call → Option TableState
  | .mutateRow view nowNanos env tx req =>
    afterSuccess s.tbl (mutateRow s.tbl view nowNanos env tx req s.db)
  | .mutateRows view nowNanos env tx entries =>
    afterSuccess s.tbl (mutateRows s.tbl view nowNanos env tx entries s.db)
  | .checkAndMutateRow compile draw view nowNanos predicateMicros env tx req =>
    afterSuccess s.tbl (checkAndMutateRow compile draw s.tbl view nowNanos
      predicateMicros env tx req s.db)
  | .readModifyWriteRow view nowNanos visibleMicros env tx req =>
    afterSuccess s.tbl (readModifyWriteRow s.tbl view nowNanos visibleMicros env tx req s.db)
  | .modifyColumnFamilies protoSize txFailure mods =>
    match modifyColumnFamilies protoSize txFailure mods s.tbl s.db with
    | (.ok _, tbl', db') => some ⟨tbl', db'⟩
    | (.error _, _, _) => none
  | .dropRowRange tx target => afterSuccess s.tbl (dropRowRange s.tbl tx target s.db)

theorem afterSuccess_eq_some {α : Type} {tbl : Table} {answer : Except Status α × Store}
    {s' : TableState} (h : afterSuccess tbl answer = some s') :
    ∃ a db', answer = (.ok a, db') ∧ s' = ⟨tbl, db'⟩ := by
  obtain ⟨answer, db'⟩ := answer
  cases answer with
  | error st => cases h
  | ok a =>
    cases h
    exact ⟨a, db', rfl, rfl⟩

theorem written_of_afterSuccess {α : Type} {s s' : TableState} {view : Option ViewPolicy}
    {reading : Int → Prop} {answer : Except Status α × Store}
    (h : afterSuccess s.tbl answer = some s')
    (hwritten : Written s.tbl view s.db reading answer.2) :
    s'.tbl = s.tbl ∧ Written s.tbl view s.db reading s'.db := by
  obtain ⟨_, db', rfl, rfl⟩ := afterSuccess_eq_some h
  exact ⟨rfl, hwritten⟩

/-- A successful call is a write, a range drop or a change of the families. -/
theorem call_cases {s s' : TableState} {c : Call} (h : s.call c = some s') :
    (∃ view reading, s'.tbl = s.tbl ∧ Written s.tbl view s.db reading s'.db) ∨
    (∃ tx target, s'.tbl = s.tbl ∧ dropRowRange s.tbl tx target s.db = (.ok (), s'.db)) ∨
    c.writesData = false ∧ ∃ protoSize txFailure mods,
      modifyColumnFamilies protoSize txFailure mods s.tbl s.db = (.ok (), s'.tbl, s'.db) := by
  cases c with
  | mutateRow view nowNanos env tx req =>
    exact .inl ⟨view, _, written_of_afterSuccess h (.mutateRow nowNanos env tx req)⟩
  | mutateRows view nowNanos env tx entries =>
    exact .inl ⟨view, _, written_of_afterSuccess h (.mutateRows nowNanos env tx entries)⟩
  | checkAndMutateRow compile draw view nowNanos predicateMicros env tx req =>
    exact .inl ⟨view, _, written_of_afterSuccess h
      (.checkAndMutateRow compile draw nowNanos predicateMicros env tx req)⟩
  | readModifyWriteRow view nowNanos visibleMicros env tx req =>
    exact .inl ⟨view, _, written_of_afterSuccess h
      (.readModifyWriteRow nowNanos visibleMicros env tx req)⟩
  | modifyColumnFamilies protoSize txFailure mods =>
    simp only [TableState.call] at h
    split at h
    · rename_i _ tbl' db' hcall
      cases h
      exact .inr (.inr ⟨rfl, protoSize, txFailure, mods, hcall⟩)
    · cases h
  | dropRowRange tx target =>
    obtain ⟨_, db', hcall, rfl⟩ := afterSuccess_eq_some h
    exact .inr (.inl ⟨tx, target, rfl, hcall⟩)

/-- Every successful call keeps the stored rows well formed. -/
theorem call_rowsWellFormed (s : TableState) (c : Call) (s' : TableState)
    (hrows : RowsWellFormed s.tbl s.db.rows) (h : s.call c = some s') :
    RowsWellFormed s'.tbl s'.db.rows := by
  rcases call_cases h with ⟨view, reading, htbl, hwritten⟩ | ⟨tx, target, htbl, hdrop⟩ |
    ⟨_, protoSize, txFailure, mods, hmodify⟩
  · rw [htbl]
    exact hwritten.rowsWellFormed hrows
  · rw [htbl]
    exact fun key r hr => hrows key r (dropRowRange_rows hdrop hr)
  · exact modifyColumnFamilies_rowsWellFormed hrows hmodify

/-- The well-formedness of one family of a stored row. -/
structure StoredFamily (tbl : Table) (name : Bytes) (f : Family) : Prop where
  colNames_sorted : f.colNames.Pairwise (fun a b => a < b)
  colNames_keys : ∀ col, col ∈ f.colNames ↔ col ∈ f.cells
  nonempty : f.cells ≠ ∅
  columns : ∀ (col : Bytes) (cs : List Cell), f.cells[col]? = some cs →
    cs ≠ [] ∧
    cs.Pairwise (fun a b => b.ts < a.ts) ∧
    ∀ c ∈ cs, 0 ≤ c.ts ∧ (tbl.granularity.micros = false → c.ts % 1000 = 0)
  schema : ∃ cf, tbl.families[name]? = some cf ∧ f.order = cf.order

/-- The well-formedness of a stored row: it has a cell, and each of its families
is well formed. -/
structure StoredRow (tbl : Table) (r : Row) : Prop where
  hasCell : ∃ fam col c, c ∈ r.column fam col
  families : ∀ (name : Bytes) (f : Family), r.families[name]? = some f → StoredFamily tbl name f

theorem storedRow_of_wellFormed {tbl : Table} {r : Row} (hne : r.isEmpty = false)
    (h : r.WellFormed tbl.families tbl.granularity) :
    StoredRow tbl r := by
  refine ⟨?_, ?_⟩
  · by_contra hnone
    have hempty : r.isEmpty = true := by
      rw [isEmpty_iff]
      intro fam col
      rw [eq_nil_iff_forall_not_mem]
      exact fun c hc => hnone ⟨fam, col, c, hc⟩
    rw [hne] at hempty
    cases hempty
  intro name f hf
  have hnormal := h.normal name f hf
  refine ⟨?_, ?_, hnormal.nonempty, ?_, h.schema name f hf⟩
  · rw [hnormal.colNames_eq]
    exact keys_pairwise_lt f.cells
  · intro col
    rw [hnormal.colNames_eq, ExtTreeMap.mem_keys]
  intro col cs hcs
  have hcol : r.column name col = cs := by
    simp [Row.column, hf, hcs]
  refine ⟨(hnormal.columns col cs hcs).1, ?_, ?_⟩
  · have hstrict := h.strict name col
    rwa [hcol] at hstrict
  · intro c hc
    exact h.storable name col c (hcol ▸ hc)

/-- Every row stored in a table that was created by `CreateTable` and then
changed by any sequence of successful calls is well formed with respect to the
current schema. -/
theorem storedRows_wellFormed (columnFamilies : GoMap (Option GcRule × Option ValueType))
    (g : Granularity) (changeStreamEnabled : Bool) (rowKeySchema : Option (List RowKeyField))
    (tokens : GoMap (GoMap Int)) (changeLog : List ChangeRecord) (calls : List Call)
    (s : TableState)
    (hrun : Transition.run TableState.call
      ⟨newTable columnFamilies g changeStreamEnabled rowKeySchema,
        ⟨∅, tokens, changeLog⟩⟩ calls = some s)
    (key : Bytes)
    (r : Row)
    (hr : s.db.rows[key]? = some r) :
    StoredRow s.tbl r := by
  have hinv : RowsWellFormed s.tbl s.db.rows := by
    refine Transition.invariant (fun s => RowsWellFormed s.tbl s.db.rows)
      call_rowsWellFormed ?_ hrun
    intro key r hr
    simp at hr
  obtain ⟨_, hne, hwf⟩ := hinv key r hr
  exact storedRow_of_wellFormed hne hwf

/-- A table with one family that keeps one version of a cell, after two writes to
one column. -/
theorem storedRows_wellFormed_two_writes :
    ∃ s r,
      Transition.run TableState.call
        ⟨tableWithFamily (some (.maxNumVersions 1)) ⟨false⟩ false, ⟨∅, ∅, []⟩⟩
        [.mutateRow none 0 ⟨0, 0, none, none, 0⟩ ⟨0, fun _ => 0, none⟩
            ⟨[107], [.plain (.setCell [102] [113] 1000 [1])], none⟩,
          .mutateRow none 2500000 ⟨0, 0, none, none, 0⟩ ⟨0, fun _ => 0, none⟩
            ⟨[107], [.plain (.setCell [102] [113] (-1) [2])], none⟩] = some s ∧
      s.db.rows[([107] : Bytes)]? = some r ∧
      r.column [102] [113] = [⟨2000, [2], []⟩] ∧
      StoredRow s.tbl r := by
  have hrun : ∃ s,
      Transition.run TableState.call
        ⟨tableWithFamily (some (.maxNumVersions 1)) ⟨false⟩ false, ⟨∅, ∅, []⟩⟩
        [.mutateRow none 0 ⟨0, 0, none, none, 0⟩ ⟨0, fun _ => 0, none⟩
            ⟨[107], [.plain (.setCell [102] [113] 1000 [1])], none⟩,
          .mutateRow none 2500000 ⟨0, 0, none, none, 0⟩ ⟨0, fun _ => 0, none⟩
            ⟨[107], [.plain (.setCell [102] [113] (-1) [2])], none⟩] = some s ∧
      s.db.rows[([107] : Bytes)]?.map (fun r => r.column [102] [113]) = some [⟨2000, [2], []⟩] :=
    ⟨_, rfl, by decide +kernel⟩
  obtain ⟨s, hs, hcol⟩ := hrun
  obtain ⟨r, hr, hcells⟩ := Option.map_eq_some_iff.mp hcol
  exact ⟨s, r, hs, hr, hcells, storedRows_wellFormed _ _ _ _ _ _ _ s hs [107] r hr⟩

end Runs

end Bttest
end LittleBigtable
