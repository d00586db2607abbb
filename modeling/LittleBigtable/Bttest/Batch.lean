import LittleBigtable.Bttest.DataWrite

/-!
# The loop of `MutateRows`

One iteration of the loop is described once, by the cases it can take; every
invariant of the loop is then a case analysis.  The bookkeeping of the loop is
consistent: `order` lists each staged row once.
-/

namespace LittleBigtable
namespace Bttest

open List

/-- What one iteration of the loop can do. -/
inductive BatchStepResult (tbl : Table) (view : Option ViewPolicy) (now : Int) (db : Store)
    (env : EntryEnv) (entry : Entry) (s : BatchState) :
    EntryOutcome × BatchState → Prop
  | invalid
      (st : Status)
      (hentry : validateEntry tbl view env entry = some st) :
      BatchStepResult tbl view now db env entry s (.failed st, s)
  | batchRetry
      (hentry : validateEntry tbl view env entry = none)
      (htoken : (getToken entry.idempotency).length > 0)
      (hmem : batchKey entry ∈ s.batchTokens) :
      BatchStepResult tbl view now db env entry s (.retry, s)
  | seen
      (hentry : validateEntry tbl view env entry = none)
      (hnew : ¬ ((getToken entry.idempotency).length > 0 ∧ batchKey entry ∈ s.batchTokens))
      (hseen : idempotencySeen db entry.rowKey entry.idempotency env = .ok true) :
      BatchStepResult tbl view now db env entry s (.retry, s)
  | seenError
      (st : Status)
      (hentry : validateEntry tbl view env entry = none)
      (hnew : ¬ ((getToken entry.idempotency).length > 0 ∧ batchKey entry ∈ s.batchTokens))
      (hseen : idempotencySeen db entry.rowKey entry.idempotency env = .error st) :
      BatchStepResult tbl view now db env entry s (.failed st, s.remember entry)
  | stageError
      (st : Status)
      (hentry : validateEntry tbl view env entry = none)
      (hnew : ¬ ((getToken entry.idempotency).length > 0 ∧ batchKey entry ∈ s.batchTokens))
      (hseen : idempotencySeen db entry.rowKey entry.idempotency env = .ok false)
      (hstage : stage tbl db.rows env s.staged entry.rowKey
        (mutateWith tbl now entry.mutations) = .error st) :
      BatchStepResult tbl view now db env entry s (.failed st, s.remember entry)
  | staged
      (c : RowCommit)
      (hentry : validateEntry tbl view env entry = none)
      (hnew : ¬ ((getToken entry.idempotency).length > 0 ∧ batchKey entry ∈ s.batchTokens))
      (hseen : idempotencySeen db entry.rowKey entry.idempotency env = .ok false)
      (hstage : stage tbl db.rows env s.staged entry.rowKey
        (mutateWith tbl now entry.mutations) = .ok (c, ())) :
      BatchStepResult tbl view now db env entry s (.staged, (s.remember entry).put entry.rowKey c)

theorem batchStep_result {tbl : Table} {view : Option ViewPolicy} {now : Int} {db : Store}
    {env : EntryEnv} {entry : Entry} {s : BatchState} {x}
    (h : batchStep tbl view now db env entry s = x) :
    BatchStepResult tbl view now db env entry s x := by
  subst h
  unfold batchStep
  cases hentry : validateEntry tbl view env entry with
  | some st => exact .invalid st hentry
  | none =>
    simp only
    split_ifs with hbatch
    · exact .batchRetry hentry hbatch.1 hbatch.2
    split
    · rename_i hseen
      exact .seen hentry hbatch hseen
    · rename_i st hseen
      exact .seenError st hentry hbatch hseen
    rename_i hseen
    split
    · rename_i st hstage
      exact .stageError st hentry hbatch hseen hstage
    · rename_i c _ hstage
      exact .staged c hentry hbatch hseen hstage

@[simp] theorem remember_staged (s : BatchState) (entry : Entry) :
    (s.remember entry).staged = s.staged := by
  unfold BatchState.remember
  split_ifs <;> rfl

@[simp] theorem remember_order (s : BatchState) (entry : Entry) :
    (s.remember entry).order = s.order := by
  unfold BatchState.remember
  split_ifs <;> rfl

@[simp] theorem put_staged (s : BatchState) (key : Bytes) (c : RowCommit) :
    (s.put key c).staged = s.staged.insert key c := by
  rfl

@[simp] theorem put_batchTokens (s : BatchState) (key : Bytes) (c : RowCommit) :
    (s.put key c).batchTokens = s.batchTokens := by
  rfl

variable {tbl : Table} {view : Option ViewPolicy} {env : EntryEnv} {entry : Entry} {now : Int}
variable {db : Store} {P : Bytes → RowCommit → Prop}

theorem validateEntry_mutations (h : validateEntry tbl view env entry = none) :
    validateMutations entry.mutations tbl.families tbl.granularity = none := by
  unfold validateEntry at h
  simp only [Option.or_eq_none_iff] at h
  exact h.2.2.2

theorem validateEntry_view (h : validateEntry tbl view env entry = none) :
    checkView view entry.rowKey entry.mutations = none := by
  unfold validateEntry at h
  simp only [Option.or_eq_none_iff] at h
  exact h.2.2.1

/-- `order` lists the staged rows once each. -/
structure BatchState.Ordered (s : BatchState) : Prop where
  nodup : s.order.Nodup
  mem_order : ∀ key, key ∈ s.order ↔ s.staged[key]?.isSome = true

theorem ordered_initial :
    BatchState.Ordered ⟨∅, [], []⟩ where
  nodup := List.nodup_nil
  mem_order key := by simp

variable {s : BatchState}

theorem BatchState.Ordered.remember (h : s.Ordered) (entry : Entry) :
    (s.remember entry).Ordered where
  nodup := by simpa using h.nodup
  mem_order key := by simpa using h.mem_order key

theorem BatchState.Ordered.put (h : s.Ordered) (key : Bytes) (c : RowCommit) :
    (s.put key c).Ordered := by
  have hinsert : ∀ key', (s.staged.insert key c)[key']?.isSome = true ↔
      key' = key ∨ key' ∈ s.order := by
    intro key'
    rw [h.mem_order, Std.ExtTreeMap.getElem?_insert]
    by_cases hk : key = key'
    · simp [hk]
    · have hk' : key' ≠ key := fun heq => hk heq.symm
      simp [hk, hk']
  refine ⟨?_, ?_⟩
  · unfold BatchState.put
    simp only
    split_ifs with hsome
    · exact h.nodup
    rw [nodup_append]
    refine ⟨h.nodup, nodup_singleton key, ?_⟩
    intro a ha b hb heq
    rw [mem_singleton] at hb
    rw [heq, hb, h.mem_order] at ha
    exact hsome ha
  intro key'
  rw [put_staged, hinsert]
  unfold BatchState.put
  simp only
  split_ifs with hsome
  · constructor
    · exact .inr
    · rintro (rfl | hmem)
      · exact (h.mem_order key').mpr hsome
      · exact hmem
  · rw [mem_append, mem_singleton]
    exact Or.comm

theorem batchStep_ordered (h : s.Ordered) :
    (batchStep tbl view now db env entry s).2.Ordered := by
  generalize hx : batchStep tbl view now db env entry s = x
  cases batchStep_result hx with
  | invalid | batchRetry | seen => exact h
  | seenError | stageError => exact h.remember entry
  | staged c _ _ _ _ => exact (h.remember entry).put entry.rowKey c

theorem batchLoop_ordered {env : Nat → EntryEnv} (i : Nat) {entries : List Entry} (h : s.Ordered) :
    (batchLoop tbl view now db env i entries s).2.Ordered := by
  induction entries generalizing i s with
  | nil => exact h
  | cons entry entries ih => exact ih (i + 1) (batchStep_ordered h)

/-- A property of staged commits is kept by an iteration of the loop, when it holds
of every commit that is staged on top of commits with the property. -/
theorem batchStep_staged_all
    (hstage : ∀ (entry : Entry) (staged : GoMap RowCommit) (c : RowCommit),
      (∀ (k : Bytes) (c' : RowCommit), staged[k]? = some c' → P k c') →
      validateEntry tbl view env entry = none →
      stage tbl db.rows env staged entry.rowKey (mutateWith tbl now entry.mutations) = .ok (c, ()) →
      P entry.rowKey c)
    (h : ∀ (k : Bytes) (c : RowCommit), s.staged[k]? = some c → P k c)
    (k : Bytes)
    (c : RowCommit)
    (hc : (batchStep tbl view now db env entry s).2.staged[k]? = some c) :
    P k c := by
  generalize hx : batchStep tbl view now db env entry s = x at hc
  cases batchStep_result hx with
  | invalid | batchRetry | seen => exact h k c hc
  | seenError | stageError =>
    rw [remember_staged] at hc
    exact h k c hc
  | staged c' hentry _ _ hstaged =>
    rw [put_staged, remember_staged, Std.ExtTreeMap.getElem?_insert] at hc
    simp only [Std.compare_eq_iff_eq] at hc
    split_ifs at hc with hk
    · cases hc
      subst hk
      exact hstage entry s.staged c h hentry hstaged
    · exact h k c hc

theorem batchLoop_staged_all {env : Nat → EntryEnv}
    (hstage : ∀ (j : Nat) (entry : Entry) (staged : GoMap RowCommit)
      (c : RowCommit),
      (∀ (k : Bytes) (c' : RowCommit), staged[k]? = some c' → P k c') →
      validateEntry tbl view (env j) entry = none →
      stage tbl db.rows (env j) staged entry.rowKey
        (mutateWith tbl now entry.mutations) = .ok (c, ()) →
      P entry.rowKey c)
    (i : Nat)
    {entries : List Entry}
    (h : ∀ (k : Bytes) (c : RowCommit), s.staged[k]? = some c → P k c)
    (k : Bytes)
    (c : RowCommit)
    (hc : (batchLoop tbl view now db env i entries s).2.staged[k]? = some c) :
    P k c := by
  induction entries generalizing i s with
  | nil => exact h k c hc
  | cons entry entries ih => exact ih (i + 1) (batchStep_staged_all (hstage i) h) hc

theorem batchStep_order (h : (batchStep tbl view now db env entry s).1 ≠ .staged) :
    (batchStep tbl view now db env entry s).2.order = s.order := by
  generalize hx : batchStep tbl view now db env entry s = x at h
  cases batchStep_result hx with
  | invalid | batchRetry | seen => rfl
  | seenError | stageError => exact remember_order s entry
  | staged c _ _ _ _ => exact absurd rfl h

theorem batchLoop_order {env : Nat → EntryEnv} (i : Nat) (entries : List Entry)
    (h : ∀ o ∈ (batchLoop tbl view now db env i entries s).1, o ≠ .staged) :
    (batchLoop tbl view now db env i entries s).2.order = s.order := by
  induction entries generalizing i s with
  | nil => rfl
  | cons entry entries ih =>
    simp only [batchLoop, mem_cons, forall_eq_or_imp] at h ⊢
    rw [ih (i + 1) h.2]
    exact batchStep_order h.1

theorem mem_final (h : s.Ordered) {c : RowCommit} :
    c ∈ s.final ↔ ∃ key : Bytes, s.staged[key]? = some c := by
  unfold BatchState.final
  rw [mem_filterMap]
  constructor
  · rintro ⟨key, _, hc⟩
    exact ⟨key, hc⟩
  · rintro ⟨key, hc⟩
    exact ⟨key, (h.mem_order key).mpr (by simp [hc]), hc⟩

theorem final_pairwise (h : s.Ordered)
    (hkey : ∀ (key : Bytes) (c : RowCommit), s.staged[key]? = some c → c.key = key) :
    s.final.Pairwise (fun a b => a.key ≠ b.key) := by
  unfold BatchState.final
  rw [pairwise_filterMap]
  refine h.nodup.imp (fun {k k'} hne c hc c' hc' heq => ?_)
  rw [hkey k c hc, hkey k' c' hc'] at heq
  exact hne heq

end Bttest
end LittleBigtable
