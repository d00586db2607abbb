import LittleBigtable.Bttest.Row
import LittleBigtable.Lib.BigEndian

/-!
# Resuming the results of a query

`ExecuteQuery` sends the rows of a query in batches.  A batch carries the number of rows
delivered up to its end as its token, and a call with a token executes the query again and
skips as many rows.  `queryResults_resume` follows a client through any number of
interruptions.
-/

namespace LittleBigtable
namespace Bttest

open List

section Model

variable {V : Type}

/-- A batch as it is sent.  Its values are those of its rows one after another. -/
structure ResultBatch (V : Type) where
  rows : List (List V)
  resumeToken : Bytes
  deriving DecidableEq

/-- The variables of `ExecuteQuery` while the query emits its rows. -/
structure QueryStream (V : Type) where
  rowIndex : Nat
  delivered : Nat
  batch : List (List V)
  batchBytes : Nat
  sent : List (ResultBatch V)

/-- Send the batch, unless it has no values. -/
def QueryStream.flush (s : QueryStream V) : QueryStream V :=
  if s.batch.flatten.isEmpty then
    s
  else
    { s with
      batch := []
      batchBytes := 0
      sent := s.sent ++ [⟨s.batch, BigEndian.digits 8 s.delivered⟩] }

/-- One emitted row; `size` is the encoded size of a value. -/
def QueryStream.emit (size : V → Nat) (queryBatchBytes : Int) (skip : Nat) (s : QueryStream V)
    (values : List V) : QueryStream V :=
  let rowIndex := s.rowIndex + 1
  if rowIndex ≤ skip then
    { s with rowIndex := rowIndex }
  else
    let s' : QueryStream V :=
      ⟨rowIndex, rowIndex, s.batch ++ [values], s.batchBytes + (values.map size).sum, s.sent⟩
    if s'.batchBytes ≥ queryBatchBytes then s'.flush else s'

/-- The batches of `ExecuteQuery` for a query that emits the rows. -/
def executeQuery (size : V → Nat) (queryBatchBytes : Int) (rows : List (List V))
    (resumeToken : Bytes) : Except Status (List (ResultBatch V)) :=
  if resumeToken ≠ [] ∧ resumeToken.length ≠ 8 then
    .error (errorf .invalidArgument "invalid resume_token" [])
  else
    let skip := BigEndian.value resumeToken
    .ok (rows.foldl (QueryStream.emit size queryBatchBytes skip) ⟨0, 0, [], 0, []⟩).flush.sent

/-- The rows that batches deliver. -/
def deliveredRows (batches : List (ResultBatch V)) : List (List V) :=
  batches.flatMap ResultBatch.rows

/-- What a client can receive that starts with a token: all batches of a call, or those up
to a batch after which the stream breaks, and then what it receives with the token of
that batch. -/
inductive Receives (size : V → Nat) (queryBatchBytes : Int) (rows : List (List V)) :
    Bytes → List (List V) → Prop
  | whole
      {token : Bytes} {batches : List (ResultBatch V)}
      (h : executeQuery size queryBatchBytes rows token = .ok batches) :
      Receives size queryBatchBytes rows token (deliveredRows batches)
  | interrupted
      {token : Bytes} {batches part : List (ResultBatch V)} {b : ResultBatch V}
      {got : List (List V)}
      (h : executeQuery size queryBatchBytes rows token = .ok batches)
      (hpart : part ++ [b] <+: batches)
      (hrest : Receives size queryBatchBytes rows b.resumeToken got) :
      Receives size queryBatchBytes rows token (deliveredRows (part ++ [b]) ++ got)

end Model

section Batches

variable {V : Type} {size : V → Nat} {queryBatchBytes : Int} {skip : Nat}
variable {done rows : List (List V)} {s : QueryStream V}
variable {token : Bytes} {batches part : List (ResultBatch V)} {b : ResultBatch V}

/-- Every token counts the skipped rows and those up to the end of its batch. -/
def TokensCount (skip : Nat) (batches : List (ResultBatch V)) : Prop :=
  ∀ part b, part ++ [b] <+: batches →
    b.resumeToken = BigEndian.digits 8 (skip + (deliveredRows (part ++ [b])).length)

/-- The loop invariant: what is sent and the batch are the emitted rows behind the skipped
ones. -/
structure QueryStream.Follows (s : QueryStream V) (skip : Nat) (done : List (List V)) : Prop where
  rowIndex : s.rowIndex = done.length
  rows : deliveredRows s.sent ++ s.batch = done.drop skip
  delivered : s.batch ≠ [] → s.delivered = done.length
  tokens : TokensCount skip s.sent

theorem QueryStream.Follows.flush (h : s.Follows skip done) (hdone : ∀ r ∈ done, r ≠ []) :
    s.flush.Follows skip done ∧ s.flush.batch = [] := by
  unfold QueryStream.flush
  split_ifs with hempty
  · refine ⟨h, eq_nil_iff_forall_not_mem.mpr fun r hr => hdone r ?_ ?_⟩
    · exact mem_of_mem_drop (h.rows ▸ mem_append_right _ hr)
    · exact flatten_eq_nil_iff.mp (List.isEmpty_iff.mp hempty) r hr
  have hne : s.batch ≠ [] := by
    intro hnil
    simp [hnil] at hempty
  have hrows : deliveredRows (s.sent ++ [⟨s.batch, BigEndian.digits 8 s.delivered⟩]) =
      done.drop skip := by
    rw [← h.rows]
    simp [deliveredRows]
  refine ⟨⟨h.rowIndex, by rw [hrows, append_nil], by simp, fun part b hpart => ?_⟩, rfl⟩
  rcases prefix_concat_iff.mp hpart with heq | hold
  · obtain ⟨rfl, hb⟩ := append_inj' heq rfl
    cases hb
    -- a batch with rows is behind the skipped ones
    have hpos : 0 < (done.drop skip).length := by
      rw [← h.rows]
      exact length_pos_of_ne_nil (append_ne_nil_of_right_ne_nil _ hne)
    rw [length_drop] at hpos
    rw [hrows, length_drop, h.delivered hne, Nat.add_sub_cancel' (by omega)]
  · exact h.tokens part b hold

theorem QueryStream.Follows.emit (h : s.Follows skip done) {values : List V}
    (hdone : ∀ r ∈ done ++ [values], r ≠ []) :
    (s.emit size queryBatchBytes skip values).Follows skip (done ++ [values]) := by
  have hindex := h.rowIndex
  unfold QueryStream.emit
  simp only
  split_ifs with hskip hfull
  · have hnil := h.rows
    rw [drop_eq_nil_of_le (by omega)] at hnil
    refine ⟨by simp [hindex], ?_, fun hne => absurd (append_eq_nil_iff.mp hnil).2 hne, h.tokens⟩
    rw [drop_eq_nil_of_le (by simp; omega)]
    exact hnil
  all_goals
    have hnext : QueryStream.Follows ⟨s.rowIndex + 1, s.rowIndex + 1, s.batch ++ [values],
        s.batchBytes + (values.map size).sum, s.sent⟩ skip (done ++ [values]) := by
      refine ⟨by simp [hindex], ?_, fun _ => by simp [hindex], h.tokens⟩
      rw [← append_assoc, h.rows, drop_append_of_le_length (by omega)]
  · exact (hnext.flush hdone).1
  · exact hnext

variable (size queryBatchBytes) in
theorem QueryStream.Follows.foldl_emit (left : List (List V)) (h : s.Follows skip done)
    (hdone : ∀ r ∈ done ++ left, r ≠ []) :
    (left.foldl (QueryStream.emit size queryBatchBytes skip) s).Follows skip (done ++ left) := by
  induction left generalizing s done with
  | nil => simpa using h
  | cons values left ih =>
    rw [append_cons] at hdone ⊢
    exact ih (h.emit fun r hr => hdone r (mem_append_left left hr)) hdone

/-- The batches of a call deliver the rows that its token does not count. -/
theorem executeQuery_delivers (hrows : ∀ r ∈ rows, r ≠ [])
    (h : executeQuery size queryBatchBytes rows token = .ok batches) :
    BigEndian.value token < 2 ^ 64 ∧
      deliveredRows batches = rows.drop (BigEndian.value token) ∧
      TokensCount (BigEndian.value token) batches := by
  unfold executeQuery at h
  split_ifs at h with hlen
  cases h
  have hstart : (⟨0, 0, [], 0, []⟩ : QueryStream V).Follows (BigEndian.value token) [] :=
    ⟨rfl, by simp [deliveredRows], by simp, fun part b hpart => by simp at hpart⟩
  obtain ⟨hend, hbatch⟩ := (hstart.foldl_emit size queryBatchBytes rows hrows).flush hrows
  have hall := hend.rows
  rw [hbatch, append_nil] at hall
  refine ⟨?_, hall, hend.tokens⟩
  by_cases hnil : token = []
  · simp [hnil]
  · have hlt := BigEndian.value_lt token
    rwa [show token.length = 8 by tauto] at hlt

/-- With the token of a batch, a second call delivers the rows behind this batch. -/
theorem executeQuery_resumes (hrows : ∀ r ∈ rows, r ≠ []) (hlen : rows.length < 2 ^ 64)
    (h : executeQuery size queryBatchBytes rows token = .ok batches)
    (hpart : part ++ [b] <+: batches) :
    ∃ rest, executeQuery size queryBatchBytes rows b.resumeToken = .ok rest ∧
      deliveredRows (part ++ [b]) ++ deliveredRows rest = deliveredRows batches := by
  obtain ⟨hskip, hall, htokens⟩ := executeQuery_delivers hrows h
  have htoken := htokens part b hpart
  have hok : ∃ rest, executeQuery size queryBatchBytes rows b.resumeToken = .ok rest := by
    unfold executeQuery
    rw [if_neg (by simp [htoken])]
    exact ⟨_, rfl⟩
  obtain ⟨rest, hrest⟩ := hok
  have hpre : deliveredRows (part ++ [b]) <+: rows.drop (BigEndian.value token) := by
    obtain ⟨after, rfl⟩ := hpart
    exact hall ▸ ⟨deliveredRows after, flatMap_append.symm⟩
  have hle := hpre.length_le
  rw [length_drop] at hle
  have hrestAll := (executeQuery_delivers hrows hrest).2.1
  rw [htoken, BigEndian.value_digits, Nat.mod_eq_of_lt (by omega), ← drop_drop] at hrestAll
  refine ⟨rest, hrest, ?_⟩
  rw [hrestAll, hall]
  exact prefix_iff_eq_append.mp hpre

variable (size queryBatchBytes) in
/-- The rows up to the batch with a token and those of a second call with this token are the
rows of the query, and so are the rows received over any number of interruptions.  A row
has at least one value, and the counters do not overflow. -/
theorem queryResults_resume (hrows : ∀ r ∈ rows, r ≠ []) (hlength : rows.length < 2 ^ 64) :
    (∃ batches, executeQuery size queryBatchBytes rows [] = .ok batches ∧
        deliveredRows batches = rows ∧
        ∀ part b, part ++ [b] <+: batches →
          ∃ rest, executeQuery size queryBatchBytes rows b.resumeToken = .ok rest ∧
            deliveredRows (part ++ [b]) ++ deliveredRows rest = rows) ∧
      ∀ got, Receives size queryBatchBytes rows [] got → got = rows := by
  -- with any token, a client receives what a whole call delivers
  have hwhole : ∀ {token got}, Receives size queryBatchBytes rows token got →
      ∃ batches, executeQuery size queryBatchBytes rows token = .ok batches ∧
        got = deliveredRows batches := by
    intro token got hgot
    induction hgot with
    | whole h => exact ⟨_, h, rfl⟩
    | interrupted h hpart _ ih =>
      obtain ⟨rest, hrest, rfl⟩ := ih
      obtain ⟨rest', hrest', hjoined⟩ := executeQuery_resumes hrows hlength h hpart
      cases hrest.symm.trans hrest'
      exact ⟨_, h, hjoined⟩
  have hok : ∃ batches, executeQuery size queryBatchBytes rows [] = .ok batches := ⟨_, rfl⟩
  obtain ⟨batches, hbatches⟩ := hok
  have hall := (executeQuery_delivers hrows hbatches).2.1
  refine ⟨⟨batches, hbatches, hall, fun part b hpart => ?_⟩, fun got hgot => ?_⟩
  · obtain ⟨rest, hrest, hjoined⟩ := executeQuery_resumes hrows hlength hbatches hpart
    exact ⟨rest, hrest, hjoined.trans hall⟩
  · obtain ⟨batches', hbatches', rfl⟩ := hwhole hgot
    exact (executeQuery_delivers hrows hbatches').2.1

/-- Three rows in batches of two bytes, broken after the first batch. -/
theorem queryResults_resume_three_rows :
    executeQuery (fun _ : Nat => 1) 2 [[1], [2], [3]] [] =
        .ok [⟨[[1], [2]], BigEndian.digits 8 2⟩, ⟨[[3]], BigEndian.digits 8 3⟩] ∧
      executeQuery (fun _ : Nat => 1) 2 [[1], [2], [3]] (BigEndian.digits 8 2) =
        .ok [⟨[[3]], BigEndian.digits 8 3⟩] ∧
      [[1], [2]] ++ [[3]] = [[1], [2], [3]] := by
  have hfirst : executeQuery (fun _ : Nat => 1) 2 [[1], [2], [3]] [] =
      .ok ([] ++ [⟨[[1], [2]], BigEndian.digits 8 2⟩] ++ [⟨[[3]], BigEndian.digits 8 3⟩]) := rfl
  have hsecond : executeQuery (fun _ : Nat => 1) 2 [[1], [2], [3]] (BigEndian.digits 8 2) =
      .ok [⟨[[3]], BigEndian.digits 8 3⟩] := rfl
  exact ⟨hfirst, hsecond, (queryResults_resume _ _ (by simp) (by simp)).2 _
    (.interrupted hfirst (prefix_append _ _) (.whole hsecond))⟩

end Batches

end Bttest
end LittleBigtable
