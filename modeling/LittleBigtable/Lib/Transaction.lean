import Mathlib.Logic.Basic

/-!
# Transactions that also change memory

A transaction executes statements on a database.  The database changes only when
every statement and the commit succeed.  Between the statements the program may
change its memory; a rollback does not undo that.

A failure is injected at a point: the start of the transaction, a statement or the
commit.  A statement can also fail by itself.
-/

namespace Transaction

universe u v w

/-- One step of the body of a transaction. -/
inductive Action (P : Type u) (M : Type v) (D : Type w)
  | exec (point : P) (run : M → D → Except String D)
  | memory (run : M → M)

/-- A failure of the storage: where it happens and its text. -/
structure Fault (P : Type u) where
  point : P
  text : String

variable {P : Type u} {M : Type v} {D : Type w} [DecidableEq P]

/-- The error of the point, if the failure is there. -/
def Fault.at? (fault : Option (Fault P)) (point : P) : Option String :=
  fault.bind (fun f => if f.point = point then some f.text else none)

/-- Execute the body; the memory after it and the new database or the error. -/
def body (fault : Option (Fault P)) :
    List (Action P M D) → M → D → M × Except String D
  | [], m, d => (m, .ok d)
  | .memory run :: rest, m, d => body fault rest (run m) d
  | .exec point run :: rest, m, d =>
    match Fault.at? fault point with
    | some err => (m, .error err)
    | none =>
      match run m d with
      | .error err => (m, .error err)
      | .ok d' => body fault rest m d'

/-- Begin, execute the body and commit. -/
def withTx (beginAt commitAt : P) (fault : Option (Fault P)) (actions : List (Action P M D)) (m : M)
    (d : D) : M × Except String D :=
  match Fault.at? fault beginAt with
  | some err => (m, .error err)
  | none =>
    match body fault actions m d with
    | (m', .error err) => (m', .error err)
    | (m', .ok d') =>
      match Fault.at? fault commitAt with
      | some err => (m', .error err)
      | none => (m', .ok d')

variable {point : P} {fault : Option (Fault P)} {err : String} {beginAt commitAt : P}
variable {actions : List (Action P M D)} {m m' : M} {d : D} {run : M → D → Except String D}
variable {rest : List (Action P M D)}

theorem at?_eq_some (h : Fault.at? fault point = some err) :
    ∃ f, fault = some f ∧ f.point = point := by
  obtain ⟨f, hf, hpoint⟩ := Option.bind_eq_some_iff.mp h
  by_cases heq : f.point = point
  · exact ⟨f, hf, heq⟩
  · rw [if_neg heq] at hpoint
    cases hpoint

theorem withTx_eq_ok {d' : D} (h : withTx beginAt commitAt fault actions m d = (m', .ok d')) :
    body fault actions m d = (m', .ok d') := by
  unfold withTx at h
  split at h
  · cases h
  split at h
  · cases h
  rename_i hbody
  split at h
  · cases h
  · rw [hbody, h]

@[simp] theorem body_memory (fault : Option (Fault P)) (run : M → M) (rest : List (Action P M D))
    (m : M) (d : D) :
    body fault (.memory run :: rest) m d = body fault rest (run m) d := by
  rfl

theorem body_exec_eq_ok {d' : D} (h : body fault (.exec point run :: rest) m d = (m', .ok d')) :
    ∃ d₁, run m d = .ok d₁ ∧ body fault rest m d₁ = (m', .ok d') := by
  unfold body at h
  split at h
  · cases h
  split at h
  · cases h
  · rename_i d₁ hrun
    exact ⟨d₁, hrun, h⟩

/-- A transaction fails at its start, in its body or at the commit. -/
theorem withTx_eq_error (h : withTx beginAt commitAt fault actions m d = (m', .error err)) :
    m' = m ∨ body fault actions m d = (m', .error err) ∨
      ∃ d', body fault actions m d = (m', .ok d') ∧ Fault.at? fault commitAt = some err := by
  unfold withTx at h
  split at h
  · cases h
    exact .inl rfl
  split at h
  · rename_i hbody
    cases h
    exact .inr (.inl hbody)
  rename_i d' hbody
  split at h
  · rename_i hcommit
    cases h
    exact .inr (.inr ⟨d', hbody, hcommit⟩)
  · cases h

/-- A body fails at its first statement, with the memory as it was, or behind it. -/
theorem body_exec_eq_error (h : body fault (.exec point run :: rest) m d = (m', .error err)) :
    (m' = m ∧ (Fault.at? fault point = some err ∨ run m d = .error err)) ∨
      ∃ d₁, run m d = .ok d₁ ∧ body fault rest m d₁ = (m', .error err) := by
  unfold body at h
  split at h
  · rename_i hat
    cases h
    exact .inl ⟨rfl, .inl hat⟩
  split at h
  · rename_i hrun
    cases h
    exact .inl ⟨rfl, .inr hrun⟩
  · rename_i d₁ hrun
    exact .inr ⟨d₁, hrun, h⟩

/-- What every change of the memory keeps holds of the memory after the body, however
the body ends. -/
theorem body_invariant (inv : M → Prop)
    (hkeeps : ∀ run, Action.memory run ∈ actions → ∀ m, inv m → inv (run m))
    (fault : Option (Fault P)) (d : D) (hm : inv m) :
    inv (body fault actions m d).1 := by
  induction actions generalizing m d with
  | nil => exact hm
  | cons action rest ih =>
    have hrest := fun run hrun => hkeeps run (List.mem_cons_of_mem action hrun)
    cases action with
    | memory run => exact ih hrest d (hkeeps run List.mem_cons_self m hm)
    | exec point run =>
      unfold body
      split
      · exact hm
      · split
        · exact hm
        · exact ih hrest _ hm

/-- The same for a transaction. -/
theorem withTx_invariant (inv : M → Prop) {result : Except String D}
    (hkeeps : ∀ run, Action.memory run ∈ actions → ∀ m, inv m → inv (run m)) (hm : inv m)
    (h : withTx beginAt commitAt fault actions m d = (m', result)) :
    inv m' := by
  have hbody := body_invariant inv hkeeps fault d hm
  unfold withTx at h
  split at h
  · cases h
    exact hm
  split at h
  · rename_i heq
    cases h
    simpa [heq] using hbody
  rename_i heq
  split at h <;>
    · cases h
      simpa [heq] using hbody

end Transaction
