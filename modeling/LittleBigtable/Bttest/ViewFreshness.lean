import LittleBigtable.Bttest.ViewSchema

/-!
# Concurrent writers of a source and readers of a view

Writers of the source table and readers of a view over it, in any number and in any
interleaving.  Each step of a thread is one lock operation, one operation on the
dirty flag, one transaction or one storage call.  The lock of the server's maps is
left out: it protects lookups only, and without it there are more interleavings.

A reader that finds the dirty flag cleared reads the stored rows at once.  The flag
is cleared before the recomputation and not after it, so a second reader may find
it cleared while the rows are still the old ones.  `viewReads_fresh` says that
this race, and a retry that returns before the write it found has been announced,
are all that can go wrong.
-/

namespace LittleBigtable
namespace Bttest

open Gsql List Transition

section Model

/-- What a write call has done: it failed, it found nothing to commit in source
state number `version`, or it made source state number `version`. -/
inductive WriteOutcome
  | failed
  | unchanged (version : Nat)
  | committed (version : Nat)

inductive WriterPhase
  | idle
  | locked
  | decided (outcome : WriteOutcome)
  | unlocked (outcome : WriteOutcome)
  | announced (version : Nat)

/-- The phases of `ReadRows` on the view, in the order of the code. -/
inductive ReaderPhase
  | idle
  | started
  /-- the flag was set; next is `refreshMu.Lock` -/
  | queued
  | locked
  /-- the flag was set and is cleared now; next is `recompute` -/
  | recomputing
  | scanning
  | scanned (visible : Except Status (List Row))
  | evaluating (visible : List Row)
  /-- the recomputation failed; next is `dirty.Store(true)` -/
  | failing (st : Status)
  | unlocking (result : Option Status)
  | reading

/-- A reader with the source states of the writes that had returned when it
started. -/
structure Reader where
  before : List Nat
  phase : ReaderPhase

/-- The state of all threads.  `earlier` and `returned` record the source states so
far and those of the writes that have returned. -/
structure SharedView where
  source : TableState
  earlier : List TableState
  storage : SqlRows
  dirty : Bool
  tblWriter : Option Nat
  tblReaders : List Nat
  refreshMu : Option Nat
  writers : Nat → WriterPhase
  readers : Nat → Reader
  returned : List Nat

namespace SharedView

/-- The number of the current source state. -/
def version (s : SharedView) : Nat :=
  s.earlier.length

def stateAt (s : SharedView) (v : Nat) : Option TableState :=
  (s.earlier ++ [s.source])[v]?

def setWriter (s : SharedView) (w : Nat) (p : WriterPhase) : SharedView :=
  { s with writers := Function.update s.writers w p }

def setReader (s : SharedView) (r : Nat) (p : ReaderPhase) : SharedView :=
  { s with readers := Function.update s.readers r { s.readers r with phase := p } }

end SharedView

inductive ViewStep
  | writerLock (w : Nat)
  | writerCommit (w : Nat) (c : Call)
  | writerUnlock (w : Nat)
  | writerAnnounce (w : Nat)
  | writerReturn (w : Nat)
  | readerStart (r : Nat)
  | readerLoad (r : Nat)
  | readerLock (r : Nat)
  | readerSwap (r : Nat)
  | readerRLock (r : Nat)
  | readerScan (r : Nat) (now : Int) (failure : Option Status)
  | readerRUnlock (r : Nat)
  | readerStore (r : Nat) (txError : Option Status)
  | readerRestore (r : Nat)
  | readerUnlock (r : Nat)
  | readerReturn (r : Nat)

namespace SharedView

/-- The part of a write call under the lock of the table: what it stages from the
current rows and its transaction. -/
def commit (s : SharedView) (w : Nat) (c : Call) : SharedView :=
  match s.source.call c with
  | none => s.setWriter w (.decided .failed)
  | some source' =>
    if s.source.commits c then
      { s with source := source', earlier := s.earlier ++ [s.source] }.setWriter w
        (.decided (.committed (s.version + 1)))
    else
      { s with source := source' }.setWriter w (.decided (.unchanged s.version))

/-- One step of one thread; `none` when the thread is not there or has to wait. -/
def next (q : ViewQuery) (s : SharedView) : ViewStep → Option SharedView
  | .writerLock w =>
    match s.writers w with
    | .idle =>
      if s.tblWriter = none ∧ s.tblReaders = [] then
        some ({ s with tblWriter := some w }.setWriter w .locked)
      else
        none
    | _ => none
  | .writerCommit w c =>
    match s.writers w with
    | .locked => if c.writesData then some (s.commit w c) else none
    | _ => none
  | .writerUnlock w =>
    match s.writers w with
    | .decided outcome => some ({ s with tblWriter := none }.setWriter w (.unlocked outcome))
    | _ => none
  | .writerAnnounce w =>
    match s.writers w with
    | .unlocked (.committed v) => some ({ s with dirty := true }.setWriter w (.announced v))
    | _ => none
  | .writerReturn w =>
    match s.writers w with
    | .unlocked .failed => some (s.setWriter w .idle)
    | .unlocked (.unchanged v) => some ({ s with returned := v :: s.returned }.setWriter w .idle)
    | .announced v => some ({ s with returned := v :: s.returned }.setWriter w .idle)
    | _ => none
  | .readerStart r =>
    match (s.readers r).phase with
    | .idle =>
      some { s with
        readers := Function.update s.readers r ⟨s.returned, .started⟩ }
    | _ => none
  | .readerLoad r =>
    match (s.readers r).phase with
    | .started => some (s.setReader r (if s.dirty then .queued else .reading))
    | _ => none
  | .readerLock r =>
    match (s.readers r).phase with
    | .queued =>
      if s.refreshMu = none then
        some ({ s with refreshMu := some r }.setReader r .locked)
      else
        none
    | _ => none
  | .readerSwap r =>
    match (s.readers r).phase with
    | .locked =>
      -- another reader may have recomputed the view meanwhile
      some ({ s with dirty := false }.setReader r
        (if s.dirty then .recomputing else .unlocking none))
    | _ => none
  | .readerRLock r =>
    match (s.readers r).phase with
    | .recomputing =>
      if s.tblWriter = none then
        some ({ s with tblReaders := r :: s.tblReaders }.setReader r .scanning)
      else
        none
    | _ => none
  | .readerScan r now failure =>
    match (s.readers r).phase with
    | .scanning =>
      some (s.setReader r (.scanned (match failure with
          | some st => .error st
          | none => .ok (visibleRows s.source.tbl s.source.db.rows now))))
    | _ => none
  | .readerRUnlock r =>
    match (s.readers r).phase with
    | .scanned visible =>
      some ({ s with tblReaders := s.tblReaders.erase r }.setReader r (match visible with
          | .error st => .failing st
          | .ok rows => .evaluating rows))
    | _ => none
  | .readerStore r txError =>
    match (s.readers r).phase with
    | .evaluating visible =>
      match q.evaluate visible with
      | .error st => some (s.setReader r (.failing st))
      | .ok evaluated =>
        match recompute q.definition evaluated txError with
        | .error st => some (s.setReader r (.failing st))
        | .ok rows => some ({ s with storage := rows }.setReader r (.unlocking none))
    | _ => none
  | .readerRestore r =>
    match (s.readers r).phase with
    | .failing st => some ({ s with dirty := true }.setReader r (.unlocking (some st)))
    | _ => none
  | .readerUnlock r =>
    match (s.readers r).phase with
    | .unlocking none => some ({ s with refreshMu := none }.setReader r .reading)
    | .unlocking (some _) => some ({ s with refreshMu := none }.setReader r .idle)
    | _ => none
  | .readerReturn r =>
    match (s.readers r).phase with
    | .reading => some (s.setReader r .idle)
    | _ => none

end SharedView

/-- A new view over a table, before any thread. -/
def quietView (source : TableState) (storage : SqlRows) : SharedView where
  source := source
  earlier := []
  storage := storage
  dirty := true
  tblWriter := none
  tblReaders := []
  refreshMu := none
  writers := fun _ => .idle
  readers := fun _ => ⟨[], .idle⟩
  returned := []

/-- The source state that a writer has made and not announced. -/
def WriterPhase.unannounced : WriterPhase → Option Nat
  | .decided (.committed v) => some v
  | .unlocked (.committed v) => some v
  | _ => none

/-- The flag is cleared for a recomputation that has not stored its rows. -/
def ReaderPhase.inFlight : ReaderPhase → Prop
  | .recomputing => True
  | .scanning => True
  | .scanned _ => True
  | .evaluating _ => True
  | .failing _ => True
  | _ => False

/-- No reader finds the flag cleared by a recomputation in flight, and no call
without commits returns while the source state it found is not announced. -/
def NoRace (s : SharedView) : ViewStep → Prop
  | .readerLoad _ => s.dirty = false → ∀ r, ¬ (s.readers r).phase.inFlight
  | .writerReturn w =>
    ∀ v, s.writers w = .unlocked (.unchanged v) → ∀ w', (s.writers w').unannounced ≠ some v
  | _ => True

end Model

section Writers

/-- The source state that a writer has made. -/
def WriterPhase.made : WriterPhase → Option Nat
  | .announced v => some v
  | p => p.unannounced

/-- The source state in which a writer found nothing to commit. -/
def WriterPhase.found : WriterPhase → Option Nat
  | .decided (.unchanged v) => some v
  | .unlocked (.unchanged v) => some v
  | _ => none

/-- What a step of writer `w` can do. -/
inductive WriterMove (s : SharedView) (w : Nat) : SharedView → Prop
  | lock
      (hw : s.writers w = .idle) :
      WriterMove s w ({ s with tblWriter := some w }.setWriter w .locked)
  | fail (hw : s.writers w = .locked) : WriterMove s w (s.setWriter w (.decided .failed))
  | find
      (hw : s.writers w = .locked) :
      WriterMove s w (s.setWriter w (.decided (.unchanged s.version)))
  | commit
      (hw : s.writers w = .locked)
      (source' : TableState) :
      WriterMove s w
        ({ s with source := source', earlier := s.earlier ++ [s.source] }.setWriter w
          (.decided (.committed (s.version + 1))))
  | unlock
      (outcome : WriteOutcome)
      (hw : s.writers w = .decided outcome) :
      WriterMove s w ({ s with tblWriter := none }.setWriter w (.unlocked outcome))
  | announce
      (v : Nat)
      (hw : s.writers w = .unlocked (.committed v)) :
      WriterMove s w ({ s with dirty := true }.setWriter w (.announced v))
  | returnError (hw : s.writers w = .unlocked .failed) : WriterMove s w (s.setWriter w .idle)
  | returnFound
      (v : Nat)
      (hw : s.writers w = .unlocked (.unchanged v))
      (hrace : ∀ w', (s.writers w').unannounced ≠ some v) :
      WriterMove s w ({ s with returned := v :: s.returned }.setWriter w .idle)
  | returnMade
      (v : Nat)
      (hw : s.writers w = .announced v) :
      WriterMove s w ({ s with returned := v :: s.returned }.setWriter w .idle)

variable {s : SharedView} {w v : Nat}

theorem commit_move {c : Call} (hw : s.writers w = .locked) (hc : c.writesData = true) :
    WriterMove s w (s.commit w c) := by
  unfold SharedView.commit
  cases hcall : s.source.call c with
  | none => exact .fail hw
  | some source' =>
    cases hcommits : s.source.commits c with
    | true => exact .commit hw source'
    | false =>
      have hsource : source' = s.source :=
        call_of_not_commits hcall hcommits (by rintro protoSize txFailure mods rfl; cases hc)
      subst hsource
      exact .find hw

/-- The versions that writers hold fit together: none is ahead of the source, two
writers have not made the same state, and a state that a returned write made or
found has been announced. -/
structure SharedView.WritersOk (s : SharedView) : Prop where
  returned_le : ∀ u ∈ s.returned, u ≤ s.version
  made_le : ∀ w v, (s.writers w).made = some v → v ≤ s.version
  found_le : ∀ w v, (s.writers w).found = some v → v ≤ s.version
  made_inj : ∀ w w' v, (s.writers w).made = some v → (s.writers w').made = some v → w = w'
  announced : ∀ u ∈ s.returned, ∀ w, (s.writers w).unannounced ≠ some u

theorem made_of_unannounced {p : WriterPhase} (h : p.unannounced = some v) :
    p.made = some v := by
  cases p <;> first | exact h | cases h

@[simp] theorem setWriter_writers (s : SharedView) (w w' : Nat) (p : WriterPhase) :
    (s.setWriter w p).writers w' = if w' = w then p else s.writers w' := by
  simp [SharedView.setWriter, Function.update_apply]

/-- A writer enters a phase whose versions are its own and up to date. -/
theorem SharedView.WritersOk.setWriter (h : s.WritersOk) (w : Nat) (p : WriterPhase)
    (hmade : ∀ v, p.made = some v → v ≤ s.version ∧ ∀ w', w' ≠ w → (s.writers w').made ≠ some v)
    (hfound : ∀ v, p.found = some v → v ≤ s.version)
    (hann : ∀ v, p.unannounced = some v → v ∉ s.returned) :
    (s.setWriter w p).WritersOk where
  returned_le := h.returned_le
  made_le w' v hv := by
    rw [setWriter_writers] at hv
    split_ifs at hv with hw
    · exact (hmade v hv).1
    · exact h.made_le w' v hv
  found_le w' v hv := by
    rw [setWriter_writers] at hv
    split_ifs at hv with hw
    · exact hfound v hv
    · exact h.found_le w' v hv
  made_inj w₁ w₂ v h₁ h₂ := by
    rw [setWriter_writers] at h₁ h₂
    split_ifs at h₁ h₂ with hw₁ hw₂ hw₂
    · exact hw₁.trans hw₂.symm
    · exact absurd h₂ ((hmade v h₁).2 w₂ hw₂)
    · exact absurd h₁ ((hmade v h₂).2 w₁ hw₁)
    · exact h.made_inj w₁ w₂ v h₁ h₂
  announced u hu w' hw' := by
    rw [setWriter_writers] at hw'
    split_ifs at hw' with hw
    · exact hann u hw' hu
    · exact h.announced u hu w' hw'

/-- A writer enters a phase in which it holds no version. -/
theorem SharedView.WritersOk.setWriter_none (h : s.WritersOk) (w : Nat) {p : WriterPhase}
    (hmade : p.made = none) (hfound : p.found = none) :
    (s.setWriter w p).WritersOk := by
  refine h.setWriter w p ?_ ?_ ?_
  · intro v hv
    rw [hmade] at hv
    cases hv
  · intro v hv
    rw [hfound] at hv
    cases hv
  · intro v hv
    rw [made_of_unannounced hv] at hmade
    cases hmade

/-- A write returns in a state that has been announced. -/
theorem SharedView.WritersOk.withReturned (h : s.WritersOk) (hv : v ≤ s.version)
    (hann : ∀ w, (s.writers w).unannounced ≠ some v) :
    SharedView.WritersOk { s with returned := v :: s.returned } where
  returned_le u hu := by
    rcases mem_cons.mp hu with rfl | hu
    · exact hv
    · exact h.returned_le u hu
  made_le := h.made_le
  found_le := h.found_le
  made_inj := h.made_inj
  announced u hu := by
    rcases mem_cons.mp hu with rfl | hu
    · exact hann
    · exact h.announced u hu

theorem SharedView.WritersOk.extend (h : s.WritersOk) (source' : TableState) :
    SharedView.WritersOk { s with source := source', earlier := s.earlier ++ [s.source] } := by
  have hle : s.version ≤ (s.earlier ++ [s.source]).length := by
    simp [SharedView.version]
  exact ⟨fun u hu => (h.returned_le u hu).trans hle,
    fun w v hv => (h.made_le w v hv).trans hle,
    fun w v hv => (h.found_le w v hv).trans hle, h.made_inj, h.announced⟩

theorem WriterMove.writersOk {s' : SharedView} (hmove : WriterMove s w s') (h : s.WritersOk) :
    s'.WritersOk := by
  cases hmove with
  | lock hw =>
    have hlocked : SharedView.WritersOk { s with tblWriter := some w } := ⟨h.1, h.2, h.3, h.4, h.5⟩
    exact hlocked.setWriter_none w rfl rfl
  | fail | returnError => exact h.setWriter_none w rfl rfl
  | find hw =>
    refine h.setWriter w _ ?_ ?_ ?_
    · rintro v ⟨⟩
    · rintro v ⟨⟩
      exact le_rfl
    · rintro v ⟨⟩
  | commit hw source' =>
    refine (h.extend source').setWriter w _ ?_ ?_ ?_
    · rintro v ⟨⟩
      refine ⟨by simp [SharedView.version], fun w' _ hw' => ?_⟩
      exact absurd (h.made_le w' _ hw') (by omega)
    · rintro v ⟨⟩
    · rintro v ⟨⟩ hv
      exact absurd (h.returned_le _ hv) (by omega)
  | unlock outcome hw =>
    have hp : ∀ v, (WriterPhase.unlocked outcome).unannounced = some v →
        (s.writers w).unannounced = some v := by
      intro v hv
      rw [hw]
      cases outcome <;> exact hv
    have hunlocked : SharedView.WritersOk { s with tblWriter := none } := ⟨h.1, h.2, h.3, h.4, h.5⟩
    refine hunlocked.setWriter w _ ?_ ?_ ?_
    · intro v hv
      have hmade := made_of_unannounced (hp v hv)
      exact ⟨h.made_le w v hmade, fun w' hne hw' => hne (h.made_inj w' w v hw' hmade)⟩
    · intro v hv
      refine h.found_le w v ?_
      rw [hw]
      cases outcome <;> exact hv
    · intro v hv hmem
      exact h.announced v hmem w (hp v hv)
  | announce v hw =>
    have hmade : (s.writers w).made = some v := by
      rw [hw]
      rfl
    have hdirty : SharedView.WritersOk { s with dirty := true } := ⟨h.1, h.2, h.3, h.4, h.5⟩
    refine hdirty.setWriter w _ ?_ ?_ ?_
    · rintro v' ⟨⟩
      exact ⟨h.made_le w v hmade, fun w' hne hw' => hne (h.made_inj w' w v hw' hmade)⟩
    · rintro v' ⟨⟩
    · rintro v' ⟨⟩
  | returnFound v hw hrace =>
    have hv : v ≤ s.version := h.found_le w v (by rw [hw]; rfl)
    exact (h.withReturned hv hrace).setWriter_none w rfl rfl
  | returnMade v hw =>
    have hmade : (s.writers w).made = some v := by
      rw [hw]
      rfl
    refine (h.withReturned (h.made_le w v hmade) (fun w' hw' => ?_)).setWriter_none w rfl rfl
    obtain rfl := h.made_inj w' w v (made_of_unannounced hw') hmade
    rw [hw] at hw'
    cases hw'

/-- Every source state after number `v` has been made by a writer that has not
announced it yet. -/
def SharedView.Pending (s : SharedView) (v : Nat) : Prop :=
  ∀ u, v < u → u ≤ s.version → ∃ w, (s.writers w).unannounced = some u

/-- Then all writes that have returned are in source state number `v`. -/
theorem SharedView.WritersOk.returned_le_of_pending (h : s.WritersOk) (hv : s.Pending v) (u : Nat)
    (hu : u ∈ s.returned) :
    u ≤ v := by
  by_contra hlt
  obtain ⟨w, hw⟩ := hv u (by omega) (h.returned_le u hu)
  exact h.announced u hu w hw

/-- What readers see of the step of a writer. -/
structure SeenByReaders (s s' : SharedView) : Prop where
  readers : s'.readers = s.readers
  storage : s'.storage = s.storage
  refreshMu : s'.refreshMu = s.refreshMu
  stateAt : ∀ v src, s.stateAt v = some src → s'.stateAt v = some src
  returned : ∀ u ∈ s.returned, u ∈ s'.returned
  dirty : s'.dirty = false → s.dirty = false
  pending : s'.dirty = false → ∀ v, s.Pending v → s'.Pending v

theorem SharedView.Pending.setWriter (h : s.Pending v) (hw : (s.writers w).unannounced = none)
    (p : WriterPhase) :
    (s.setWriter w p).Pending v := by
  intro u hlt hle
  obtain ⟨w', hw'⟩ := h u hlt hle
  refine ⟨w', ?_⟩
  have hne : w' ≠ w := by
    rintro rfl
    rw [hw] at hw'
    cases hw'
  rw [setWriter_writers, if_neg hne]
  exact hw'

theorem seenByReaders_setWriter (p : WriterPhase) (tblWriter : Option Nat) (returned : List Nat)
    (hreturned : ∀ u ∈ s.returned, u ∈ returned)
    (hpending : ∀ v, s.Pending v → (s.setWriter w p).Pending v) :
    SeenByReaders s ({ s with tblWriter := tblWriter, returned := returned }.setWriter w p) :=
  ⟨rfl, rfl, rfl, fun _ _ h => h, hreturned, id, fun _ => hpending⟩

theorem WriterMove.seenByReaders {s' : SharedView} (hmove : WriterMove s w s') :
    SeenByReaders s s' := by
  have hmoved : ∀ {p₀ : WriterPhase} (p : WriterPhase), s.writers w = p₀ →
      p₀.unannounced = none → ∀ v, s.Pending v → (s.setWriter w p).Pending v :=
    fun p hw hp v hv => hv.setWriter (by rw [hw, hp]) p
  cases hmove with
  | lock hw | fail hw | find hw | returnError hw =>
    exact seenByReaders_setWriter _ _ _ (fun _ h => h) (hmoved _ hw rfl)
  | commit hw source' =>
    refine ⟨rfl, rfl, rfl, ?_, fun _ h => h, id, ?_⟩
    · intro v src hsrc
      have hlt : v < (s.earlier ++ [s.source]).length := (List.getElem?_eq_some_iff.mp hsrc).1
      exact (List.getElem?_append_left hlt).trans hsrc
    intro _ v hv u hlt hle
    by_cases hu : u = s.version + 1
    · refine ⟨w, ?_⟩
      rw [setWriter_writers, if_pos rfl, hu]
      rfl
    have hle' : u ≤ s.version := by
      simp only [SharedView.version, SharedView.setWriter, length_append,
        length_singleton] at hle hu ⊢
      omega
    exact hmoved (.decided (.committed (s.version + 1))) hw rfl v hv u hlt hle'
  | unlock outcome hw =>
    refine seenByReaders_setWriter _ _ _ (fun _ h => h) ?_
    intro v hv u hlt hle
    obtain ⟨w', hw'⟩ := hv u hlt hle
    refine ⟨w', ?_⟩
    rw [setWriter_writers]
    split_ifs with heq
    · subst heq
      rw [hw] at hw'
      cases outcome <;> exact hw'
    · exact hw'
  | announce v hw => exact ⟨rfl, rfl, rfl, fun _ _ h => h, fun _ h => h, nofun, nofun⟩
  | returnFound _ hw | returnMade _ hw =>
    exact seenByReaders_setWriter _ _ _ (fun _ h => mem_cons_of_mem _ h) (hmoved _ hw rfl)

end Writers

section Readers

variable {q : ViewQuery}

/-- The reader holds `refreshMu`. -/
def ReaderPhase.holding : ReaderPhase → Prop
  | .locked => True
  | .unlocking _ => True
  | p => p.inFlight

/-- The stored rows are the contents of the view in source state number `v`. -/
def SharedView.StoredAt (q : ViewQuery) (s : SharedView) (v : Nat) : Prop :=
  ∃ src now, s.stateAt v = some src ∧ q.contents src now = .ok s.storage

/-- The rows are those visible in source state number `v`. -/
def SharedView.VisibleAt (s : SharedView) (rows : List Row) (v : Nat) : Prop :=
  ∃ src now, s.stateAt v = some src ∧ rows = visibleRows src.tbl src.db.rows now

/-- The phase of a reader that has the visible rows of the source. -/
def ReaderPhase.visible : ReaderPhase → Option (List Row)
  | .scanned (.ok rows) => some rows
  | .evaluating rows => some rows
  | _ => none

/-- The reader may read the stored rows, or has only to release the lock before. -/
def ReaderPhase.served : ReaderPhase → Prop
  | .reading => True
  | .unlocking none => True
  | _ => False

/-- Source state number `v` is new enough for reader `r` and for all readers that
are reading. -/
def SharedView.Covers (s : SharedView) (r v : Nat) : Prop :=
  ∀ r', r' = r ∨ (s.readers r').phase = .reading → ∀ u ∈ (s.readers r').before, u ≤ v

/-- What readers rely on: stored rows that they read are new enough, and so are
the rows that a recomputation will store. -/
structure SharedView.ReadersOk (q : ViewQuery) (s : SharedView) : Prop where
  mutex : ∀ r, (s.readers r).phase.holding → s.refreshMu = some r
  before : ∀ r, ∀ u ∈ (s.readers r).before, u ∈ s.returned
  served : ∀ r, (s.readers r).phase.served → ∃ v, s.StoredAt q v ∧ ∀ u ∈ (s.readers r).before, u ≤ v
  visible : ∀ r rows, (s.readers r).phase.visible = some rows →
    ∃ v, s.VisibleAt rows v ∧ s.Covers r v ∧ (s.dirty = false → s.Pending v)
  stored : s.dirty = false → (∀ r, ¬ (s.readers r).phase.inFlight) →
    ∃ v, s.StoredAt q v ∧ s.Pending v

variable {s s' : SharedView} {r : Nat} {p : ReaderPhase}

theorem SeenByReaders.readersOk (hseen : SeenByReaders s s') (h : s.ReadersOk q) :
    s'.ReadersOk q := by
  have hstored : ∀ v, s.StoredAt q v → s'.StoredAt q v := by
    rintro v ⟨src, now, hsrc, hrows⟩
    exact ⟨src, now, hseen.stateAt v src hsrc, by rw [hseen.storage, hrows]⟩
  refine ⟨?_, ?_, ?_, ?_, ?_⟩
  · intro r hr
    rw [hseen.readers] at hr
    rw [hseen.refreshMu]
    exact h.mutex r hr
  · intro r u hu
    rw [hseen.readers] at hu
    exact hseen.returned u (h.before r u hu)
  · intro r hr
    rw [hseen.readers] at hr ⊢
    obtain ⟨v, hv, hbefore⟩ := h.served r hr
    exact ⟨v, hstored v hv, hbefore⟩
  · intro r rows hr
    rw [hseen.readers] at hr
    obtain ⟨v, ⟨src, now, hsrc, hrows⟩, hcovers, hpending⟩ := h.visible r rows hr
    refine ⟨v, ⟨src, now, hseen.stateAt v src hsrc, hrows⟩, ?_,
      fun hd => hseen.pending hd v (hpending (hseen.dirty hd))⟩
    unfold SharedView.Covers
    rw [hseen.readers]
    exact hcovers
  · intro hd hflight
    rw [hseen.readers] at hflight
    obtain ⟨v, hv, hpending⟩ := h.stored (hseen.dirty hd) hflight
    exact ⟨v, hstored v hv, hseen.pending hd v hpending⟩

@[simp] theorem setReader_readers (s : SharedView) (r r' : Nat) (p : ReaderPhase) :
    (s.setReader r p).readers r' =
      if r' = r then { s.readers r with phase := p } else s.readers r' := by
  simp [SharedView.setReader, Function.update_apply]

/-- What a step of reader `r` can do. -/
inductive ReaderMove (q : ViewQuery) (s : SharedView) (r : Nat) : SharedView → Prop
  | start
      (hr : (s.readers r).phase = .idle) :
      ReaderMove q s r { s with
        readers := Function.update s.readers r ⟨s.returned, .started⟩ }
  | loadSet (hr : (s.readers r).phase = .started) : ReaderMove q s r (s.setReader r .queued)
  | loadClear
      (hr : (s.readers r).phase = .started)
      (hdirty : s.dirty = false)
      (hrace : ∀ r', ¬ (s.readers r').phase.inFlight) :
      ReaderMove q s r (s.setReader r .reading)
  | lock
      (hr : (s.readers r).phase = .queued)
      (hmu : s.refreshMu = none) :
      ReaderMove q s r ({ s with refreshMu := some r }.setReader r .locked)
  | swapSet
      (hr : (s.readers r).phase = .locked) :
      ReaderMove q s r ({ s with dirty := false }.setReader r .recomputing)
  | swapClear
      (hr : (s.readers r).phase = .locked)
      (hdirty : s.dirty = false) :
      ReaderMove q s r (s.setReader r (.unlocking none))
  | rlock
      (hr : (s.readers r).phase = .recomputing) :
      ReaderMove q s r ({ s with tblReaders := r :: s.tblReaders }.setReader r .scanning)
  | scan
      (now : Int)
      (hr : (s.readers r).phase = .scanning) :
      ReaderMove q s r (s.setReader r
        (.scanned (.ok (visibleRows s.source.tbl s.source.db.rows now))))
  | scanError
      (st : Status)
      (hr : (s.readers r).phase = .scanning) :
      ReaderMove q s r (s.setReader r (.scanned (.error st)))
  | runlock
      (rows : List Row)
      (hr : (s.readers r).phase = .scanned (.ok rows)) :
      ReaderMove q s r ({ s with tblReaders := s.tblReaders.erase r }.setReader r
        (.evaluating rows))
  | runlockError
      (st : Status)
      (hr : (s.readers r).phase = .scanned (.error st)) :
      ReaderMove q s r ({ s with tblReaders := s.tblReaders.erase r }.setReader r (.failing st))
  | store
      (visible : List Row) (rows : SqlRows)
      (hr : (s.readers r).phase = .evaluating visible)
      (hrows : ∀ (source : TableState) (now : Int),
        visible = visibleRows source.tbl source.db.rows now →
        q.contents source now = .ok rows) :
      ReaderMove q s r ({ s with storage := rows }.setReader r (.unlocking none))
  | storeError
      (visible : List Row) (st : Status)
      (hr : (s.readers r).phase = .evaluating visible) :
      ReaderMove q s r (s.setReader r (.failing st))
  | restore
      (st : Status)
      (hr : (s.readers r).phase = .failing st) :
      ReaderMove q s r ({ s with dirty := true }.setReader r (.unlocking (some st)))
  | unlock
      (hr : (s.readers r).phase = .unlocking none) :
      ReaderMove q s r ({ s with refreshMu := none }.setReader r .reading)
  | unlockError
      (st : Status)
      (hr : (s.readers r).phase = .unlocking (some st)) :
      ReaderMove q s r ({ s with refreshMu := none }.setReader r .idle)
  | finish (hr : (s.readers r).phase = .reading) : ReaderMove q s r (s.setReader r .idle)

theorem ReaderMove.writersOk (hmove : ReaderMove q s r s') (h : s.WritersOk) :
    s'.WritersOk := by
  cases hmove <;> exact ⟨h.1, h.2, h.3, h.4, h.5⟩

theorem holding_of_inFlight (h : p.inFlight) :
    p.holding := by
  cases p <;> first | exact h | trivial

theorem inFlight_of_visible {rows : List Row} (h : p.visible = some rows) :
    p.inFlight := by
  cases p <;> trivial

theorem served_cases (h : p.served) :
    p = .reading ∨ p = .unlocking none := by
  cases p with
  | reading => exact .inl rfl
  | unlocking result =>
    cases result with
    | none => exact .inr rfl
    | some st => exact h.elim
  | _ => exact h.elim

/-- At most one reader holds `refreshMu`. -/
theorem SharedView.ReadersOk.holder_eq (h : s.ReadersOk q) {r' : Nat}
    (hr : (s.readers r).phase.holding) (hr' : (s.readers r').phase.holding) :
    r' = r := by
  have hmu := h.mutex r hr
  rw [h.mutex r' hr'] at hmu
  exact Option.some.inj hmu

/-- The stored rows are new enough for every reader, when the flag is cleared and
no recomputation is in flight. -/
theorem SharedView.ReadersOk.fresh (h : s.ReadersOk q) (hw : s.WritersOk) (hdirty : s.dirty = false)
    (hflight : ∀ r, ¬ (s.readers r).phase.inFlight) (r : Nat) :
    ∃ v, s.StoredAt q v ∧ ∀ u ∈ (s.readers r).before, u ≤ v := by
  obtain ⟨v, hv, hpending⟩ := h.stored hdirty hflight
  exact ⟨v, hv, fun u hu => hw.returned_le_of_pending hpending u (h.before r u hu)⟩

theorem SharedView.Covers.setReader {r₁ v : Nat} (h : s.Covers r₁ v) (hp : p ≠ .reading) :
    (s.setReader r p).Covers r₁ v := by
  intro r' hr' u hu
  rw [setReader_readers] at hr' hu
  split_ifs at hr' hu with heq
  · subst heq
    rcases hr' with rfl | hreading
    · exact h r' (.inl rfl) u hu
    · exact absurd hreading hp
  · exact h r' hr' u hu

/-- A reader enters the phase `p`, and the flag and the stored rows stay. -/
theorem SharedView.ReadersOk.move (h : s.ReadersOk q) (p : ReaderPhase) (refreshMu : Option Nat)
    (tblReaders : List Nat)
    (hmutex : ∀ r', r' ≠ r → (s.readers r').phase.holding → refreshMu = some r')
    (hself : p.holding → refreshMu = some r)
    (hserved : p.served → ∃ v, s.StoredAt q v ∧ ∀ u ∈ (s.readers r).before, u ≤ v)
    (hvis : ∀ rows, p.visible = some rows →
      ∃ v, s.VisibleAt rows v ∧ s.Covers r v ∧ (s.dirty = false → s.Pending v))
    (hreading : p = .reading → ∀ r', r' ≠ r → (s.readers r').phase.visible = none)
    (hflight : (s.readers r).phase.inFlight → p.inFlight) :
    SharedView.ReadersOk q
      ({ s with refreshMu := refreshMu, tblReaders := tblReaders }.setReader r p) := by
  refine ⟨?_, ?_, ?_, ?_, ?_⟩
  · intro r' hr'
    rw [setReader_readers] at hr'
    split_ifs at hr' with heq
    · subst heq
      exact hself hr'
    · exact hmutex r' heq hr'
  · intro r' u hu
    rw [setReader_readers] at hu
    split_ifs at hu with heq
    · exact h.before r u hu
    · exact h.before r' u hu
  · intro r' hr'
    rw [setReader_readers] at hr' ⊢
    split_ifs at hr' ⊢ with heq
    · exact hserved hr'
    · exact h.served r' hr'
  · intro r' rows hr'
    have hp : p ≠ .reading := by
      rintro rfl
      rw [setReader_readers] at hr'
      split_ifs at hr' with heq
      · cases hr'
      · rw [hreading rfl r' heq] at hr'
        cases hr'
    have hfound : ∃ v, s.VisibleAt rows v ∧ s.Covers r' v ∧ (s.dirty = false → s.Pending v) := by
      rw [setReader_readers] at hr'
      split_ifs at hr' with heq
      · subst heq
        exact hvis rows hr'
      · exact h.visible r' rows hr'
    obtain ⟨v, hrows, hcovers, hpending⟩ := hfound
    exact ⟨v, hrows, SharedView.Covers.setReader hcovers hp, hpending⟩
  · intro hdirty hnone
    refine h.stored hdirty (fun r' hr' => hnone r' ?_)
    rw [setReader_readers]
    split_ifs with heq
    · subst heq
      exact hflight hr'
    · exact hr'

theorem SharedView.ReadersOk.moveInFlight (h : s.ReadersOk q) {p₀ : ReaderPhase}
    (hr : (s.readers r).phase = p₀) (hp₀ : p₀.inFlight) (p : ReaderPhase) (hp : p.inFlight)
    (tblReaders : List Nat)
    (hvis : ∀ rows, p.visible = some rows →
      ∃ v, s.VisibleAt rows v ∧ s.Covers r v ∧ (s.dirty = false → s.Pending v)) :
    SharedView.ReadersOk q ({ s with tblReaders := tblReaders }.setReader r p) := by
  have hmu : s.refreshMu = some r := h.mutex r (holding_of_inFlight (by rw [hr]; exact hp₀))
  refine h.move p s.refreshMu tblReaders (fun r' _ => h.mutex r') (fun _ => hmu) ?_
    hvis ?_ (fun _ => hp)
  · intro hserved
    rcases served_cases hserved with rfl | rfl
    · cases hp
    · cases hp
  · rintro rfl
    cases hp

/-- The holder of `refreshMu` sets or clears the flag, and no other recomputation
is in flight. -/
theorem SharedView.ReadersOk.setDirty (h : s.ReadersOk q) (hheld : (s.readers r).phase.holding)
    {dirty : Bool} (hserved : ¬ p.served) (hvis : p.visible = none)
    (hflight : dirty = false → p.inFlight) :
    SharedView.ReadersOk q ({ s with dirty := dirty }.setReader r p) := by
  refine ⟨?_, ?_, ?_, ?_, ?_⟩
  · intro r' hr'
    rw [setReader_readers] at hr'
    split_ifs at hr' with heq
    · subst heq
      exact h.mutex r' hheld
    · exact h.mutex r' hr'
  · intro r' u hu
    rw [setReader_readers] at hu
    split_ifs at hu with heq
    · exact h.before r u hu
    · exact h.before r' u hu
  · intro r' hr'
    rw [setReader_readers] at hr' ⊢
    split_ifs at hr' ⊢ with heq
    · exact absurd hr' hserved
    · exact h.served r' hr'
  · intro r' rows hr'
    rw [setReader_readers] at hr'
    split_ifs at hr' with heq
    · rw [hvis] at hr'
      cases hr'
    · exact absurd (h.holder_eq hheld (holding_of_inFlight (inFlight_of_visible hr'))) heq
  · intro hdirty hnone
    refine absurd ?_ (hnone r)
    rw [setReader_readers, if_pos rfl]
    exact hflight hdirty

/-- A recomputation stores the rows it made from what it had scanned. -/
theorem SharedView.ReadersOk.store (h : s.ReadersOk q) {visible : List Row} {rows : SqlRows}
    (hr : (s.readers r).phase = .evaluating visible)
    (hrows : ∀ (source : TableState) (now : Int),
      visible = visibleRows source.tbl source.db.rows now →
      q.contents source now = .ok rows) :
    SharedView.ReadersOk q ({ s with storage := rows }.setReader r (.unlocking none)) := by
  have hheld : (s.readers r).phase.holding := by
    rw [hr]
    trivial
  obtain ⟨v, ⟨src, now, hsrc, hvis⟩, hcovers, hpending⟩ := h.visible r visible (by rw [hr]; rfl)
  have hstored : SharedView.StoredAt q
      ({ s with storage := rows }.setReader r (.unlocking none)) v :=
    ⟨src, now, hsrc, hrows src now hvis⟩
  refine ⟨?_, ?_, ?_, ?_, ?_⟩
  · intro r' hr'
    rw [setReader_readers] at hr'
    split_ifs at hr' with heq
    · subst heq
      exact h.mutex r' hheld
    · exact h.mutex r' hr'
  · intro r' u hu
    rw [setReader_readers] at hu
    split_ifs at hu with heq
    · exact h.before r u hu
    · exact h.before r' u hu
  · intro r' hr'
    refine ⟨v, hstored, ?_⟩
    rw [setReader_readers] at hr' ⊢
    split_ifs at hr' ⊢ with heq
    · exact hcovers r (.inl rfl)
    · rcases served_cases hr' with hreading | hunlocking
      · exact hcovers r' (.inr hreading)
      · exact absurd (h.holder_eq hheld (by rw [hunlocking]; trivial)) heq
  · intro r' rows hr'
    rw [setReader_readers] at hr'
    split_ifs at hr' with heq
    · cases hr'
    · exact absurd (h.holder_eq hheld (holding_of_inFlight (inFlight_of_visible hr'))) heq
  · exact fun hdirty _ => ⟨v, hstored, hpending hdirty⟩

/-- A reader starts. -/
theorem SharedView.ReadersOk.start (h : s.ReadersOk q) (hr : (s.readers r).phase = .idle) :
    SharedView.ReadersOk q { s with
      readers := Function.update s.readers r ⟨s.returned, .started⟩ } := by
  refine ⟨?_, ?_, ?_, ?_, ?_⟩ <;> simp only [Function.update_apply]
  · intro r' hr'
    split_ifs at hr'
    · cases hr'
    · exact h.mutex r' hr'
  · intro r' u hu
    split_ifs at hu
    · exact hu
    · exact h.before r' u hu
  · intro r' hr'
    split_ifs at hr' ⊢
    · cases hr'
    · exact h.served r' hr'
  · intro r' rows hr'
    split_ifs at hr' with heq
    · cases hr'
    obtain ⟨v, hv, hcovers, hpending⟩ := h.visible r' rows hr'
    refine ⟨v, hv, fun r₁ hr₁ u hu => ?_, hpending⟩
    simp only [Function.update_apply] at hr₁ hu
    split_ifs at hr₁ hu with heq₁
    · rcases hr₁ with hr₁ | hr₁
      · exact absurd (hr₁.symm.trans heq₁) heq
      · cases hr₁
    · exact hcovers r₁ hr₁ u hu
  · intro hdirty hnone
    refine h.stored hdirty (fun r' hr' => hnone r' ?_)
    split_ifs with heq
    · rw [heq, hr] at hr'
      cases hr'
    · exact hr'

theorem ReaderMove.readersOk (hmove : ReaderMove q s r s') (hw : s.WritersOk) (h : s.ReadersOk q) :
    s'.ReadersOk q := by
  have hholds : ∀ {p : ReaderPhase}, (s.readers r).phase = p → p.holding →
      (s.readers r).phase.holding := fun hr hp => hr ▸ hp
  have halone : (s.readers r).phase.holding →
      ∀ r', r' ≠ r → ¬ (s.readers r').phase.holding :=
    fun hr r' hne hr' => hne (h.holder_eq hr hr')
  have hunseen : ∀ r', ¬ (s.readers r').phase.inFlight → (s.readers r').phase.visible = none := by
    intro r' hr'
    cases hrows : (s.readers r').phase.visible with
    | none => rfl
    | some rows => exact absurd (inFlight_of_visible hrows) hr'
  cases hmove with
  | start hr => exact h.start hr
  | loadSet hr =>
    exact h.move .queued _ _ (fun r' _ => h.mutex r') nofun nofun nofun nofun (by rw [hr]; exact id)
  | loadClear hr hdirty hrace =>
    exact h.move .reading _ _ (fun r' _ => h.mutex r') nofun
      (fun _ => h.fresh hw hdirty hrace r) nofun
      (fun _ r' _ => hunseen r' (hrace r')) (fun hr' => hrace r hr')
  | lock hr hmu =>
    refine h.move .locked _ _ ?_ (fun _ => rfl) nofun nofun nofun (by rw [hr]; exact id)
    intro r' _ hr'
    rw [h.mutex r' hr'] at hmu
    cases hmu
  | swapSet hr =>
    have hheld := hholds hr trivial
    exact h.setDirty hheld id rfl (fun _ => trivial)
  | swapClear hr hdirty =>
    have hheld := hholds hr trivial
    refine h.move (.unlocking none) _ _ (fun r' _ => h.mutex r')
      (fun _ => h.mutex r hheld) (fun _ => h.fresh hw hdirty ?_ r) nofun nofun
      (by rw [hr]; exact id)
    intro r' hr'
    obtain rfl := h.holder_eq hheld (holding_of_inFlight hr')
    rw [hr] at hr'
    exact hr'
  | rlock hr => exact h.moveInFlight hr trivial .scanning trivial _ nofun
  | scan now hr =>
    refine h.moveInFlight hr trivial (.scanned (.ok _)) trivial _ ?_
    rintro rows ⟨⟩
    refine ⟨s.version, ⟨s.source, now, getElem?_concat_length, rfl⟩, ?_, ?_⟩
    · intro r' _ u hu
      exact hw.returned_le u (h.before r' u hu)
    · intro _ u hlt hle
      omega
  | scanError st hr => exact h.moveInFlight hr trivial (.scanned (.error st)) trivial _ nofun
  | runlock rows hr =>
    refine h.moveInFlight hr trivial (.evaluating rows) trivial _ ?_
    rintro rows' ⟨⟩
    exact h.visible r rows (by rw [hr]; rfl)
  | runlockError st hr | storeError _ st hr =>
    exact h.moveInFlight hr trivial (.failing st) trivial _ nofun
  | store visible rows hr hrows => exact h.store hr hrows
  | restore st hr =>
    have hheld := hholds hr trivial
    exact h.setDirty hheld id rfl nofun
  | unlock hr =>
    have hheld := hholds hr trivial
    refine h.move .reading _ _ (fun r' hne hr' => absurd hr' (halone hheld r' hne))
      nofun (fun _ => h.served r (by rw [hr]; trivial)) nofun ?_
      (by rw [hr]; exact id)
    intro _ r' hne
    exact hunseen r' (fun hr' => halone hheld r' hne (holding_of_inFlight hr'))
  | unlockError st hr =>
    have hheld := hholds hr trivial
    exact h.move .idle _ _ (fun r' hne hr' => absurd hr' (halone hheld r' hne))
      nofun nofun nofun nofun (by rw [hr]; exact id)
  | finish hr =>
    exact h.move .idle _ _ (fun r' _ => h.mutex r') nofun nofun nofun nofun (by rw [hr]; exact id)

end Readers

section Interleavings

variable {q : ViewQuery} {s s' : SharedView}

/-- What a step without a race can do. -/
theorem next_moves {a : ViewStep} (h : s.next q a = some s') (hrace : NoRace s a) :
    (∃ w, WriterMove s w s') ∨ ∃ r, ReaderMove q s r s' := by
  -- what is left are the phases in which a thread can move, in the order of `next`
  cases a <;> simp only [SharedView.next] at h <;> split at h <;> try cases h
  · rename_i hw
    split_ifs at h
    cases h
    exact .inl ⟨_, .lock hw⟩
  · rename_i hw
    split_ifs at h with hc
    cases h
    exact .inl ⟨_, commit_move hw hc⟩
  · rename_i hw
    exact .inl ⟨_, .unlock _ hw⟩
  · rename_i hw
    exact .inl ⟨_, .announce _ hw⟩
  · rename_i hw
    exact .inl ⟨_, .returnError hw⟩
  · rename_i v hw
    exact .inl ⟨_, .returnFound v hw (hrace v hw)⟩
  · rename_i hw
    exact .inl ⟨_, .returnMade _ hw⟩
  · rename_i hr
    exact .inr ⟨_, .start hr⟩
  · rename_i hr
    cases hdirty : s.dirty with
    | true => exact .inr ⟨_, .loadSet hr⟩
    | false => exact .inr ⟨_, .loadClear hr hdirty (hrace hdirty)⟩
  · rename_i hr
    split_ifs at h with hmu
    cases h
    exact .inr ⟨_, .lock hr hmu⟩
  · rename_i hr
    cases hdirty : s.dirty with
    | true => exact .inr ⟨_, .swapSet hr⟩
    | false =>
      have hsame : { s with dirty := false } = s := by
        rw [← hdirty]
      rw [hsame]
      exact .inr ⟨_, .swapClear hr hdirty⟩
  · rename_i hr
    split_ifs at h
    cases h
    exact .inr ⟨_, .rlock hr⟩
  · rename_i failure _ hr
    cases failure with
    | some st => exact .inr ⟨_, .scanError st hr⟩
    | none => exact .inr ⟨_, .scan _ hr⟩
  · rename_i visible hr
    cases visible with
    | error st => exact .inr ⟨_, .runlockError st hr⟩
    | ok rows => exact .inr ⟨_, .runlock rows hr⟩
  · rename_i visible hr
    split at h
    · cases h
      exact .inr ⟨_, .storeError visible _ hr⟩
    rename_i heval
    split at h <;> cases h
    · exact .inr ⟨_, .storeError visible _ hr⟩
    rename_i rows hrec
    refine .inr ⟨_, .store visible rows hr (fun source now hvis => ?_)⟩
    rw [ViewQuery.contents, ← hvis, heval]
    exact recompute_ok_of_tx hrec
  · rename_i hr
    exact .inr ⟨_, .restore _ hr⟩
  · rename_i hr
    exact .inr ⟨_, .unlock hr⟩
  · rename_i hr
    exact .inr ⟨_, .unlockError _ hr⟩
  · rename_i hr
    exact .inr ⟨_, .finish hr⟩

theorem step_ok (s : SharedView) (a : ViewStep) (s' : SharedView)
    (hok : s.WritersOk ∧ s.ReadersOk q) (hrace : NoRace s a) (h : s.next q a = some s') :
    s'.WritersOk ∧ s'.ReadersOk q := by
  obtain ⟨hw, hr⟩ := hok
  rcases next_moves h hrace with ⟨w, hmove⟩ | ⟨r, hmove⟩
  · exact ⟨hmove.writersOk hw, hmove.seenByReaders.readersOk hr⟩
  · exact ⟨hmove.writersOk hw, hmove.readersOk hw hr⟩

theorem quietView_ok (source : TableState) (storage : SqlRows) :
    (quietView source storage).WritersOk ∧ (quietView source storage).ReadersOk q :=
  ⟨⟨nofun, nofun, nofun, nofun, nofun⟩, ⟨nofun, nofun, nofun, nofun, nofun⟩⟩

/-- A write that returns, and a reader that has begun to recompute the view. -/
def writeThenRecompute (c : Call) : List ViewStep :=
  [.writerLock 0, .writerCommit 0 c, .writerUnlock 0, .writerAnnounce 0,
    .writerReturn 0, .readerStart 1, .readerLoad 1, .readerLock 1, .readerSwap 1]

theorem visibleRows_of_no_rules {tbl : Table} (h : tbl.gcRules.isEmpty = true) (rows : SqlRows)
    (now now' : Int) :
    visibleRows tbl rows now = visibleRows tbl rows now' := by
  have hvis : visibleRow tbl none now = visibleRow tbl none now' := by
    funext r
    simp only [visibleRow, Row.gc, Row.gcWithChanges, h, if_true]
  rw [visibleRows, visibleRows, hvis]

/-- The rows of the view that counts per key, in every source state that shows
just the row `a`. -/
theorem countPerKey_contents_keys {src : TableState} {now : Int}
    (h : (visibleRows src.tbl src.db.rows now).map Row.key = [[97]]) :
    (countPerKey.contents src now).toOption.map (fun rows => rows.keys) = some [[97]] := by
  have hrows : ∃ rows,
      recompute countPerKey.definition
        (([[97]] : List Bytes).map
          (fun key => [.scalar (.bytes key), .scalar (.int64 1)])) none = .ok rows ∧
      rows.keys = [[97]] :=
    ⟨_, rfl, by decide +kernel⟩
  obtain ⟨rows, hrec, hkeys⟩ := hrows
  have hcontents : countPerKey.contents src now = .ok rows := by
    rw [← hrec]
    simp only [ViewQuery.contents, countPerKey, h]
  rw [hcontents]
  exact congrArg some hkeys

/-- The write of row `a` succeeds, and the source then shows just that row. -/
theorem writeCell_shows_row :
    ∃ source',
      newView.source.call writeCell = some source' ∧
      source'.tbl.gcRules.isEmpty = true ∧
      (visibleRows source'.tbl source'.db.rows 0).map Row.key = [[97]] :=
  ⟨_, rfl, by decide +kernel, by decide +kernel⟩

end Interleavings

end Bttest
end LittleBigtable
