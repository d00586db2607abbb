import LittleBigtable.Bttest.Wire
import LittleBigtable.Lib.FiniteMap
import LittleBigtable.Lib.Transition

/-!
# Concurrent updates and deletions of logical views

`UpdateLogicalView` reads the stored view, checks the etag of the request against it
and computes the next view.  It then gives up the lock of the server while the new query
is validated, takes the lock again and stores the next view without another look at what
is stored.  `DeleteLogicalView` holds the lock all the time.

Updates and deletions of any views, in any number, are interleaved; each region in which
a call holds the lock is one step.  `noLostUpdate_iff` says when the etags of the
requests protect the views: an update must find the view that it has read when it stores
the next one.

The result of the validation of a query and the failures of the storage are inputs.
-/

namespace LittleBigtable
namespace Bttest

open List FiniteMap Transition

section Calls

structure LogicalView where
  name : Bytes
  query : Bytes
  deletionProtection : Bool
  etag : Bytes
deriving DecidableEq

/-- The content of a view: all but the etag. -/
def LogicalView.content (lv : LogicalView) : Bytes × Bytes × Bool :=
  (lv.name, lv.query, lv.deletionProtection)

/-- `contentEtag`, with the hash of the serialized content as `hash`. -/
def LogicalView.contentEtag (hash : Bytes × Bytes × Bool → Bytes) (lv : LogicalView) : Bytes :=
  hash lv.content

def checkEtag (requested current : Bytes) : Option Status :=
  if requested ≠ [] ∧ requested ≠ current then
    some (errorf .aborted "etag %q does not match the current etag %q"
      [.bytes requested, .bytes current])
  else
    none

/-- A path of the update mask of `UpdateLogicalView`. -/
inductive ViewPath
  | query
  | deletionProtection
  | other (path : Bytes)

structure UpdateLogicalViewRequest where
  logicalView : Option LogicalView
  updateMask : List ViewPath

structure DeleteLogicalViewRequest where
  name : Bytes
  etag : Bytes

def UpdateLogicalViewRequest.paths (req : UpdateLogicalViewRequest) : List ViewPath :=
  if req.updateMask.length = 0 then [.query, .deletionProtection] else req.updateMask

/-- Copy one field of the request. -/
def setViewPath (lv next : LogicalView) : ViewPath → Except Status LogicalView
  | .query =>
    if lv.query = [] then
      .error (errorf .invalidArgument "logical_view.query must not be empty" [])
    else
      .ok { next with query := lv.query }
  | .deletionProtection => .ok { next with deletionProtection := lv.deletionProtection }
  | .other path => .error (errorf .invalidArgument "unsupported update_mask path %q" [.bytes path])

def setViewPaths (lv : LogicalView) : List ViewPath → LogicalView → Except Status LogicalView
  | [], next => .ok next
  | path :: paths, next =>
    match setViewPath lv next path with
    | .error st => .error st
    | .ok next' => setViewPaths lv paths next'

/-- An update between its two regions: the etag of the request, the view that was read
and the next view. -/
structure PendingUpdate where
  requested : Bytes
  cur : LogicalView
  next : LogicalView

/-- `UpdateLogicalView` up to the validation of the query. -/
def beginUpdateLogicalView (views : GoMap LogicalView) (getError : Option Status)
    (req : UpdateLogicalViewRequest) : Except Status PendingUpdate :=
  let nameRequired := errorf .invalidArgument "logical view name is required" []
  match req.logicalView with
  | none => .error nameRequired
  | some lv =>
    if lv.name = [] then
      .error nameRequired
    else
      match getError with
      | some st => .error st
      | none =>
        match views[lv.name]? with
        | none => .error (errorf .notFound "logical view %q not found" [.bytes lv.name])
        | some cur =>
          match checkEtag lv.etag cur.etag with
          | some st => .error st
          | none =>
            match setViewPaths lv req.paths cur with
            | .error st => .error st
            | .ok next => .ok ⟨lv.etag, cur, next⟩

/-- `UpdateLogicalView` from the validation of the query on. -/
def finishUpdateLogicalView (hash : Bytes × Bytes × Bool → Bytes) (views : GoMap LogicalView)
    (invalid putError completeError : Option Status)
    (next : LogicalView) : Except Status LogicalView × GoMap LogicalView :=
  match invalid.or putError with
  | some st => (.error st, views)
  | none =>
    let next := { next with etag := next.contentEtag hash }
    match completeError with
    | some st => (.error st, views.insert next.name next)
    | none => (.ok next, views.insert next.name next)

/-- `DeleteLogicalView`.  The view and its policies are removed one after the other. -/
def deleteLogicalView (views : GoMap LogicalView) (getError removeError policyError : Option Status)
    (req : DeleteLogicalViewRequest) : Except Status Unit × GoMap LogicalView :=
  match getError with
  | some st => (.error st, views)
  | none =>
    match views[req.name]? with
    | none => (.error (errorf .notFound "logical view %q not found" [.bytes req.name]), views)
    | some lv =>
      match (checkEtag req.etag lv.etag).or <| (if lv.deletionProtection then
            some (errorf .failedPrecondition
              "logical view %q has deletion protection enabled" [.bytes req.name])
          else
            none).or removeError with
      | some st => (.error st, views)
      | none =>
        match policyError with
        | some st => (.error st, views.erase req.name)
        | none => (.ok (), views.erase req.name)

end Calls

section Interleavings

/-- A call that succeeded: the etag of its request, and what was stored under the name
of the view when it wrote or removed the view. -/
structure ViewEffect where
  requested : Bytes
  stored : Option LogicalView

/-- The stored views and the updates that are in progress.  `effects` are the calls that
succeeded so far, `deleted` the views whose deletion succeeded, and `revived` those that
an update stored again after that. -/
structure LogicalViewState where
  views : GoMap LogicalView
  pending : Nat → Option PendingUpdate
  effects : List ViewEffect
  deleted : List Bytes
  revived : List Bytes

/-- Stored views, before any call. -/
def quietLogicalViews (views : GoMap LogicalView) : LogicalViewState :=
  ⟨views, fun _ => none, [], [], []⟩

/-- One step of one call. -/
inductive LogicalViewStep
  | beginUpdate (call : Nat) (getError : Option Status) (req : UpdateLogicalViewRequest)
  | finishUpdate (call : Nat) (invalid putError completeError : Option Status)
  | delete (getError removeError policyError : Option Status) (req : DeleteLogicalViewRequest)

def LogicalViewState.next (hash : Bytes × Bytes × Bool → Bytes)
    (s : LogicalViewState) : LogicalViewStep → Option LogicalViewState
  | .beginUpdate call getError req =>
    match s.pending call with
    | some _ => none
    | none =>
      match beginUpdateLogicalView s.views getError req with
      | .error _ => some s
      | .ok p => some { s with pending := Function.update s.pending call (some p) }
  | .finishUpdate call invalid putError completeError =>
    match s.pending call with
    | none => none
    | some p =>
      let (result, views) :=
        finishUpdateLogicalView hash s.views invalid putError completeError p.next
      some
        { views := views
          pending := Function.update s.pending call none
          effects :=
            match result with
            | .error _ => s.effects
            | .ok _ => ⟨p.requested, s.views[p.next.name]?⟩ :: s.effects
          deleted := s.deleted
          revived :=
            if invalid.or putError = none ∧ p.next.name ∈ s.deleted then
              p.next.name :: s.revived
            else
              s.revived }
  | .delete getError removeError policyError req =>
    let (result, views) := deleteLogicalView s.views getError removeError policyError req
    match result with
    | .error _ => some { s with views := views }
    | .ok _ =>
      some { s with
        views := views
        effects := ⟨req.etag, s.views[req.name]?⟩ :: s.effects
        deleted := req.name :: s.deleted }

/-- A call with an etag took effect on a stored view with this etag. -/
def ViewEffect.Matched (e : ViewEffect) : Prop :=
  e.requested ≠ [] → ∃ lv, e.stored = some lv ∧ lv.etag = e.requested

/-- Every successful call with an etag took effect on a view with this etag, and no
deleted view was stored again. -/
def LogicalViewState.NoLostUpdate (s : LogicalViewState) : Prop :=
  (∀ e ∈ s.effects, e.Matched) ∧ s.revived = []

/-- An update that stores the next view does so while its view is not deleted; and if it
has an etag and succeeds, it finds the view that it has read. -/
def LogicalViewState.Undisturbed (s : LogicalViewState) : LogicalViewStep → Prop
  | .finishUpdate call invalid putError completeError =>
    ∀ p, s.pending call = some p → invalid.or putError = none →
      p.next.name ∉ s.deleted ∧
      (completeError = none → p.requested ≠ [] → s.views[p.next.name]? = some p.cur)
  | _ => True

/-- The etag of every stored view, and of every view that an update has read, is that of
its content; and an update with an etag has read a view with this etag. -/
structure LogicalViewState.EtagsRight (hash : Bytes × Bytes × Bool → Bytes)
    (s : LogicalViewState) : Prop where
  stored : ∀ (name : Bytes) (lv : LogicalView), s.views[name]? = some lv →
    lv.etag = lv.contentEtag hash
  read : ∀ (call : Nat) (p : PendingUpdate), s.pending call = some p →
    p.cur.etag = p.cur.contentEtag hash ∧
    (p.requested ≠ [] → p.cur.etag = p.requested)

variable {hash : Bytes × Bytes × Bool → Bytes} {s s' : LogicalViewState}

theorem checkEtag_eq_none {requested current : Bytes} (h : checkEtag requested current = none)
    (hrequested : requested ≠ []) :
    current = requested := by
  unfold checkEtag at h
  split_ifs at h with hstale
  by_contra hne
  exact hstale ⟨hrequested, fun heq => hne heq.symm⟩

/-- Views with right etags are equal when their etags are. -/
theorem eq_of_etag (hinj : Function.Injective hash) {lv lv' : LogicalView}
    (hlv : lv.etag = lv.contentEtag hash) (hlv' : lv'.etag = lv'.contentEtag hash)
    (h : lv.etag = lv'.etag) :
    lv = lv' := by
  have hcontent : lv.content = lv'.content := by
    refine hinj ?_
    rw [hlv, hlv'] at h
    exact h
  obtain ⟨name, query, protection, etag⟩ := lv
  obtain ⟨name', query', protection', etag'⟩ := lv'
  simp only [LogicalView.content, Prod.mk.injEq] at hcontent
  obtain ⟨rfl, rfl, rfl⟩ := hcontent
  simp only at h
  rw [h]

/-- What an update has read. -/
theorem beginUpdateLogicalView_eq_ok {views : GoMap LogicalView} {getError : Option Status}
    {req : UpdateLogicalViewRequest} {p : PendingUpdate}
    (h : beginUpdateLogicalView views getError req = .ok p) :
    (∃ name : Bytes, views[name]? = some p.cur) ∧
      (p.requested ≠ [] → p.cur.etag = p.requested) := by
  unfold beginUpdateLogicalView at h
  simp only at h
  split at h
  · cases h
  rename_i lv _
  split at h
  · cases h
  split at h
  · cases h
  split at h
  · cases h
  rename_i cur hcur
  split at h
  · cases h
  rename_i hetag
  split at h
  · cases h
  · cases h
    exact ⟨⟨lv.name, hcur⟩, checkEtag_eq_none hetag⟩

/-- A successful deletion removes a view that has the etag of the request. -/
theorem deleteLogicalView_cases {views : GoMap LogicalView}
    {getError removeError policyError : Option Status} {req : DeleteLogicalViewRequest} :
    ((deleteLogicalView views getError removeError policyError req).2 = views ∨
      (deleteLogicalView views getError removeError policyError req).2 = views.erase req.name) ∧
    ((deleteLogicalView views getError removeError policyError req).1 = .ok () →
      (⟨req.etag, views[req.name]?⟩ : ViewEffect).Matched) := by
  unfold deleteLogicalView
  split
  · exact ⟨.inl rfl, nofun⟩
  split
  · exact ⟨.inl rfl, nofun⟩
  rename_i lv hlv
  split
  · exact ⟨.inl rfl, nofun⟩
  rename_i hchecks
  obtain ⟨hetag, _⟩ := Option.or_eq_none_iff.mp hchecks
  split
  · exact ⟨.inr rfl, nofun⟩
  · refine ⟨.inr rfl, fun _ hrequested => ?_⟩
    exact ⟨lv, hlv, checkEtag_eq_none hetag hrequested⟩

/-- A deletion is right in every state. -/
theorem delete_step {getError removeError policyError : Option Status}
    {req : DeleteLogicalViewRequest} (hs : s.EtagsRight hash)
    (h : s.next hash (.delete getError removeError policyError req) = some s') :
    s'.EtagsRight hash ∧ (s'.NoLostUpdate ↔ s.NoLostUpdate) := by
  obtain ⟨hviews, hmatched⟩ := deleteLogicalView_cases
  have hstored : ∀ (name : Bytes) (lv : LogicalView),
      (deleteLogicalView s.views getError removeError policyError req).2[name]? =
        some lv → lv.etag = lv.contentEtag hash := by
    intro name lv hlv
    rcases hviews with heq | heq
    · rw [heq] at hlv
      exact hs.stored name lv hlv
    · rw [heq, getElem?_erase_eq] at hlv
      split_ifs at hlv
      exact hs.stored name lv hlv
  simp only [LogicalViewState.next] at h
  split at h
  · cases h
    exact ⟨⟨hstored, hs.read⟩, Iff.rfl⟩
  rename_i hres
  cases h
  refine ⟨⟨hstored, hs.read⟩, ?_⟩
  unfold LogicalViewState.NoLostUpdate
  simp only [forall_mem_cons]
  constructor
  · rintro ⟨⟨_, heffects⟩, hrevived⟩
    exact ⟨heffects, hrevived⟩
  · rintro ⟨heffects, hrevived⟩
    exact ⟨⟨hmatched hres, heffects⟩, hrevived⟩

/-- With injective etags, an update with an etag took effect on a view with this etag
exactly when it finds the view that it has read. -/
theorem matched_iff (hinj : Function.Injective hash) (hs : s.EtagsRight hash) {call : Nat}
    {p : PendingUpdate} (hp : s.pending call = some p) :
    (⟨p.requested, s.views[p.next.name]?⟩ : ViewEffect).Matched ↔
      (p.requested ≠ [] → s.views[p.next.name]? = some p.cur) := by
  obtain ⟨hcur, hread⟩ := hs.read call p hp
  constructor
  · intro hmatched hrequested
    obtain ⟨lv, hlv, hetag⟩ := hmatched hrequested
    simp only at hlv hetag
    rw [hlv, eq_of_etag hinj (hs.stored _ lv hlv) hcur (hetag.trans (hread hrequested).symm)]
  · intro hfound hrequested
    exact ⟨p.cur, hfound hrequested, hread hrequested⟩

/-- The end of an update is right exactly when it was not disturbed. -/
theorem finishUpdate_step (hinj : Function.Injective hash) {call : Nat}
    {invalid putError completeError : Option Status} (hs : s.EtagsRight hash)
    (h : s.next hash (.finishUpdate call invalid putError completeError) = some s') :
    s'.EtagsRight hash ∧
      (s'.NoLostUpdate ↔ s.NoLostUpdate ∧
        s.Undisturbed (.finishUpdate call invalid putError completeError)) := by
  simp only [LogicalViewState.next] at h
  split at h
  · cases h
  rename_i p hp
  have hread : ∀ (c : Nat) (q : PendingUpdate),
      Function.update s.pending call none c = some q →
      q.cur.etag = q.cur.contentEtag hash ∧ (q.requested ≠ [] → q.cur.etag = q.requested) := by
    intro c q hq
    by_cases hc : c = call
    · subst hc
      simp at hq
    · rw [Function.update_of_ne hc] at hq
      exact hs.read c q hq
  have hundisturbed : s.Undisturbed (.finishUpdate call invalid putError
      completeError) ↔ (invalid.or putError = none →
        p.next.name ∉ s.deleted ∧ (completeError = none → p.requested ≠ [] →
          s.views[p.next.name]? = some p.cur)) := by
    simp only [LogicalViewState.Undisturbed, hp, Option.some.injEq, forall_eq']
  rw [hundisturbed]
  unfold finishUpdateLogicalView at h
  cases hfail : invalid.or putError with
  | some st =>
    simp only [hfail, reduceCtorEq, false_and, if_false] at h
    cases h
    refine ⟨⟨hs.stored, hread⟩, ?_⟩
    simp only [LogicalViewState.NoLostUpdate, reduceCtorEq, false_implies, and_true]
  | none =>
    have hstored : ∀ (name : Bytes) (lv : LogicalView),
        (s.views.insert p.next.name
          { p.next with etag := p.next.contentEtag hash })[name]? = some lv →
        lv.etag = lv.contentEtag hash := by
      intro name lv hlv
      rw [getElem?_insert_eq] at hlv
      split_ifs at hlv
      · cases hlv
        rfl
      · exact hs.stored name lv hlv
    have hrevived : (if p.next.name ∈ s.deleted then p.next.name :: s.revived
        else s.revived) = [] ↔ s.revived = [] ∧ p.next.name ∉ s.deleted := by
      split_ifs with hdeleted
      · simp [hdeleted]
      · simp [hdeleted]
    simp only [hfail, true_and] at h
    cases completeError with
    | some st =>
      cases h
      refine ⟨⟨hstored, hread⟩, ?_⟩
      simp only [LogicalViewState.NoLostUpdate, hrevived, reduceCtorEq,
        false_implies, and_true, forall_const, and_assoc]
    | none =>
      cases h
      refine ⟨⟨hstored, hread⟩, ?_⟩
      simp only [LogicalViewState.NoLostUpdate, hrevived, forall_mem_cons,
        matched_iff hinj hs hp, forall_const]
      constructor
      · rintro ⟨⟨hfound, heffects⟩, hnone, hdeleted⟩
        exact ⟨⟨heffects, hnone⟩, hdeleted, hfound⟩
      · rintro ⟨⟨heffects, hnone⟩, hdeleted, hfound⟩
        exact ⟨⟨hfound, heffects⟩, hnone, hdeleted⟩

theorem next_step (hinj : Function.Injective hash) (s : LogicalViewState)
    (a : LogicalViewStep) (s' : LogicalViewState) (hs : s.EtagsRight hash)
    (h : s.next hash a = some s') :
    s'.EtagsRight hash ∧ (s'.NoLostUpdate ↔ s.NoLostUpdate ∧ s.Undisturbed a) := by
  cases a with
  | beginUpdate call getError req =>
    simp only [LogicalViewState.Undisturbed, and_true]
    simp only [LogicalViewState.next] at h
    split at h
    · cases h
    split at h
    · cases h
      exact ⟨hs, Iff.rfl⟩
    rename_i p hp
    cases h
    obtain ⟨⟨name, hcur⟩, hetag⟩ := beginUpdateLogicalView_eq_ok hp
    refine ⟨⟨hs.stored, fun c q hq => ?_⟩, Iff.rfl⟩
    dsimp only at hq
    by_cases hc : c = call
    · subst hc
      rw [Function.update_self] at hq
      cases hq
      exact ⟨hs.stored name p.cur hcur, hetag⟩
    · rw [Function.update_of_ne hc] at hq
      exact hs.read c q hq
  | finishUpdate call invalid putError completeError => exact finishUpdate_step hinj hs h
  | delete getError removeError policyError req =>
    simp only [LogicalViewState.Undisturbed, and_true]
    exact delete_step hs h

/-- In every interleaving of updates and deletions, the etags prevented lost updates and
no deleted view came back exactly when no update was disturbed. -/
theorem noLostUpdate_iff (hash : Bytes × Bytes × Bool → Bytes)
    (hinjective : Function.Injective hash) (views : GoMap LogicalView)
    (hviews : ∀ (name : Bytes) (lv : LogicalView), views[name]? = some lv →
      lv.etag = lv.contentEtag hash)
    (steps : List LogicalViewStep)
    (s : LogicalViewState)
    (hrun : Transition.run (LogicalViewState.next hash) (quietLogicalViews views) steps = some s) :
    s.NoLostUpdate ↔
      Transition.Meets (LogicalViewState.next hash) LogicalViewState.Undisturbed
        (quietLogicalViews views) steps := by
  have hinit : (quietLogicalViews views).EtagsRight hash := ⟨hviews, nofun⟩
  have hquiet : (quietLogicalViews views).NoLostUpdate := ⟨nofun, rfl⟩
  rw [good_iff_meets (LogicalViewState.EtagsRight hash)
    LogicalViewState.NoLostUpdate (next_step hinjective) hinit hrun]
  exact ⟨And.right, fun h => ⟨hquiet, h⟩⟩

end Interleavings

section SmallView

/-- An injective etag: the bytes of the two texts are marked and end with a zero. -/
def plainEtag (content : Bytes × Bytes × Bool) : Bytes :=
  content.1.flatMap (fun b => [1, b]) ++ 0 ::
    (content.2.1.flatMap (fun b => [1, b]) ++ 0 :: [if content.2.2 then 1 else 0])

theorem flatMap_marked_inj {a b x y : Bytes}
    (h : a.flatMap (fun c => [1, c]) ++ 0 :: x = b.flatMap (fun c => [1, c]) ++ 0 :: y) :
    a = b ∧ x = y := by
  induction a generalizing b with
  | nil =>
    cases b with
    | nil => exact ⟨rfl, (List.cons.inj h).2⟩
    | cons d b => simp at h
  | cons c a ih =>
    cases b with
    | nil => simp at h
    | cons d b =>
      simp only [flatMap_cons, cons_append, nil_append,
        List.cons.injEq, true_and] at h
      obtain ⟨rfl, h⟩ := h
      obtain ⟨rfl, rfl⟩ := ih h
      exact ⟨rfl, rfl⟩

theorem plainEtag_injective : Function.Injective plainEtag := by
  rintro ⟨name, query, protection⟩ ⟨name', query', protection'⟩ h
  obtain ⟨rfl, h⟩ := flatMap_marked_inj h
  obtain ⟨rfl, h⟩ := flatMap_marked_inj h
  cases protection <;> cases protection' <;> simp_all

/-- A view with its etag. -/
def smallView (query : Bytes) : LogicalView :=
  ⟨[118], query, false, plainEtag ([118], query, false)⟩

/-- Set the query of the small view, if it has the query `expected`. -/
def updateSmallView (expected query : Bytes) : UpdateLogicalViewRequest :=
  ⟨some { smallView query with etag := (smallView expected).etag }, [.query]⟩

/-- Two updates with the same etag both succeed when the second one reads the view
before the first one has stored its own; and an update brings back a view that was
deleted in the meantime. -/
theorem interleavedUpdate_lost :
    (∃ s,
      Transition.run (LogicalViewState.next plainEtag)
        (quietLogicalViews ((∅ : GoMap LogicalView).insert [118] (smallView [97])))
        [.beginUpdate 0 none (updateSmallView [97] [98]),
          .beginUpdate 1 none (updateSmallView [97] [99]),
          .finishUpdate 0 none none none, .finishUpdate 1 none none none] = some s ∧
      s.effects = [⟨(smallView [97]).etag, some (smallView [98])⟩,
        ⟨(smallView [97]).etag, some (smallView [97])⟩] ∧
      s.views[([118] : Bytes)]? = some (smallView [99]) ∧
      ¬ s.NoLostUpdate) ∧
    ∃ s,
      Transition.run (LogicalViewState.next plainEtag)
        (quietLogicalViews ((∅ : GoMap LogicalView).insert [118] (smallView [97])))
        [.beginUpdate 0 none (updateSmallView [97] [98]),
          .delete none none none ⟨[118], (smallView [97]).etag⟩,
          .finishUpdate 0 none none none] = some s ∧
      s.deleted = [[118]] ∧
      s.views[([118] : Bytes)]? = some (smallView [98]) ∧
      ¬ s.NoLostUpdate := by
  constructor
  · obtain ⟨s, hrun, heffects, hviews⟩ : ∃ s,
        run (LogicalViewState.next plainEtag)
          (quietLogicalViews ((∅ : GoMap LogicalView).insert [118] (smallView [97])))
          [.beginUpdate 0 none (updateSmallView [97] [98]),
            .beginUpdate 1 none (updateSmallView [97] [99]),
            .finishUpdate 0 none none none, .finishUpdate 1 none none none] = some s ∧
        s.effects = [⟨(smallView [97]).etag, some (smallView [98])⟩,
          ⟨(smallView [97]).etag, some (smallView [97])⟩] ∧
        s.views[([118] : Bytes)]? = some (smallView [99]) :=
      ⟨_, rfl, rfl, by decide +kernel⟩
    refine ⟨s, hrun, heffects, hviews, fun h => ?_⟩
    obtain ⟨lv, hlv, hetag⟩ := h.1 _ (by rw [heffects]; exact mem_cons_self) (by decide)
    cases hlv
    exact absurd hetag (by decide)
  · obtain ⟨s, hrun, hdeleted, hviews, hrevived⟩ : ∃ s,
        run (LogicalViewState.next plainEtag)
          (quietLogicalViews ((∅ : GoMap LogicalView).insert [118] (smallView [97])))
          [.beginUpdate 0 none (updateSmallView [97] [98]),
            .delete none none none ⟨[118], (smallView [97]).etag⟩,
            .finishUpdate 0 none none none] = some s ∧
        s.deleted = [[118]] ∧
        s.views[([118] : Bytes)]? = some (smallView [98]) ∧
        s.revived = [[118]] :=
      ⟨_, rfl, rfl, by decide +kernel, by decide +kernel⟩
    refine ⟨s, hrun, hdeleted, hviews, fun h => ?_⟩
    have hnone := h.2
    rw [hrevived] at hnone
    cases hnone

/-- An update with an etag, and a deletion with the etag of the updated view. -/
theorem noLostUpdate_iff_sequence :
    ∃ s,
      Transition.run (LogicalViewState.next plainEtag)
        (quietLogicalViews ((∅ : GoMap LogicalView).insert [118] (smallView [97])))
        [.beginUpdate 0 none (updateSmallView [97] [98]),
          .finishUpdate 0 none none none,
          .delete none none none ⟨[118], (smallView [98]).etag⟩] = some s ∧
      s.effects.length = 2 ∧ s.deleted = [[118]] ∧ s.NoLostUpdate := by
  refine ⟨_, rfl, rfl, rfl, ?_⟩
  refine (noLostUpdate_iff plainEtag plainEtag_injective
    ((∅ : GoMap LogicalView).insert [118] (smallView [97])) ?_
    [.beginUpdate 0 none (updateSmallView [97] [98]), .finishUpdate 0 none none none,
      .delete none none none ⟨[118], (smallView [98]).etag⟩] _ rfl).mpr ?_
  · intro name lv hlv
    rw [getElem?_insert_eq] at hlv
    split_ifs at hlv
    · cases hlv
      rfl
    · simp at hlv
  · refine .cons rfl trivial (.cons rfl ?_ (.cons rfl trivial trivial))
    rintro p ⟨⟩ _
    exact ⟨by decide, fun _ _ => by decide +kernel⟩

end SmallView

end Bttest
end LittleBigtable
