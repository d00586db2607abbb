import LittleBigtable.Bttest.TableStorage

/-!
# Children of tables under concurrent calls

Authorized views, schema bundles and materialized views are created in two steps: the
call looks up the table, gives up the lock of the server, validates the request, and
takes the lock again to store the child.  It does not look the table up again, so the
table can be deleted in between, or deleted and created anew.

Calls that create tables and children and calls that delete tables are interleaved; each
region in which a call holds the lock is one step.  As long as every child that is stored
finds its table live, every child has a live table or moves with a tombstone, every
materialized view has its source table, and new tables have no children.

Parents of tables have no path segment `tables`: in names with such parents, the children
of one table could be taken for children of another one.
-/

namespace LittleBigtable
namespace Bttest

open Transaction FiniteMap Transition

section Calls

/-- The checks of `CreateAuthorizedView` and `CreateSchemaBundle` before the lock is
taken again; `invalid` is the result of the validation of the message. -/
def Server.beginCreateChild (s : Server) (kind : ChildKind) (invalid : Option Status)
    (req : CreateChildRequest) : Option Status :=
  (match kind with
    | .view =>
      if req.parent = [] ∨ tableIDPattern req.id = false then
        some (errorf .invalidArgument "a parent table and valid authorized_view_id are required" [])
      else
        none
    | .bundle =>
      if tableIDPattern req.id = false then
        some (errorf .invalidArgument "invalid schema_bundle_id %q" [.bytes req.id])
      else
        none).or <|
  (match s.localRequireTable req.parent with
    | .error st => some st
    | .ok _ => none).or
  invalid

/-- The rest of these calls. -/
def Server.finishCreateChild (s : Server) (kind : ChildKind)
    (req : CreateChildRequest) : Except Status Unit × Server :=
  let name := req.parent ++ kind.segment ++ req.id
  match kind with
  | .view =>
    if s.db.authorizedViews[name]?.isSome then
      s.failed (errorf .alreadyExists "authorized view %q already exists" [.bytes name])
    else
      (.ok (), { s with
        db := s.db.putChild ⟨name, req.deletionProtection, req.content⟩ .view })
  | .bundle =>
    if s.db.schemaBundles[name]?.isSome then
      s.failed (errorf .alreadyExists "schema bundle %q already exists" [.bytes name])
    else if (listPrefix s.db.schemaBundles
        (req.parent ++ bundlesSegment)).length ≥ maxSchemaBundlesPerTable then
      s.failed (errorf .resourceExhausted
        "table %q already has the maximum of %d schema bundles"
        [.bytes req.parent, .int maxSchemaBundlesPerTable])
    else
      (.ok (), { s with
        db := s.db.putChild ⟨name, false, req.content⟩ .bundle })

/-- Without other calls in between, the two parts are `CreateAuthorizedView`. -/
theorem createAuthorizedView_eq (s : Server) (invalid : Option Status) (req : CreateChildRequest) :
    s.createAuthorizedView invalid req =
      match s.beginCreateChild .view invalid req with
      | some st => s.failed st
      | none => s.finishCreateChild .view req := by
  unfold Server.createAuthorizedView Server.beginCreateChild Server.finishCreateChild
  simp only
  by_cases hid : req.parent = [] ∨ tableIDPattern req.id = false
  · simp [hid]
  rw [if_neg hid, if_neg hid, Option.none_or]
  cases s.localRequireTable req.parent with
  | error st => rfl
  | ok t =>
    cases invalid with
    | some | none => rfl

/-- Without other calls in between, the two parts are `CreateSchemaBundle`. -/
theorem createSchemaBundle_eq (s : Server) (invalid : Option Status) (req : CreateChildRequest) :
    s.createSchemaBundle invalid req =
      match s.beginCreateChild .bundle invalid req with
      | some st => s.failed st
      | none => s.finishCreateChild .bundle req := by
  unfold Server.createSchemaBundle Server.beginCreateChild Server.finishCreateChild
  simp only
  by_cases hid : tableIDPattern req.id = false
  · simp [hid]
  rw [if_neg hid, if_neg hid, Option.none_or]
  cases s.localRequireTable req.parent with
  | error st => rfl
  | ok t =>
    cases invalid with
    | some | none => rfl

/-- A registered materialized view. -/
structure RegisteredView where
  source : Bytes
  query : Bytes
  deletionProtection : Bool
  deriving DecidableEq

structure CreateMaterializedViewRequest where
  parent : Bytes
  id : Bytes
  query : Bytes
  deletionProtection : Bool

def maxMaterializedViewsPerInstance : Nat := 50

def maxMaterializedViewsPerTable : Nat := 5

def viewName (parent id : Bytes) : Bytes :=
  parent ++ utf8 "/materializedViews/" ++ id

/-- `CreateMaterializedView` until the view is analyzed; the table ID that the query
reads is `tableId`, and `invalid` is the result of the rest of the analysis. -/
def Server.beginCreateView (s : Server) (invalid : Option Status) (tableId : Bytes)
    (req : CreateMaterializedViewRequest) : Except Status RegisteredView :=
  if req.parent = [] ∨ tableIDPattern req.id = false then
    .error (errorf .invalidArgument "parent and a valid materialized_view_id are required" [])
  else if req.query = [] then
    .error (errorf .invalidArgument "materialized_view.query is required" [])
  else
    match s.localRequireInstance req.parent with
    | some st => .error st
    | none =>
      if s.tables[tableName req.parent tableId]?.isSome then
        match invalid with
        | some st => .error st
        | none => .ok ⟨tableName req.parent tableId, req.query, req.deletionProtection⟩
      else
        .error (errorf .notFound "Table not found: %s" [.bytes tableId])

/-- `CreateMaterializedView` from the registration on, without the initial population. -/
def finishCreateView (mvs : GoMap RegisteredView) (saveError : Option Status)
    (req : CreateMaterializedViewRequest)
    (mv : RegisteredView) : Except Status Unit × GoMap RegisteredView :=
  let name := viewName req.parent req.id
  if mvs[name]?.isSome then
    (.error (errorf .alreadyExists "materialized view %q already exists" [.bytes name]), mvs)
  else
    let sameInstance := mvs.toList.filter (fun kv => req.parent ++ [47] <+: kv.1)
    if sameInstance.length ≥ maxMaterializedViewsPerInstance ∨
        (sameInstance.filter (fun kv => kv.2.source = mv.source)).length ≥
          maxMaterializedViewsPerTable then
      (.error (errorf .resourceExhausted
        "materialized view limit reached (%d per instance, %d per table)"
        [.int maxMaterializedViewsPerInstance, .int maxMaterializedViewsPerTable]), mvs)
    else
      match saveError with
      | some st => (.error st, mvs)
      | none => (.ok (), mvs.insert name mv)

/-- A materialized view that reads the table. -/
def materializedViewReading (mvs : GoMap RegisteredView) (name : Bytes) : Option Bytes :=
  (mvs.toList.find? (fun kv => kv.2.source = name)).map Prod.fst

end Calls

section Interleavings

/-- A call that has passed its checks and has not yet stored the child. -/
inductive PendingChild
  | child (kind : ChildKind) (req : CreateChildRequest)
  | view (req : CreateMaterializedViewRequest) (mv : RegisteredView)

/-- The server with its materialized views and the calls in progress.  `inherited` are
the tables that had authorized views or schema bundles when they were created. -/
structure ChildState where
  server : Server
  mvs : GoMap RegisteredView
  pending : Nat → Option PendingChild
  inherited : List Bytes

def newChildState (strictAdmin : Bool) (instances : List Bytes) : ChildState :=
  ⟨newServerState strictAdmin instances, ∅, fun _ => none, []⟩

/-- One step of one call. -/
inductive ChildStep
  | createTable (protoSize : GcRule → Nat) (req : CreateTableRequest)
  | deleteTable (name : Bytes) (deleteTime : Int) (fault : Option (Fault TxPoint))
  | beginChild (call : Nat) (kind : ChildKind) (invalid : Option Status) (req : CreateChildRequest)
  | beginView
      (call : Nat) (invalid : Option Status) (tableId : Bytes) (req : CreateMaterializedViewRequest)
  | finish (call : Nat) (saveError : Option Status)

/-- There is an authorized view or schema bundle below the table name. -/
def Server.hasChildren (s : Server) (name : Bytes) : Bool :=
  !(listPrefix s.db.authorizedViews (name ++ viewsSegment)).isEmpty ||
    !(listPrefix s.db.schemaBundles (name ++ bundlesSegment)).isEmpty

def ChildState.next (s : ChildState) : ChildStep → Option ChildState
  | .createTable protoSize req =>
    match s.server.createTable protoSize req with
    | (.error _, server) => some { s with server := server }
    | (.ok _, server) =>
      let name := tableName req.parent req.tableId
      some { s with
        server := server
        inherited :=
          if s.server.hasChildren name then name :: s.inherited else s.inherited }
  | .deleteTable name deleteTime fault =>
    some { s with
      server := (s.server.deleteTable name (materializedViewReading s.mvs name)
        deleteTime fault).2 }
  | .beginChild call kind invalid req =>
    match s.pending call, s.server.beginCreateChild kind invalid req with
    | some _, _ => none
    | none, some _ => some s
    | none, none =>
      some { s with
        pending := Function.update s.pending call (some (.child kind req)) }
  | .beginView call invalid tableId req =>
    match s.pending call, s.server.beginCreateView invalid tableId req with
    | some _, _ => none
    | none, .error _ => some s
    | none, .ok mv =>
      some { s with
        pending := Function.update s.pending call (some (.view req mv)) }
  | .finish call saveError =>
    match s.pending call with
    | none => none
    | some (.child kind req) =>
      some { s with
        server :=
          match saveError with
          | some _ => s.server
          | none => (s.server.finishCreateChild kind req).2
        pending := Function.update s.pending call none }
    | some (.view req mv) =>
      some { s with
        mvs := (finishCreateView s.mvs saveError req mv).2
        pending := Function.update s.pending call none }

/-- The children of the server have their tables. -/
structure ChildState.HaveParents (s : ChildState) : Prop where
  /-- views and bundles are children of a live table or of a tombstone -/
  children : ∀ (kind : ChildKind) (key : Bytes) (c : Child),
    (s.server.db.children kind)[key]? = some c →
    ∃ t ∈ s.server.objects, ∃ id, Slashless id ∧ key = childName kind t.storageKey id
  /-- the source table of a materialized view is live -/
  sources : ∀ (name : Bytes) (mv : RegisteredView), s.mvs[name]? = some mv →
    ∃ t, s.server.tables[mv.source]? = some t
  /-- every table was created without children -/
  inherited : s.inherited = []

/-- The parent of a table has no path segment `tables`, the first one apart. -/
def PlainParent (parent : Bytes) : Prop :=
  ¬ utf8 "/tables/" <:+: parent ++ [47]

/-- A child that is stored has a live table, and tables have plain parents. -/
def ChildState.InTime (s : ChildState) : ChildStep → Prop
  | .createTable _ req => PlainParent req.parent
  | .finish call saveError =>
    match s.pending call with
    | none => True
    | some (.child kind req) =>
      saveError = none → (s.server.finishCreateChild kind req).1 = .ok () →
        ∃ t, s.server.tables[req.parent]? = some t
    | some (.view req mv) =>
      (finishCreateView s.mvs saveError req mv).1 = .ok () →
        ∃ t, s.server.tables[mv.source]? = some t
  | _ => True

end Interleavings

section Names

variable {parent parent' a b : Bytes} {kind : ChildKind}

/-- The name of a child determines the parent and the storage ID of its table. -/
theorem storageKey_of_childName (hparent : PlainParent parent) (hparent' : PlainParent parent')
    (ha : Slashless a) (hb : Slashless b) {id : Bytes}
    (h : tableName parent a ++ kind.segment <+: childName kind (parent', b) id) :
    parent = parent' ∧ a = b := by
  have hsplit : ∀ (p x : Bytes), tableName p x ++ kind.segment =
      p ++ (47 :: utf8 "tables" ++ 47 :: (x ++ kind.segment)) := by
    intro p x
    simp [tableName, show utf8 "/tables/" = 47 :: utf8 "tables" ++ [47] from rfl]
  have hsame : parent = parent' := by
    obtain ⟨rest, hrest⟩ := h
    unfold childName at hrest
    rw [hsplit, hsplit] at hrest
    have hword : parent ++ (47 :: utf8 "tables" ++ 47 :: (a ++ kind.segment ++ rest)) =
        parent' ++ (47 :: utf8 "tables" ++ 47 :: (b ++ kind.segment ++ id)) := by
      simpa using hrest
    exact (Segments.cut_word (c := 47) (u := utf8 "tables") (by decide) hparent hparent' hword).1
  subst hsame
  exact ⟨rfl, storageId_of_childName ha hb h⟩

theorem childName_plain_injective (hparent : PlainParent parent) (hparent' : PlainParent parent')
    (ha : Slashless a) (hb : Slashless b) {id id' : Bytes}
    (h : childName kind (parent, a) id = childName kind (parent', b) id') :
    (parent, a) = (parent', b) ∧ id = id' := by
  have hstarts := childName_starts kind parent a id
  rw [h] at hstarts
  obtain ⟨rfl, rfl⟩ := storageKey_of_childName hparent hparent' ha hb hstarts
  exact ⟨rfl, List.append_cancel_left h⟩

end Names

section Invariant

variable {s s' : ChildState}

/-- The shape of the server, and every child has its table. -/
structure ChildState.Ordered (s : ChildState) : Prop where
  shape : s.server.WellShaped
  plain : ∀ t ∈ s.server.objects, PlainParent t.parent
  names : ∀ kind, NamesAgree (s.server.db.children kind)
  pending : ∀ call kind req, s.pending call = some (.child kind req) → tableIDPattern req.id = true
  parents : s.HaveParents

theorem ordered_newChildState (strictAdmin : Bool) (instances : List Bytes) :
    (newChildState strictAdmin instances).Ordered := by
  have howned := owned_newServerState strictAdmin instances []
  have hobjects : ∀ t, t ∉ (newServerState strictAdmin instances).objects := by
    rintro t (⟨name, ht⟩ | ⟨key, ht⟩)
    · simp [newServerState] at ht
    · simp [newServerState] at ht
  refine ⟨howned.shape, fun t ht => absurd ht (hobjects t), howned.names, ?_, ⟨?_, ?_, rfl⟩⟩
  · rintro call kind req ⟨⟩
  · intro kind key c hc
    obtain ⟨t, ht, _⟩ := howned.children kind key c hc
    exact absurd ht (hobjects t)
  · intro name mv hmv
    simp [newChildState] at hmv

/-- A new name has no children. -/
theorem ChildState.Ordered.not_hasChildren (hs : s.Ordered) {parent id : Bytes}
    (hparent : PlainParent parent) (hid : tableIDPattern id = true)
    (hnew : s.server.tables[tableName parent id]? = none) :
    s.server.hasChildren (tableName parent id) = false := by
  have hnone : ∀ kind : ChildKind,
      listPrefix (s.server.db.children kind) (tableName parent id ++ kind.segment) = [] := by
    intro kind
    refine List.eq_nil_iff_forall_not_mem.mpr fun c hc => ?_
    obtain ⟨key, hkey, hstarts⟩ := (mem_listPrefix _ c).mp hc
    obtain ⟨t, ht, child, _, rfl⟩ := hs.parents.children kind key c hkey
    obtain ⟨hparent', hid'⟩ := storageKey_of_childName hparent (hs.plain t ht)
      (slashless_of_tableIDPattern hid) (hs.shape.slashless ht) hstarts
    -- a tombstone does not have the storage ID of a table
    rcases ht with ⟨name, ht⟩ | ⟨name, ht⟩
    · obtain ⟨hname, hlive⟩ := hs.shape.live name t ht
      rw [hparent', hid', hlive.storageId] at hnew
      rw [hname] at ht
      exact absurd (hnew.symm.trans ht) nofun
    · obtain ⟨_, d, hdead⟩ := hs.shape.dead name t ht
      rw [hdead.storageId] at hid'
      exact tombstoneID_ne hid _ hid'.symm
  have hviews : listPrefix s.server.db.authorizedViews
      (tableName parent id ++ viewsSegment) = [] := hnone .view
  have hbundles : listPrefix s.server.db.schemaBundles
      (tableName parent id ++ bundlesSegment) = [] := hnone .bundle
  unfold Server.hasChildren
  rw [hviews, hbundles]
  rfl

theorem ordered_createTable (hs : s.Ordered) {protoSize : GcRule → Nat} {req : CreateTableRequest}
    (hparent : PlainParent req.parent) (h : s.next (.createTable protoSize req) = some s') :
    s'.Ordered := by
  simp only [ChildState.next] at h
  split at h
  · rename_i st server hcall
    cases h
    rw [createTable_eq_error hcall]
    exact hs
  rename_i u server hcall
  obtain ⟨hid, _, hnew, rfl⟩ := createTable_eq_ok hcall
  rw [hs.not_hasChildren hparent hid hnew] at h
  cases h
  have hshape := (CallEffect.created protoSize req hid hnew).wellShaped hs.shape nofun
  have hreplaced := replaced_of_insert hshape (fun t ht => by rw [hnew] at ht; cases ht) rfl rfl
  refine ⟨hshape, fun t ht => ?_, fun kind => ?_, hs.pending, fun kind key c hc => ?_,
    fun name mv hmv => ?_, hs.parents.inherited⟩
  · rcases (hreplaced t).mp ht with rfl | ⟨hold, _⟩
    · exact hparent
    · exact hs.plain t hold
  · cases kind with
    | view => exact hs.names .view
    | bundle => exact hs.names .bundle
  · obtain ⟨t, ht, id, hid, rfl⟩ := hs.parents.children kind key c (by cases kind <;> exact hc)
    refine ⟨t, ?_, id, hid, rfl⟩
    rcases ht with ⟨name, ht⟩ | ht
    · refine .inl ⟨name, ?_⟩
      rw [getElem?_insert_eq, if_neg]
      · exact ht
      · rintro rfl
        rw [hnew] at ht
        cases ht
    · exact .inr ht
  · obtain ⟨t, ht⟩ := hs.parents.sources name mv hmv
    by_cases hname : tableName req.parent req.tableId = mv.source
    · exact ⟨_, by rw [← hname]; exact Std.ExtTreeMap.getElem?_insert_self⟩
    · exact ⟨t, by rw [getElem?_insert_eq, if_neg hname]; exact ht⟩

variable {kind : ChildKind} {name : Bytes} {t : TableObject}

/-- The children of a deleted table are those of the tombstone. -/
theorem moveChildren_cases {store : GoMap Child} {parent a b key : Bytes} {c : Child}
    (hnames : NamesAgree store) (ha : Slashless a) (hb : Slashless b) (hne : a ≠ b)
    (hc : (moveChildren kind.segment (tableName parent a) (tableName parent b) store)[
      key]? = some c) :
    c.name = key ∧
      ((∃ id c', store[childName kind (parent, a) id]? = some c' ∧
          key = childName kind (parent, b) id) ∨
        (store[key]? = some c ∧ ¬ tableName parent a ++ kind.segment <+: key)) := by
  by_cases hkey : ∃ id, key = childName kind (parent, b) id
  · obtain ⟨id, rfl⟩ := hkey
    rw [moveChildren_dst hnames ha hb hne] at hc
    rcases Option.or_eq_some_iff.mp hc with hmoved | ⟨_, hold⟩
    · obtain ⟨c', hc', rfl⟩ := Option.map_eq_some_iff.mp hmoved
      exact ⟨rfl, .inl ⟨id, c', hc', rfl⟩⟩
    · refine ⟨hnames _ c hold, .inr ⟨hold, fun hstarts => ?_⟩⟩
      exact hne (storageId_of_childName ha hb hstarts)
  · rw [moveChildren_other hnames (fun id heq => hkey ⟨id, heq⟩)] at hc
    split_ifs at hc with hstarts
    exact ⟨hnames key c hc, .inr ⟨hc, hstarts⟩⟩

theorem materializedViewReading_eq_none {mvs : GoMap RegisteredView} {source : Bytes}
    {mv : RegisteredView} (h : materializedViewReading mvs source = none)
    (hmv : mvs[name]? = some mv) :
    mv.source ≠ source := by
  intro heq
  unfold materializedViewReading at h
  rw [Option.map_eq_none_iff, List.find?_eq_none] at h
  have hfalse := h (name, mv) (Std.ExtTreeMap.mem_toList_iff_getElem?_eq_some.mpr hmv)
  simp [heq] at hfalse

theorem checkTableDeletable_eq_none {s : Server} {reading : Option Bytes}
    (h : s.checkTableDeletable reading t = none) :
    reading = none := by
  unfold Server.checkTableDeletable at h
  split_ifs at h
  exact Option.map_eq_none_iff.mp (Option.or_eq_none_iff.mp h).2

/-- A deleted table takes its children with it. -/
theorem ordered_deleted (hs : s.Ordered) {d : Int} {db₁ : Database}
    (ht : s.server.tables[name]? = some t) (hreading : materializedViewReading s.mvs name = none)
    (hmove : s.server.db.moveRows (t.parent, t.storageId)
      (t.parent, tombstoneID t.tableId (toUnixMicro d)) = .ok db₁) :
    ChildState.Ordered
      { s with
        server :=
          { s.server with
            tables := s.server.tables.erase name
            deletedTables := s.server.deletedTables.insert (t.deletedAt d).storageName
              (t.deletedAt d)
            db := (((db₁.deleteTableRecord (t.parent, t.storageId)).saveTable
              (t.deletedAt d)).purgeChangeLog t.name).moveTableChildren t.name
                (t.deletedAt d).storageName } } := by
  obtain ⟨hname, hlive⟩ := hs.shape.live name t ht
  have hshape := (CallEffect.deleted name none d none t db₁ ht hmove).wellShaped hs.shape nofun
  have hreplaced := replaced_deleted hs.shape hshape ht rfl rfl
  have hslashless := slashless_of_tableIDPattern hlive.tableId
  have hkey : t.storageKey = (t.parent, t.tableId) := by
    rw [← hlive.storageId]
    rfl
  have hcases : ∀ (kind : ChildKind) (key : Bytes) (c : Child),
      (((((db₁.deleteTableRecord (t.parent, t.storageId)).saveTable
        (t.deletedAt d)).purgeChangeLog t.name).moveTableChildren t.name
          (t.deletedAt d).storageName).children kind)[key]? = some c →
      c.name = key ∧
        ((∃ id c', (s.server.db.children kind)[childName kind (t.parent, t.tableId) id]? =
            some c' ∧ key = childName kind (t.deletedAt d).storageKey id) ∨
          ((s.server.db.children kind)[key]? = some c ∧
            ¬ tableName t.parent t.tableId ++ kind.segment <+: key)) := by
    intro kind key c hc
    rw [moveTableChildren_children, moveRows_eq hmove] at hc
    refine moveChildren_cases (hs.names kind) hslashless
      (slashless_tombstoneID hlive.tableId (toUnixMicro d))
      (tombstoneID_ne hlive.tableId _).symm ?_
    cases kind with
    | view | bundle => exact hc
  refine ⟨hshape, fun t' ht' => ?_, fun kind key c hc => (hcases kind key c hc).1,
    hs.pending, ⟨fun kind key c hc => ?_, fun view mv hmv => ?_, hs.parents.inherited⟩⟩
  · rcases (hreplaced t').mp ht' with rfl | ⟨hold, _⟩
    · exact hs.plain t (.inl ⟨name, ht⟩)
    · exact hs.plain t' hold
  · rcases (hcases kind key c hc).2 with ⟨id, c', hold, rfl⟩ | ⟨hold, hstarts⟩
    · obtain ⟨t', ht', id', hid', heq⟩ := hs.parents.children kind _ c' hold
      obtain ⟨_, rfl⟩ := childName_plain_injective (hs.plain t (.inl ⟨name, ht⟩))
        (hs.plain t' ht') hslashless (hs.shape.slashless ht') heq
      exact ⟨t.deletedAt d, (hreplaced _).mpr (.inl rfl), id, hid', rfl⟩
    · obtain ⟨t', ht', id, hid, rfl⟩ := hs.parents.children kind key c hold
      have hne : t'.storageKey ≠ t.storageKey := by
        intro heq
        rw [heq, hkey] at hstarts
        exact hstarts (childName_starts kind t.parent t.tableId id)
      obtain ⟨t₁, ht₁, hkey₁⟩ := hreplaced.exists_storageKey ht' hne
      exact ⟨t₁, ht₁, id, hid, by rw [hkey₁]⟩
  · obtain ⟨t', ht'⟩ := hs.parents.sources view mv hmv
    refine ⟨t', ?_⟩
    rw [getElem?_erase_eq, if_neg]
    · exact ht'
    · exact (materializedViewReading_eq_none hreading hmv).symm

theorem ordered_deleteTable (hs : s.Ordered) {d : Int} {fault : Option (Fault TxPoint)}
    (h : s.next (.deleteTable name d fault) = some s') :
    s'.Ordered := by
  cases h
  cases hcall : s.server.deleteTable name (materializedViewReading s.mvs name) d fault with
  | mk result server =>
    cases result with
    | error st =>
      rw [deleteTable_eq_error (hs.shape.tables_live name) hcall]
      exact hs
    | ok u =>
      obtain ⟨t, db₁, ht, hcheck, hmove, rfl⟩ := deleteTable_eq_ok hcall
      exact ordered_deleted hs ht (checkTableDeletable_eq_none hcheck) hmove

theorem finishCreateChild_cases (s : Server) (kind : ChildKind) (req : CreateChildRequest) :
    (s.finishCreateChild kind req).2 = s ∨
      ((s.finishCreateChild kind req).1 = .ok () ∧
        ∃ c : Child, c.name = req.parent ++ kind.segment ++ req.id ∧
          (s.finishCreateChild kind req).2 = { s with db := s.db.putChild c kind }) := by
  cases kind with
  | view =>
    simp only [Server.finishCreateChild]
    split_ifs
    · exact .inl rfl
    · exact .inr ⟨rfl, ⟨_, rfl, rfl⟩⟩
  | bundle =>
    simp only [Server.finishCreateChild]
    split_ifs
    · exact .inl rfl
    · exact .inl rfl
    · exact .inr ⟨rfl, ⟨_, rfl, rfl⟩⟩

theorem ChildState.Ordered.setPending (hs : s.Ordered) {call : Nat} {p : Option PendingChild}
    (hp : ∀ kind req, p = some (.child kind req) → tableIDPattern req.id = true) :
    ChildState.Ordered { s with pending := Function.update s.pending call p } := by
  refine ⟨hs.shape, hs.plain, hs.names, fun call' kind req h => ?_,
    ⟨hs.parents.children, hs.parents.sources, hs.parents.inherited⟩⟩
  dsimp only at h
  by_cases hcall : call' = call
  · subst hcall
    rw [Function.update_self] at h
    exact hp kind req h
  · rw [Function.update_of_ne hcall] at h
    exact hs.pending call' kind req h

/-- A child of a live table is stored. -/
theorem ordered_putChild (hs : s.Ordered) {id : Bytes} {c : Child}
    (ht : s.server.tables[name]? = some t) (hid : tableIDPattern id = true)
    (hname : c.name = name ++ kind.segment ++ id) :
    ChildState.Ordered
      { s with server := { s.server with db := s.server.db.putChild c kind } } := by
  have hchild : c.name = childName kind t.storageKey id := by
    obtain ⟨hkey, hlive⟩ := hs.shape.live name t ht
    rw [hname, hkey, ← hlive.storageName_eq]
    rfl
  refine ⟨⟨hs.shape.live, hs.shape.dead⟩, hs.plain, fun kind' key c' hc' => ?_, hs.pending,
    ⟨fun kind' key c' hc' => ?_, hs.parents.sources, hs.parents.inherited⟩⟩
  · rcases getElem?_putChild_eq_some hc' with ⟨_, hkey, rfl⟩ | hold
    · exact hkey
    · exact hs.names kind' key c' hold
  · rcases getElem?_putChild_eq_some hc' with ⟨rfl, hkey, _⟩ | hold
    · exact ⟨t, .inl ⟨name, ht⟩, id, slashless_of_tableIDPattern hid, hkey ▸ hchild⟩
    · exact hs.parents.children kind' key c' hold

theorem ordered_insertView (hs : s.Ordered) {mv : RegisteredView}
    (ht : s.server.tables[mv.source]? = some t) :
    ChildState.Ordered { s with mvs := s.mvs.insert name mv } := by
  refine ⟨hs.shape, hs.plain, hs.names, hs.pending,
    ⟨hs.parents.children, fun name' mv' hmv => ?_, hs.parents.inherited⟩⟩
  rw [getElem?_insert_eq] at hmv
  split_ifs at hmv
  · cases hmv
    exact ⟨t, ht⟩
  · exact hs.parents.sources name' mv' hmv

theorem ordered_finish (hs : s.Ordered) {call : Nat} {saveError : Option Status}
    (hin : s.InTime (.finish call saveError)) (h : s.next (.finish call saveError) = some s') :
    s'.Ordered := by
  simp only [ChildState.next] at h
  simp only [ChildState.InTime] at hin
  cases hpending : s.pending call with
  | none =>
    rw [hpending] at h
    cases h
  | some p =>
    rw [hpending] at h hin
    cases p with
    | child kind req =>
      cases h
      cases saveError with
      | some st => exact hs.setPending nofun
      | none =>
        rcases finishCreateChild_cases s.server kind req with hsame | ⟨hok, c, hc, hput⟩
        · dsimp only
          rw [hsame]
          exact hs.setPending nofun
        dsimp only
        obtain ⟨t, ht⟩ := hin rfl hok
        rw [hput]
        exact (ordered_putChild hs ht (hs.pending call kind req hpending) hc).setPending nofun
    | view req mv =>
      cases h
      unfold finishCreateView at hin ⊢
      simp only at hin ⊢
      split_ifs at hin ⊢
      · exact hs.setPending nofun
      · exact hs.setPending nofun
      cases saveError with
      | some st => exact hs.setPending nofun
      | none =>
        obtain ⟨t, ht⟩ := hin rfl
        exact (ordered_insertView hs ht).setPending nofun

theorem beginCreateChild_eq_none {s : Server} {invalid : Option Status} {req : CreateChildRequest}
    (h : s.beginCreateChild kind invalid req = none) :
    tableIDPattern req.id = true := by
  have hfirst := (Option.or_eq_none_iff.mp h).1
  cases kind with
  | view =>
    by_contra hid
    rw [if_pos (.inr (Bool.eq_false_of_not_eq_true hid))] at hfirst
    cases hfirst
  | bundle =>
    by_contra hid
    rw [if_pos (Bool.eq_false_of_not_eq_true hid)] at hfirst
    cases hfirst

/-- One step keeps the order. -/
theorem ordered_next {step : ChildStep} (hs : s.Ordered) (hin : s.InTime step)
    (h : s.next step = some s') :
    s'.Ordered := by
  cases step with
  | createTable protoSize req => exact ordered_createTable hs hin h
  | deleteTable name d fault => exact ordered_deleteTable hs h
  | beginChild call kind invalid req =>
    simp only [ChildState.next] at h
    split at h
    · cases h
    · cases h
      exact hs
    rename_i hbegin
    cases h
    refine hs.setPending (fun kind' req' heq => ?_)
    cases heq
    exact beginCreateChild_eq_none hbegin
  | beginView call invalid tableId req =>
    simp only [ChildState.next] at h
    split at h
    · cases h
    · cases h
      exact hs
    · cases h
      exact hs.setPending nofun
  | finish call saveError => exact ordered_finish hs hin h

end Invariant

section Runs

/-- In every run in which every child that is stored finds its table live, and every
table is created under a plain parent, the children have their tables. -/
theorem haveParents_of_inTime {strictAdmin : Bool} {instances : List Bytes} {steps : List ChildStep}
    {s : ChildState}
    (hin : Transition.Meets ChildState.next ChildState.InTime
      (newChildState strictAdmin instances) steps)
    (hrun : Transition.run ChildState.next (newChildState strictAdmin instances) steps = some s) :
    s.HaveParents := by
  have hordered := invariant_of_meets ChildState.Ordered
    (fun s step s' hs hstep h => ordered_next hs hstep h)
    (ordered_newChildState strictAdmin instances) hin hrun
  exact hordered.parents

/-- The calls that create an authorized view and a materialized view of one table. -/
def beginBoth : List ChildStep :=
  [.createTable (fun _ => 0) (emptyTableRequest (utf8 "i") (utf8 "t")),
    .beginChild 0 .view none ⟨utf8 "i/tables/t", utf8 "v", false, []⟩,
    .beginView 1 none (utf8 "t") ⟨utf8 "i", utf8 "m", utf8 "q", false⟩]

def finishBoth : List ChildStep :=
  [.finish 0 none, .finish 1 none]

/-- The table is deleted before the two children are stored: both are orphans, and the
next table of the name has the view. -/
theorem orphanedChildren_inherited :
    ∃ s s',
      Transition.run ChildState.next (newChildState false [])
        (beginBoth ++ [.deleteTable (utf8 "i/tables/t") 1000 none] ++ finishBoth) = some s ∧
      (s.server.db.authorizedViews[utf8 "i/tables/t/authorizedViews/v"]?).isSome ∧
      s.server.tables[utf8 "i/tables/t"]?.isNone ∧
      (s.mvs[utf8 "i/materializedViews/m"]?).map RegisteredView.source = some (utf8 "i/tables/t") ∧
      ¬ s.HaveParents ∧
      s.next (.createTable (fun _ => 0) (emptyTableRequest (utf8 "i") (utf8 "t"))) = some s' ∧
      s'.inherited = [utf8 "i/tables/t"] := by
  obtain ⟨s, s', hrun, hview, hlive, hmv, hnext, hinherited⟩ : ∃ s s',
      run ChildState.next (newChildState false [])
        (beginBoth ++ [.deleteTable (utf8 "i/tables/t") 1000 none] ++ finishBoth) = some s ∧
      (s.server.db.authorizedViews[utf8 "i/tables/t/authorizedViews/v"]?).isSome ∧
      s.server.tables[utf8 "i/tables/t"]?.isNone ∧
      (s.mvs[utf8 "i/materializedViews/m"]?).map RegisteredView.source = some (utf8 "i/tables/t") ∧
      s.next (.createTable (fun _ => 0) (emptyTableRequest (utf8 "i") (utf8 "t"))) = some s' ∧
      s'.inherited = [utf8 "i/tables/t"] :=
    ⟨_, _, rfl, by decide +kernel, by decide +kernel, by decide +kernel, rfl, by decide +kernel⟩
  refine ⟨s, s', hrun, hview, hlive, hmv, fun h => ?_, hnext, hinherited⟩
  obtain ⟨mv, hmv, hsource⟩ := Option.map_eq_some_iff.mp hmv
  obtain ⟨t, ht⟩ := h.sources _ mv hmv
  rw [hsource] at ht
  rw [ht] at hlive
  cases hlive

/-- Without the deletion, both children are stored in time. -/
theorem haveParents_of_inTime_two_children :
    ∃ s,
      Transition.run ChildState.next (newChildState false []) (beginBoth ++ finishBoth) = some s ∧
      (s.server.db.authorizedViews[utf8 "i/tables/t/authorizedViews/v"]?).isSome ∧
      s.HaveParents := by
  obtain ⟨s, hrun, hview⟩ : ∃ s,
      run ChildState.next (newChildState false []) (beginBoth ++ finishBoth) = some s ∧
      (s.server.db.authorizedViews[utf8 "i/tables/t/authorizedViews/v"]?).isSome :=
    ⟨_, rfl, by decide +kernel⟩
  refine ⟨s, hrun, hview, haveParents_of_inTime ?_ hrun⟩
  refine .cons rfl (show PlainParent (utf8 "i") from by unfold PlainParent; decide) ?_
  refine .cons rfl trivial (.cons rfl trivial ?_)
  refine .cons rfl (fun _ _ => Option.isSome_iff_exists.mp (by decide +kernel)) ?_
  exact .cons rfl (fun _ => Option.isSome_iff_exists.mp (by decide +kernel)) trivial

end Runs

end Bttest
end LittleBigtable
