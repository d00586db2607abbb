import LittleBigtable.Bttest.TableInvariant
import LittleBigtable.Lib.Catalog
import LittleBigtable.Lib.SoftDelete

/-!
# What the calls on tables do

The effect of every call on the tables of a server, by cases: which table or
tombstone changes, and what stays.  The cases are the only thing that the
properties of runs use of the calls.
-/

namespace LittleBigtable
namespace Bttest

open Transaction

section Children

/-- What moves with a table. -/
inductive ChildKind
  | view
  | bundle
deriving DecidableEq

def ChildKind.segment : ChildKind → Bytes
  | .view => viewsSegment
  | .bundle => bundlesSegment

def Database.children (db : Database) : ChildKind → GoMap Child
  | .view => db.authorizedViews
  | .bundle => db.schemaBundles

/-- Store a new view or bundle under its name. -/
def Database.putChild (db : Database) (c : Child) : ChildKind → Database
  | .view => { db with authorizedViews := db.authorizedViews.insert c.name c }
  | .bundle => { db with schemaBundles := db.schemaBundles.insert c.name c }

variable (db : Database) (c : Child) (kind : ChildKind)

@[simp] theorem putChild_rows :
    (db.putChild c kind).rows = db.rows := by
  cases kind <;> rfl

@[simp] theorem putChild_tables :
    (db.putChild c kind).tables = db.tables := by
  cases kind <;> rfl

theorem putChild_children (kind' : ChildKind) :
    (db.putChild c kind).children kind' =
      if kind = kind' then (db.children kind').insert c.name c
      else db.children kind' := by
  cases kind <;> cases kind' <;> rfl

theorem getElem?_putChild_eq_some {db : Database} {c c' : Child} {kind kind' : ChildKind}
    {key : Bytes} (h : ((db.putChild c kind).children kind')[key]? = some c') :
    (kind = kind' ∧ c.name = key ∧ c = c') ∨ (db.children kind')[key]? = some c' := by
  rw [putChild_children] at h
  split_ifs at h with hkind
  · rw [FiniteMap.getElem?_insert_eq] at h
    split_ifs at h with hkey
    · exact .inl ⟨hkind, hkey, Option.some.inj h⟩
    · exact .inr h
  · exact .inr h

theorem moveTableChildren_children (src dst : Bytes) (kind : ChildKind) :
    (db.moveTableChildren src dst).children kind =
      moveChildren kind.segment src dst (db.children kind) := by
  cases kind <;> rfl

end Children

section Rows

variable {db db' : Database} {src dst : StorageKey}

theorem moveRows_eq (h : db.moveRows src dst = .ok db') :
    db' = { db with rows := db'.rows } := by
  unfold Database.moveRows at h
  split_ifs at h
  · cases h
    rfl
  · cases h
    rfl

theorem moveRows_rows (hne : src ≠ dst) (h : db.moveRows src dst = .ok db') :
    db'.rows = Function.update (Function.update db.rows dst (db.rows dst ∪ db.rows src)) src ∅ := by
  unfold Database.moveRows at h
  split_ifs at h with heq
  · exact absurd heq hne
  · cases h
    rfl

end Rows

section Purge

/-- The undelete window of a tombstone is over. -/
def TableObject.Expired (t : TableObject) (now : Int) : Prop :=
  undeleteWindow < now - t.deletedSince

instance (t : TableObject) (now : Int) :
    Decidable (t.Expired now) :=
  inferInstanceAs (Decidable (_ < _))

/-- The purge removes the expired tombstones, with their rows, metadata and children,
and nothing else. -/
structure Purged (now : Int) (s s' : Server) : Prop where
  tables : s'.tables = s.tables
  tombstones : ∀ key : Bytes,
    s'.deletedTables[key]? = s.deletedTables[key]?.filter (fun t => ¬ t.Expired now)
  rows_purged : ∀ (key : Bytes) (t : TableObject), s.deletedTables[key]? = some t →
    t.Expired now → s'.db.rows t.rows = ∅
  rows_kept : ∀ k : StorageKey,
    (∀ (key : Bytes) (t : TableObject), s.deletedTables[key]? = some t →
      t.Expired now → t.rows ≠ k) →
    s'.db.rows k = s.db.rows k
  record_purged : ∀ (key : Bytes) (t : TableObject), s.deletedTables[key]? = some t →
    t.Expired now → s'.db.tables (t.parent, t.storageId) = none
  record_kept : ∀ k : StorageKey,
    (∀ (key : Bytes) (t : TableObject), s.deletedTables[key]? = some t →
      t.Expired now → (t.parent, t.storageId) ≠ k) →
    s'.db.tables k = s.db.tables k
  child_purged : ∀ (kind : ChildKind) (key : Bytes) (t : TableObject) (name : Bytes),
    s.deletedTables[key]? = some t → t.Expired now → key ++ kind.segment <+: name →
    (s'.db.children kind)[name]? = none
  child_kept : ∀ (kind : ChildKind) (name : Bytes),
    (∀ (key : Bytes) (t : TableObject), s.deletedTables[key]? = some t →
      t.Expired now → ¬ key ++ kind.segment <+: name) →
    (s'.db.children kind)[name]? = (s.db.children kind)[name]?

variable (now : Int) (s : Server)

theorem purgeExpired_eq (kv : Bytes × TableObject) :
    s.purgeExpired now kv =
      if kv.2.Expired now then
        { s with
          deletedTables := s.deletedTables.erase kv.1
          db := s.db.purgeTable kv.1 kv.2 }
      else
        s := by
  unfold Server.purgeExpired
  by_cases hexp : kv.2.Expired now
  · rw [if_pos hexp, if_neg (not_le.mpr hexp)]
  · rw [if_neg hexp, if_pos (not_lt.mp hexp)]

/-- What the purge does to an observation, from what it does for one expired tombstone: it is
cleared by some of them, and kept by the others. -/
theorem purge_observation {α : Type} (obs : Server → α) (zero : α)
    (clears : Bytes × TableObject → Prop) [DecidablePred clears]
    (hpurge : ∀ (s : Server) (kv : Bytes × TableObject),
      obs { s with
        deletedTables := s.deletedTables.erase kv.1
        db := s.db.purgeTable kv.1 kv.2 } = if clears kv then zero else obs s) :
    (∀ (key : Bytes) (t : TableObject), s.deletedTables[key]? = some t → t.Expired now →
      clears (key, t) → obs (s.purgeExpiredTombstones now) = zero) ∧
    ((∀ (key : Bytes) (t : TableObject), s.deletedTables[key]? = some t → t.Expired now →
      ¬ clears (key, t)) → obs (s.purgeExpiredTombstones now) = obs s) := by
  have hobs := FiniteMap.foldl_clear (Server.purgeExpired now) obs zero
    (fun kv => kv.2.Expired now ∧ clears kv) s.deletedTables.toList (fun s kv _ => by
      rw [purgeExpired_eq]
      by_cases hexp : kv.2.Expired now
      · rw [if_pos hexp, hpurge]
        simp [hexp]
      · simp [hexp]) s
  refine ⟨fun key t ht hexp hclears => ?_, fun hkept => ?_⟩
  · exact hobs.trans (if_pos ⟨(key, t), Std.ExtTreeMap.mem_toList_iff_getElem?_eq_some.mpr ht,
      hexp, hclears⟩)
  · refine hobs.trans (if_neg ?_)
    rintro ⟨kv, hkv, hexp, hclears⟩
    exact hkept kv.1 kv.2 (Std.ExtTreeMap.mem_toList_iff_getElem?_eq_some.mp hkv) hexp hclears

theorem purgeTable_children (db : Database) (name : Bytes) (t : TableObject) (kind : ChildKind)
    (key : Bytes) :
    ((db.purgeTable name t).children kind)[key]? =
      if name ++ kind.segment <+: key then none else (db.children kind)[key]? := by
  have hremove : ∀ (store : GoMap Child) (pre : Bytes),
      (removeChildren store pre)[key]? = if pre <+: key then none else store[key]? := by
    intro store pre
    unfold removeChildren
    rw [Std.ExtTreeMap.getElem?_filter']
    by_cases hpre : pre <+: key
    · simp [hpre]
    · cases store[key]? <;> simp [hpre]
  cases kind with
  | view => exact hremove db.authorizedViews (name ++ viewsSegment)
  | bundle => exact hremove db.schemaBundles (name ++ bundlesSegment)

theorem purgeExpiredTombstones_purged :
    Purged now s (s.purgeExpiredTombstones now) := by
  have hrows : ∀ k, _ := fun k => purge_observation now s (fun s => s.db.rows k) ∅
    (fun kv => kv.2.rows = k) (fun s kv => by
      simp [Database.purgeTable, Database.deleteTableRecord, Function.update_apply, eq_comm])
  have hrecs : ∀ k, _ := fun k => purge_observation now s (fun s => s.db.tables k) none
    (fun kv => (kv.2.parent, kv.2.storageId) = k) (fun s kv => by
      simp [Database.purgeTable, Database.deleteTableRecord, Function.update_apply, eq_comm])
  have hchildren : ∀ kind name, _ := fun kind name =>
    purge_observation now s (fun s => (s.db.children kind)[name]?) none
      (fun kv => kv.1 ++ kind.segment <+: name)
      (fun s kv => purgeTable_children s.db kv.1 kv.2 kind name)
  refine ⟨?_, fun key => ?_, fun key t ht hexp => (hrows t.rows).1 key t ht hexp rfl,
    fun k => (hrows k).2, fun key t ht hexp => (hrecs _).1 key t ht hexp rfl,
    fun k => (hrecs k).2, fun kind key t name => (hchildren kind name).1 key t,
    fun kind name => (hchildren kind name).2⟩
  · exact (purge_observation now s (fun s => s.tables) ∅ (fun _ => False) (fun s kv => by simp)).2
      (fun _ _ _ _ => id)
  obtain ⟨hcleared, hkept⟩ := purge_observation now s (fun s => s.deletedTables[key]?) none
    (fun kv => kv.1 = key) (fun s kv => FiniteMap.getElem?_erase_eq _ _ _)
  by_cases hexp : ∃ t, s.deletedTables[key]? = some t ∧ t.Expired now
  · obtain ⟨t, ht, hexp⟩ := hexp
    rw [hcleared key t ht hexp rfl, ht]
    simp [Option.filter, hexp]
  rw [hkept fun key' t ht hexp' heq => hexp ⟨t, heq ▸ ht, hexp'⟩]
  cases ht : s.deletedTables[key]? with
  | none => rfl
  | some t =>
    have hkept : ¬ t.Expired now := fun h => hexp ⟨t, ht, h⟩
    simp [Option.filter, hkept]

end Purge

section Effects

/-- What a call on a live table changes in the database. -/
structure TableFrame (db db' : Database) (t t' : TableObject) : Prop where
  rows : ∀ k, k ≠ t.rows → db'.rows k = db.rows k
  children : ∀ kind, db'.children kind = db.children kind
  record : db'.tables =
      Function.update db.tables (t.parent, t.storageId) (some t'.encodeMetadata) ∨
    (db'.tables = db.tables ∧ t'.encodeMetadata = t.encodeMetadata)

/-- The successful deletions and undeletions. -/
def TableCall.event : TableCall → Except Status Unit → SoftDelete.Event Bytes
  | .deleteTable name _ _ _, .ok _ => .delete name
  | .undeleteTable name _ _, .ok _ => .undelete name
  | _, _ => .other

/-- The effect of a call. -/
inductive CallEffect (s : Server) : TableCall → Except Status Unit → Server → Prop
  | unchanged
      (call : TableCall) (result : Except Status Unit)
      (hevent : call.event result = .other) :
      CallEffect s call result s
  | created
      (protoSize : GcRule → Nat) (req : CreateTableRequest)
      (hid : tableIDPattern req.tableId = true)
      (hnew : s.tables[tableName req.parent req.tableId]? = none) :
      CallEffect s (.createTable protoSize req) (.ok ())
        { s with
          tables := s.tables.insert (tableName req.parent req.tableId) (req.object s.allocated)
          allocated := s.allocated + 1
          db := s.db.saveTable (req.object s.allocated) }
  | childCreated
      (call : TableCall) (kind : ChildKind) (parent id : Bytes) (t : TableObject) (c : Child)
      (hevent : call.event (.ok ()) = .other)
      (ht : s.tables[parent]? = some t)
      (hid : tableIDPattern id = true)
      (hname : c.name = parent ++ kind.segment ++ id) :
      CallEffect s call (.ok ()) { s with db := s.db.putChild c kind }
  | changed
      (call : TableCall) (name : Bytes) (t : TableObject) (schema : Table)
      (deletionProtection : Bool) (db' : Database)
      (hevent : call.event (.ok ()) = .other)
      (ht : s.tables[name]? = some t)
      (hframe : TableFrame s.db db' t (t.withSchema schema deletionProtection)) :
      CallEffect s call (.ok ())
        { s with
          tables := s.tables.insert name (t.withSchema schema deletionProtection)
          db := db' }
  | deleted
      (name : Bytes) (reading : Option Bytes) (d : Int) (fault : Option (Fault TxPoint))
      (t : TableObject) (db₁ : Database)
      (ht : s.tables[name]? = some t)
      (hmove : s.db.moveRows (t.parent, t.storageId)
        (t.parent, tombstoneID t.tableId (toUnixMicro d)) = .ok db₁) :
      CallEffect s (.deleteTable name reading d fault) (.ok ())
        { s with
          tables := s.tables.erase name
          deletedTables := s.deletedTables.insert (t.deletedAt d).storageName (t.deletedAt d)
          db := (((db₁.deleteTableRecord (t.parent, t.storageId)).saveTable
            (t.deletedAt d)).purgeChangeLog t.name).moveTableChildren t.name
              (t.deletedAt d).storageName }
  | undeleted
      (name : Bytes) (now : Int) (fault : Option (Fault TxPoint)) (key : Bytes) (t : TableObject)
      (db₁ : Database)
      (hnew : s.tables[name]? = none)
      (ht : s.latestTombstone name = some (key, t))
      (hmove : (s.db.moveTableChildren t.storageName t.name).moveRows
        (t.parent, t.storageId) (t.parent, t.tableId) = .ok db₁) :
      CallEffect s (.undeleteTable name now fault) (.ok ())
        { s with
          tables := s.tables.insert t.name t.undeleted
          deletedTables := s.deletedTables.erase t.storageName
          db := (db₁.deleteTableRecord (t.parent, t.storageId)).saveTable t.undeleted }
  | undeleteFailed
      (name : Bytes) (now : Int) (fault : Option (Fault TxPoint)) (st : Status) (key : Bytes)
      (t : TableObject)
      (hlate : s.UndeleteFailsAfterRename name now fault)
      (ht : s.latestTombstone name = some (key, t)) :
      CallEffect s (.undeleteTable name now fault) (.error st)
        { s with deletedTables := s.deletedTables.insert key t.renamed }
  | purged
      (now : Int) (s' : Server)
      (h : Purged now s s') :
      CallEffect s (.purgeExpiredTombstones now) (.ok ()) s'

variable {s : Server}

/-- Only `ModifyColumnFamilies` changes the schema. -/
theorem call_tbl {st st' : TableState} {c : Call} (h : st.call c = some st') :
    (∃ protoSize txFailure mods, c = .modifyColumnFamilies protoSize txFailure mods) ∨
      st'.tbl = st.tbl := by
  cases c with
  | modifyColumnFamilies protoSize txFailure mods => exact .inl ⟨protoSize, txFailure, mods, rfl⟩
  | mutateRow | mutateRows | checkAndMutateRow | readModifyWriteRow | dropRowRange =>
    obtain ⟨_, _, _, rfl⟩ := afterSuccess_eq_some h
    exact .inr rfl

theorem write_effect (name : Bytes) (c : Call) :
    CallEffect s (.write name c) (.ok ()) (s.write name c) := by
  unfold Server.write
  split
  · exact .unchanged _ _ rfl
  rename_i t ht
  split
  · exact .unchanged _ _ rfl
  rename_i st hst
  refine .changed _ name t st.tbl t.deletionProtection _ rfl ht ?_
  have hrows : ∀ k, k ≠ t.rows → (s.db.putStore t st.db).rows k = s.db.rows k :=
    fun k hk => Function.update_of_ne hk _ _
  have hchildren : ∀ kind, (s.db.putStore t st.db).children kind = s.db.children kind := by
    intro kind
    cases kind <;> rfl
  rcases call_tbl hst with ⟨protoSize, txFailure, mods, rfl⟩ | htbl
  · refine ⟨hrows, fun kind => ?_, .inl rfl⟩
    cases kind <;> rfl
  have hsame : t.withSchema st.tbl t.deletionProtection = t := by
    rw [htbl]
    rfl
  split
  · refine ⟨hrows, fun kind => ?_, .inl rfl⟩
    cases kind <;> rfl
  · exact ⟨hrows, hchildren, .inr ⟨rfl, by rw [hsame]⟩⟩

variable {schemaEqual : List RowKeyField → List RowKeyField → Bool} {req : UpdateTableRequest}

/-- An update changes nothing but the schema and the protection flag. -/
theorem updatePaths_eq_ok {tbl : Table} {paths : List UpdatePath} {next next' : TableObject}
    (h : updatePaths schemaEqual req tbl paths next = .ok next') :
    ∃ schema deletionProtection, next' = next.withSchema schema deletionProtection := by
  induction paths generalizing next with
  | nil =>
    cases h
    exact ⟨_, _, rfl⟩
  | cons path paths ih =>
    unfold updatePaths at h
    split at h
    · cases h
    rename_i next₁ hpath
    obtain ⟨schema₁, protection₁, rfl⟩ :
        ∃ schema protection, next₁ = next.withSchema schema protection := by
      cases path <;> simp only [updatePath] at hpath <;> (try split at hpath) <;> cases hpath <;>
        exact ⟨_, _, rfl⟩
    obtain ⟨schema, protection, rfl⟩ := ih h
    exact ⟨schema, protection, rfl⟩

theorem updateTable_effect (schemaEqual : List RowKeyField → List RowKeyField → Bool)
    (req : UpdateTableRequest) :
    CallEffect s (.updateTable schemaEqual req) (s.updateTable schemaEqual req).1
      (s.updateTable schemaEqual req).2 := by
  unfold Server.updateTable Server.localRequireTable
  split
  · exact .unchanged _ _ rfl
  cases ht : s.tables[req.name]? with
  | none => exact .unchanged _ _ rfl
  | some t =>
    simp only
    split
    · exact .unchanged _ _ rfl
    rename_i next hnext
    obtain ⟨schema, protection, rfl⟩ := updatePaths_eq_ok hnext
    refine .changed _ req.name t schema protection _ rfl ht ?_
    split_ifs
    · exact ⟨fun _ _ => rfl, fun kind => by cases kind <;> rfl, .inl rfl⟩
    · exact ⟨fun _ _ => rfl, fun kind => by cases kind <;> rfl, .inl rfl⟩

theorem createChild_effect (call : TableCall) (kind : ChildKind) {parent id : Bytes} {c : Child}
    (hevent : call.event (.ok ()) = .other) (ht : ∃ t, s.localRequireTable parent = .ok t)
    (hid : tableIDPattern id = true) (hname : c.name = parent ++ kind.segment ++ id) :
    CallEffect s call (.ok ()) { s with db := s.db.putChild c kind } := by
  obtain ⟨t, ht⟩ := ht
  unfold Server.localRequireTable at ht
  split at ht
  · cases ht
  · rename_i t' ht'
    exact .childCreated call kind parent id t' c hevent ht' hid hname

theorem createAuthorizedView_effect (invalid : Option Status) (req : CreateChildRequest) :
    CallEffect s (.createAuthorizedView invalid req)
      (s.createAuthorizedView invalid req).1 (s.createAuthorizedView invalid req).2 := by
  unfold Server.createAuthorizedView
  split
  · exact .unchanged _ _ rfl
  rename_i hrequired
  split
  · exact .unchanged _ _ rfl
  rename_i t ht
  split
  · exact .unchanged _ _ rfl
  simp only
  split_ifs
  · exact .unchanged _ _ rfl
  · simp only [not_or, Bool.not_eq_false] at hrequired
    exact createChild_effect _ .view (c := ⟨req.parent ++ viewsSegment ++ req.id,
      req.deletionProtection, req.content⟩) rfl ⟨t, ht⟩ hrequired.2 rfl

theorem createSchemaBundle_effect (invalid : Option Status) (req : CreateChildRequest) :
    CallEffect s (.createSchemaBundle invalid req)
      (s.createSchemaBundle invalid req).1 (s.createSchemaBundle invalid req).2 := by
  unfold Server.createSchemaBundle
  split
  · exact .unchanged _ _ rfl
  rename_i hid
  split
  · exact .unchanged _ _ rfl
  rename_i t ht
  split
  · exact .unchanged _ _ rfl
  simp only
  split_ifs
  · exact .unchanged _ _ rfl
  · exact .unchanged _ _ rfl
  · exact createChild_effect _ .bundle (c := ⟨req.parent ++ bundlesSegment ++ req.id,
      false, req.content⟩) rfl ⟨t, ht⟩ (by simpa using hid) rfl

theorem createTable_eq_error {s' : Server} {protoSize : GcRule → Nat} {req : CreateTableRequest}
    {st : Status} (h : s.createTable protoSize req = (.error st, s')) :
    s' = s := by
  unfold Server.createTable at h
  simp only at h
  split at h
  · cases h
    rfl
  split_ifs at h
  · cases h
    rfl
  · cases h

theorem createTable_effect (protoSize : GcRule → Nat) (req : CreateTableRequest) :
    CallEffect s (.createTable protoSize req) (s.createTable protoSize req).1
      (s.createTable protoSize req).2 := by
  rcases hres : s.createTable protoSize req with ⟨st | u, s'⟩
  · rw [createTable_eq_error hres]
    exact .unchanged _ _ rfl
  · obtain ⟨hid, _, hnew, rfl⟩ := createTable_eq_ok hres
    exact .created protoSize req hid hnew

/-- Every call has one of the effects. -/
theorem perform_effect
    (hlive : ∀ (name : Bytes) (t : TableObject), s.tables[name]? = some t → t.Live)
    (call : TableCall) :
    CallEffect s call (s.perform call).1 (s.perform call).2 := by
  cases call with
  | createTable protoSize req => exact createTable_effect protoSize req
  | createAuthorizedView invalid req => exact createAuthorizedView_effect invalid req
  | createSchemaBundle invalid req => exact createSchemaBundle_effect invalid req
  | write name c => exact write_effect name c
  | updateTable schemaEqual req => exact updateTable_effect schemaEqual req
  | deleteTable name reading d fault =>
    simp only [Server.perform]
    rcases hres : s.deleteTable name reading d fault with ⟨st | u, s'⟩
    · rw [deleteTable_eq_error (hlive name) hres]
      exact .unchanged _ _ rfl
    · obtain ⟨t, db₁, ht, _, hmove, rfl⟩ := deleteTable_eq_ok hres
      exact .deleted name reading d fault t db₁ ht hmove
  | undeleteTable name now fault =>
    simp only [Server.perform]
    rcases hres : s.undeleteTable name now fault with ⟨st | u, s'⟩
    · rcases undeleteTable_eq_error hres with rfl | ⟨hlate, key, t, ht, rfl⟩
      · exact .unchanged _ _ rfl
      · exact .undeleteFailed name now fault st key t hlate ht
    · obtain ⟨key, t, db₁, hnew, ht, _, hmove, rfl⟩ := undeleteTable_eq_ok hres
      exact .undeleted name now fault key t db₁ hnew ht hmove
  | purgeExpiredTombstones now => exact .purged now _ (purgeExpiredTombstones_purged now s)

end Effects

section Shape

variable {s s' : Server}

/-- The call is not an undeletion whose transaction fails late. -/
def Server.FailsEarly (s : Server) (call : TableCall) : Prop :=
  ∀ name now fault, call = .undeleteTable name now fault →
    ¬ s.UndeleteFailsAfterRename name now fault

theorem CallEffect.wellShaped {call : TableCall} {result : Except Status Unit}
    (h : CallEffect s call result s') (hs : s.WellShaped) (hearly : s.FailsEarly call) :
    s'.WellShaped := by
  cases h with
  | unchanged => exact hs
  | created protoSize req hid hnew =>
    exact ⟨FiniteMap.forall_insert ⟨rfl, hid, rfl, rfl, rfl⟩ hs.live, hs.dead⟩
  | childCreated => exact ⟨hs.live, hs.dead⟩
  | changed call name t schema protection db' hevent ht hframe =>
    obtain ⟨hname, hlive⟩ := hs.live name t ht
    exact ⟨FiniteMap.forall_insert ⟨hname, hlive.withSchema schema protection⟩ hs.live, hs.dead⟩
  | deleted name reading d fault t db₁ ht hmove =>
    exact ⟨FiniteMap.forall_erase hs.live,
      FiniteMap.forall_insert ⟨rfl, d, (hs.live name t ht).2.deletedAt d⟩ hs.dead⟩
  | undeleted name now fault key t db₁ hnew ht hmove =>
    obtain ⟨hkey, _, _⟩ := latestTombstone_eq_some ht
    obtain ⟨_, d, hdead⟩ := hs.dead key t hkey
    exact ⟨FiniteMap.forall_insert ⟨rfl, hdead.undeleted⟩ hs.live, FiniteMap.forall_erase hs.dead⟩
  | undeleteFailed name now fault st key t hlate _ => exact absurd hlate (hearly name now fault rfl)
  | purged now s' hpurged =>
    refine ⟨fun name t ht => ?_, fun key t ht => ?_⟩
    · rw [hpurged.tables] at ht
      exact hs.live name t ht
    · rw [hpurged.tombstones] at ht
      exact hs.dead key t (Option.filter_eq_some_iff.mp ht).1

/-- The tables and tombstones in memory. -/
def Server.objects (s : Server) : Set TableObject :=
  {t | (∃ name : Bytes, s.tables[name]? = some t) ∨
    ∃ key : Bytes, s.deletedTables[key]? = some t}

/-- The key of the rows and of the metadata of a table. -/
def TableObject.storageKey (t : TableObject) : StorageKey :=
  (t.parent, t.storageId)

/-- The persisted tables are the tables and tombstones in memory. -/
def Server.MatchesPersisted (s : Server) : Prop :=
  Catalog.Represents TableObject.storageKey TableObject.encodeMetadata s.objects s.db.tables

variable {t : TableObject} {name : Bytes} {db' : Database}

/-- Two tables are not stored under one key. -/
theorem Server.WellShaped.eq_of_storageKey (hs : s.WellShaped) {t' : TableObject}
    (ht : t ∈ s.objects) (ht' : t' ∈ s.objects) (h : t.storageKey = t'.storageKey) :
    t = t' := by
  obtain ⟨hparent, hid⟩ := Prod.mk.inj h
  rcases ht with ⟨name, ht⟩ | ⟨key, ht⟩
  · obtain ⟨hname, hlive⟩ := hs.live name t ht
    rcases ht' with ⟨name', ht'⟩ | ⟨key', ht'⟩
    · obtain ⟨hname', hlive'⟩ := hs.live name' t' ht'
      rw [hname, TableObject.name, hparent, ← hlive.storageId, hid, hlive'.storageId] at ht
      rw [hname', TableObject.name] at ht'
      exact Option.some.inj (ht.symm.trans ht')
    · obtain ⟨_, d, hdead⟩ := hs.dead key' t' ht'
      rw [hlive.storageId, hdead.storageId] at hid
      exact absurd hid.symm (tombstoneID_ne hlive.tableId _)
  · obtain ⟨hkey, d, hdead⟩ := hs.dead key t ht
    rcases ht' with ⟨name', ht'⟩ | ⟨key', ht'⟩
    · obtain ⟨_, hlive'⟩ := hs.live name' t' ht'
      rw [hlive'.storageId, hdead.storageId] at hid
      exact absurd hid (tombstoneID_ne hlive'.tableId _)
    obtain ⟨hkey', _⟩ := hs.dead key' t' ht'
    rw [hkey, TableObject.storageName, hparent, hid] at ht
    rw [hkey', TableObject.storageName] at ht'
    exact Option.some.inj (ht.symm.trans ht')

/-- One table is replaced by another: of the others, those with the old or the new key
are gone. -/
def Server.Replaced (s s' : Server) (t : TableObject) (k : StorageKey) : Prop :=
  ∀ t', t' ∈ s'.objects ↔
    t' = t ∨ (t' ∈ s.objects ∧ t'.storageKey ≠ k ∧ t'.storageKey ≠ t.storageKey)

theorem Server.Replaced.exists_storageKey {t' : TableObject} {k : StorageKey}
    (h : s.Replaced s' t k) (ht' : t' ∈ s.objects) (hne : t'.storageKey ≠ k) :
    ∃ t₁ ∈ s'.objects, t₁.storageKey = t'.storageKey := by
  by_cases hkey : t'.storageKey = t.storageKey
  · exact ⟨t, (h t).mpr (.inl rfl), hkey.symm⟩
  · exact ⟨t', (h t').mpr (.inr ⟨ht', hne, hkey⟩), rfl⟩

theorem replaced_of (hs' : s'.WellShaped) {k : StorageKey} (ht : t ∈ s'.objects)
    (hsub : ∀ t' ∈ s'.objects, t' = t ∨ (t' ∈ s.objects ∧ t'.storageKey ≠ k))
    (hkept : ∀ t' ∈ s.objects, t'.storageKey ≠ k → t'.storageKey ≠ t.storageKey → t' ∈ s'.objects) :
    s.Replaced s' t k := by
  intro t'
  constructor
  · intro ht'
    by_cases hkey : t'.storageKey = t.storageKey
    · exact .inl (hs'.eq_of_storageKey ht' ht hkey)
    · exact (hsub t' ht').imp_right (fun ⟨hmem, hne⟩ => ⟨hmem, hne, hkey⟩)
  · rintro (rfl | ⟨hmem, hne, hkey⟩)
    · exact ht
    · exact hkept t' hmem hne hkey

/-- A table is put under a name. -/
theorem replaced_of_insert (hs' : s'.WellShaped)
    (hname : ∀ t', s.tables[name]? = some t' → t'.storageKey = t.storageKey)
    (htables : s'.tables = s.tables.insert name t) (hdeleted : s'.deletedTables = s.deletedTables) :
    s.Replaced s' t t.storageKey := by
  have hmem : t ∈ s'.objects := .inl ⟨name, htables ▸ Std.ExtTreeMap.getElem?_insert_self⟩
  refine replaced_of hs' hmem (fun t' ht' => ?_) (fun t' ht' hkey _ => ?_)
  · by_cases hkey : t'.storageKey = t.storageKey
    · exact .inl (hs'.eq_of_storageKey ht' hmem hkey)
    · refine .inr ⟨?_, hkey⟩
      rcases ht' with ⟨name', ht'⟩ | hdead
      · rw [htables, FiniteMap.getElem?_insert_eq] at ht'
        split_ifs at ht' with hname'
        · exact absurd (congrArg TableObject.storageKey (Option.some.inj ht').symm) hkey
        · exact .inl ⟨name', ht'⟩
      · exact .inr (hdeleted ▸ hdead)
  · rcases ht' with ⟨name', ht'⟩ | hdead
    · refine .inl ⟨name', ?_⟩
      rw [htables, FiniteMap.getElem?_insert_eq, if_neg]
      · exact ht'
      · rintro rfl
        exact hkey (hname t' ht')
    · exact .inr (hdeleted ▸ hdead)

theorem replaced_deleted {d : Int} (hs : s.WellShaped) (hs' : s'.WellShaped)
    (ht : s.tables[name]? = some t) (htables : s'.tables = s.tables.erase name)
    (hdeleted : s'.deletedTables =
      s.deletedTables.insert (t.deletedAt d).storageName (t.deletedAt d)) :
    s.Replaced s' (t.deletedAt d) t.storageKey := by
  obtain ⟨hname, hlive⟩ := hs.live name t ht
  have hmem : t ∈ s.objects := .inl ⟨name, ht⟩
  refine replaced_of hs' (.inr ⟨_, hdeleted ▸ Std.ExtTreeMap.getElem?_insert_self⟩)
    (fun t' ht' => ?_) (fun t' ht' hne hkey => ?_)
  · rcases ht' with ⟨name', ht'⟩ | ⟨key', ht'⟩
    · rw [htables, FiniteMap.getElem?_erase_eq] at ht'
      split_ifs at ht' with hname'
      have hmem' : t' ∈ s.objects := .inl ⟨name', ht'⟩
      refine .inr ⟨hmem', fun hkey => hname' ?_⟩
      rw [hname, (hs.live name' t' ht').1, hs.eq_of_storageKey hmem' hmem hkey]
    · rw [hdeleted, FiniteMap.getElem?_insert_eq] at ht'
      split_ifs at ht' with hkey'
      · exact .inl (Option.some.inj ht').symm
      have hmem' : t' ∈ s.objects := .inr ⟨key', ht'⟩
      refine .inr ⟨hmem', fun hkey => ?_⟩
      obtain ⟨_, d', hdead⟩ := hs.dead key' t' ht'
      exact hdead.not_live (hs.eq_of_storageKey hmem' hmem hkey ▸ hlive)
  rcases ht' with ⟨name', ht'⟩ | ⟨key', ht'⟩
  · refine .inl ⟨name', ?_⟩
    rw [htables, FiniteMap.getElem?_erase_eq, if_neg]
    · exact ht'
    rintro rfl
    rw [ht] at ht'
    cases ht'
    exact hne rfl
  refine .inr ⟨key', ?_⟩
  rw [hdeleted, FiniteMap.getElem?_insert_eq, if_neg]
  · exact ht'
  intro hkey'
  obtain ⟨hstorage, d', hdead⟩ := hs.dead key' t' ht'
  rw [hstorage] at hkey'
  obtain ⟨hparent, hid⟩ := tableName_injective (hlive.deletedAt d).slashless
    hdead.slashless hkey'
  exact hkey (Prod.ext hparent.symm hid.symm)

theorem replaced_undeleted {key : Bytes} (hs : s.WellShaped) (hs' : s'.WellShaped)
    (hnew : s.tables[name]? = none) (ht : s.latestTombstone name = some (key, t))
    (htables : s'.tables = s.tables.insert t.name t.undeleted)
    (hdeleted : s'.deletedTables = s.deletedTables.erase t.storageName) :
    s.Replaced s' t.undeleted t.storageKey := by
  obtain ⟨hkey, hname, _⟩ := latestTombstone_eq_some ht
  obtain ⟨hstorage, d, hdead⟩ := hs.dead key t hkey
  have hmem : t ∈ s.objects := .inr ⟨key, hkey⟩
  refine replaced_of hs' (.inl ⟨_, htables ▸ Std.ExtTreeMap.getElem?_insert_self⟩)
    (fun t' ht' => ?_) (fun t' ht' hne hkey' => ?_)
  · rcases ht' with ⟨name', ht'⟩ | ⟨key', ht'⟩
    · rw [htables, FiniteMap.getElem?_insert_eq] at ht'
      split_ifs at ht' with hname'
      · exact .inl (Option.some.inj ht').symm
      have hmem' : t' ∈ s.objects := .inl ⟨name', ht'⟩
      refine .inr ⟨hmem', fun heq => ?_⟩
      have heq := hs.eq_of_storageKey hmem' hmem heq
      exact hdead.not_live (heq ▸ (hs.live name' t' ht').2)
    · rw [hdeleted, FiniteMap.getElem?_erase_eq] at ht'
      split_ifs at ht' with hkey'
      have hmem' : t' ∈ s.objects := .inr ⟨key', ht'⟩
      refine .inr ⟨hmem', fun heq => hkey' ?_⟩
      rw [(hs.dead key' t' ht').1, hs.eq_of_storageKey hmem' hmem heq]
  · rcases ht' with ⟨name', ht'⟩ | ⟨key', ht'⟩
    · refine .inl ⟨name', ?_⟩
      rw [htables, FiniteMap.getElem?_insert_eq, if_neg]
      · exact ht'
      · rintro rfl
        rw [hname, hnew] at ht'
        cases ht'
    · refine .inr ⟨key', ?_⟩
      rw [hdeleted, FiniteMap.getElem?_erase_eq, if_neg]
      · exact ht'
      rintro rfl
      rw [← hstorage, hkey] at ht'
      cases ht'
      exact hne rfl

/-- The tombstones that are expired are gone. -/
theorem Purged.objects {now : Int} (hs : s.WellShaped) (h : Purged now s s') (t : TableObject) :
    t ∈ s'.objects ↔
      t ∈ s.objects ∧ ∀ key : Bytes, s.deletedTables[key]? = some t → ¬ t.Expired now := by
  constructor
  · rintro (⟨name, ht⟩ | ⟨key, ht⟩)
    · rw [h.tables] at ht
      refine ⟨.inl ⟨name, ht⟩, fun key hkey => ?_⟩
      obtain ⟨_, d, hdead⟩ := hs.dead key t hkey
      exact absurd (hs.live name t ht).2 hdead.not_live
    · rw [h.tombstones] at ht
      obtain ⟨ht, hkept⟩ := Option.filter_eq_some_iff.mp ht
      exact ⟨.inr ⟨key, ht⟩, fun _ _ => by simpa using hkept⟩
  · rintro ⟨⟨name, ht⟩ | ⟨key, ht⟩, hkept⟩
    · exact .inl ⟨name, h.tables ▸ ht⟩
    · refine .inr ⟨key, ?_⟩
      rw [h.tombstones, ht]
      simp [Option.filter, hkept key ht]

end Shape

section Tombstone

/-- A request for a table without families. -/
def emptyTableRequest (parent tableId : Bytes) : CreateTableRequest :=
  ⟨parent, tableId, ∅, ⟨false⟩, none, none, false, []⟩

/-- A server with one tombstone. -/
def tombstoneServer : Server :=
  (((newServerState false []).perform
    (.createTable (fun _ => 0) (emptyTableRequest (utf8 "i") (utf8 "t")))).2.perform
      (.deleteTable (utf8 "i/tables/t") none 1000 none)).2

end Tombstone

end Bttest
end LittleBigtable
