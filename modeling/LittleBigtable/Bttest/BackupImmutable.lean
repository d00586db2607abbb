import LittleBigtable.Bttest.BackupCalls
import LittleBigtable.Bttest.TableCalls

/-!
# Backups are snapshots

The snapshot rows of a backup are in the table of all rows.  A table in the way of them
would be one with the ID `__backup__` under the name of a backup as parent; a server that
is not strict accepts such a parent.  `SparesSnapshots` says that a call makes no such
table.

In a run of such calls no live table and no tombstone has the storage key of a
snapshot (`Server.Separate`), so a backup keeps its manifest and its rows until it is
deleted or expires (`BackupServer.Holds`), and `backup_immutable` follows: a restore
gives the table of the time of `CreateBackup`, and touches no other row.
-/

namespace LittleBigtable
namespace Bttest

open List FiniteMap Std

section Keys

/-- The key of the snapshot rows of a backup with a valid name. -/
def SnapshotKey (k : StorageKey) : Prop :=
  k.2 = backupSnapshotStorageID ∧
    ∃ cluster id, tableIDPattern id = true ∧ k.1 = backupName cluster id

theorem snapshotKey_backupName {id : Bytes} (hid : tableIDPattern id = true) {cluster : Bytes} :
    SnapshotKey (snapshotRows (backupName cluster id)) :=
  ⟨rfl, cluster, id, hid, rfl⟩

theorem not_snapshotKey_tombstoneID (parent id : Bytes) (d : Int) :
    ¬ SnapshotKey (parent, tombstoneID id d) :=
  fun h => tombstoneID_ne (by decide) d h.1

theorem not_snapshotKey_mvStorageID (name id : Bytes) :
    ¬ SnapshotKey (name, mvStorageID id) := by
  rintro ⟨heq, _⟩
  have hmem : (47 : UInt8) ∈ mvStorageID id := mem_append_left _ (by decide)
  simp only at heq
  rw [heq] at hmem
  revert hmem
  decide

theorem mvStorageID_ne {id' : Bytes} (hid' : tableIDPattern id' = true) (id : Bytes) :
    mvStorageID id ≠ id' := by
  intro heq
  refine slashless_of_tableIDPattern hid' (heq ▸ ?_)
  exact mem_append_left _ (by decide)

end Keys

section Separate

/-- A deleted table is stored under a tombstone ID, or already under its ID when an
undeletion failed late. -/
structure TableObject.Tombstone (t : TableObject) : Prop where
  tableId : tableIDPattern t.tableId = true
  rows : t.rows = (t.parent, t.storageId)
  storageId : t.storageId = t.tableId ∨ ∃ d, t.storageId = tombstoneID t.tableId d

/-- No table and no tombstone has the key of a snapshot, and the keys that a new table
can get are free. -/
structure Server.Separate (s : Server) : Prop where
  live : ∀ (name : Bytes) (t : TableObject), s.tables[name]? = some t →
    name = t.name ∧ t.Live ∧ ¬ SnapshotKey (t.parent, t.tableId)
  dead : ∀ (key : Bytes) (t : TableObject), s.deletedTables[key]? = some t →
    t.Tombstone ∧ ¬ SnapshotKey (t.parent, t.tableId)
  free : ∀ parent id : Bytes, tableIDPattern id = true → ¬ SnapshotKey (parent, id) →
    s.tables[tableName parent id]? = none → s.db.rows (parent, id) = ∅

/-- A call does not create a table with the storage key of a snapshot. -/
def TableCall.SparesSnapshots : TableCall → Prop
  | .createTable _ req => ¬ SnapshotKey (req.parent, req.tableId)
  | _ => True

variable {t : TableObject}

theorem TableObject.Live.rows_eq (h : t.Live) :
    t.rows = (t.parent, t.tableId) := by
  rw [h.rows, h.storageId]

theorem TableObject.Tombstone.rows_not_snapshotKey (h : t.Tombstone)
    (hkey : ¬ SnapshotKey (t.parent, t.tableId)) :
    ¬ SnapshotKey t.rows := by
  rw [h.rows]
  rcases h.storageId with heq | ⟨d, heq⟩
  · rw [heq]
    exact hkey
  · rw [heq]
    exact not_snapshotKey_tombstoneID _ _ d

/-- Rows at other keys are not touched by a move, and none are left behind. -/
theorem moveRows_rows_of_ne {db db' : Database} {src dst k : StorageKey}
    (h : db.moveRows src dst = .ok db') (hdst : k ≠ dst) :
    db'.rows k = if k = src then ∅ else db.rows k := by
  by_cases hne : src = dst
  · subst hne
    rw [if_neg hdst]
    simp only [Database.moveRows, if_pos] at h
    cases h
    rfl
  · rw [moveRows_rows hne h]
    by_cases hsrc : k = src
    · rw [if_pos hsrc, hsrc, Function.update_self]
    · rw [if_neg hsrc, Function.update_of_ne hsrc, Function.update_of_ne hdst]

variable {s s' : Server} {call : TableCall} {result : Except Status Unit}

theorem separate_newServerState (strictAdmin : Bool) (instances : List Bytes) :
    (newServerState strictAdmin instances).Separate := by
  refine ⟨fun name t ht => ?_, fun key t ht => ?_, fun _ _ _ _ _ => rfl⟩
  · simp [newServerState] at ht
  · simp [newServerState] at ht

theorem Server.Separate.tombstone {name key : Bytes} (hs : s.Separate)
    (ht : s.latestTombstone name = some (key, t)) :
    t.Tombstone ∧ ¬ SnapshotKey (t.parent, t.tableId) :=
  hs.dead key t (latestTombstone_eq_some ht).1

/-- Calls on tables leave the rows of snapshots alone. -/
theorem CallEffect.snapshot_rows (h : CallEffect s call result s') (hs : s.Separate)
    {k : StorageKey} (hk : SnapshotKey k) :
    s'.db.rows k = s.db.rows k := by
  have hne : ∀ {k' : StorageKey}, ¬ SnapshotKey k' → k ≠ k' := by
    rintro k' hk' rfl
    exact hk' hk
  cases h with
  | unchanged | created | undeleteFailed => rfl
  | childCreated call kind => cases kind <;> rfl
  | changed call name t schema protection db' hevent ht hframe =>
    obtain ⟨_, hlive, hkey⟩ := hs.live name t ht
    refine hframe.rows k (hne ?_)
    rw [hlive.rows_eq]
    exact hkey
  | deleted name reading d fault t db₁ ht hmove =>
    obtain ⟨_, hlive, hkey⟩ := hs.live name t ht
    rw [hlive.storageId] at hmove
    exact (moveRows_rows_of_ne hmove (hne (not_snapshotKey_tombstoneID _ _ _))).trans
      (if_neg (hne hkey))
  | undeleted name now fault key t db₁ hnew ht hmove =>
    obtain ⟨htomb, hkey⟩ := hs.tombstone ht
    have hrows := htomb.rows_not_snapshotKey hkey
    rw [htomb.rows] at hrows
    exact (moveRows_rows_of_ne hmove (hne hkey)).trans (if_neg (hne hrows))
  | purged now s' hpurged =>
    refine hpurged.rows_kept k (fun key t ht _ heq => ?_)
    obtain ⟨htomb, hkey⟩ := hs.dead key t ht
    exact htomb.rows_not_snapshotKey hkey (heq ▸ hk)

/-- Calls that make no table in the way of a snapshot keep tables and snapshots
separate. -/
theorem CallEffect.separate (h : CallEffect s call result s') (hs : s.Separate)
    (hspares : call.SparesSnapshots) :
    s'.Separate := by
  cases h with
  | unchanged => exact hs
  | created protoSize req hid hnew =>
    refine ⟨forall_insert ⟨rfl, ⟨hid, rfl, rfl, rfl⟩, hspares⟩ hs.live, hs.dead,
      fun parent id hid' hkey hnone => ?_⟩
    rw [getElem?_insert_eq] at hnone
    split_ifs at hnone
    exact hs.free parent id hid' hkey hnone
  | childCreated call kind => cases kind <;> exact ⟨hs.live, hs.dead, hs.free⟩
  | changed call name t schema protection db' hevent ht hframe =>
    obtain ⟨hname, hlive, hkey⟩ := hs.live name t ht
    refine ⟨forall_insert ⟨hname, hlive.withSchema schema protection, hkey⟩ hs.live,
      hs.dead, fun parent id hid hkey' hnone => ?_⟩
    rw [getElem?_insert_eq] at hnone
    split_ifs at hnone with heq
    refine (hframe.rows _ ?_).trans (hs.free parent id hid hkey' hnone)
    intro hrows
    rw [hlive.rows_eq] at hrows
    cases hrows
    exact heq hname
  | deleted name reading d fault t db₁ ht hmove =>
    obtain ⟨hname, hlive, hkey⟩ := hs.live name t ht
    rw [hlive.storageId] at hmove
    refine ⟨forall_erase hs.live,
      forall_insert ⟨⟨hlive.tableId, rfl, .inr ⟨_, rfl⟩⟩, hkey⟩ hs.dead,
      fun parent id hid hkey' hnone => ?_⟩
    refine (moveRows_rows_of_ne hmove (fun heq => ?_)).trans ?_
    · exact tombstoneID_ne hid _ (Prod.mk.inj heq).2.symm
    split_ifs with hsrc
    · rfl
    refine hs.free parent id hid hkey' ?_
    rw [getElem?_erase_eq] at hnone
    split_ifs at hnone with heq
    · rw [hname] at heq
      obtain ⟨rfl, rfl⟩ := tableName_injective (slashless_of_tableIDPattern hlive.tableId)
        (slashless_of_tableIDPattern hid) heq
      exact absurd rfl hsrc
    · exact hnone
  | undeleted name now fault key t db₁ hnew ht hmove =>
    obtain ⟨htomb, hkey⟩ := hs.tombstone ht
    refine ⟨forall_insert ⟨rfl, ⟨htomb.tableId, rfl, rfl, rfl⟩, hkey⟩ hs.live,
      forall_erase hs.dead, fun parent id hid hkey' hnone => ?_⟩
    rw [getElem?_insert_eq] at hnone
    split_ifs at hnone with heq
    refine (moveRows_rows_of_ne hmove (fun hdst => ?_)).trans ?_
    · cases hdst
      exact heq rfl
    · split_ifs
      · rfl
      · exact hs.free parent id hid hkey' hnone
  | undeleteFailed name now fault st key t hlate ht =>
    obtain ⟨htomb, hkey⟩ := hs.tombstone ht
    exact ⟨hs.live, forall_insert ⟨⟨htomb.tableId, rfl, .inl rfl⟩, hkey⟩ hs.dead, hs.free⟩
  | purged now s' hpurged =>
    refine ⟨fun name t ht => ?_, fun key t ht => ?_, fun parent id hid hkey hnone => ?_⟩
    · rw [hpurged.tables] at ht
      exact hs.live name t ht
    · rw [hpurged.tombstones] at ht
      exact hs.dead key t (Option.filter_eq_some_iff.mp ht).1
    rw [hpurged.tables] at hnone
    by_cases hrows : ∃ (key : Bytes) (t : TableObject),
        s.deletedTables[key]? = some t ∧ t.Expired now ∧ t.rows = (parent, id)
    · obtain ⟨key, t, ht, hexp, heq⟩ := hrows
      rw [← heq]
      exact hpurged.rows_purged key t ht hexp
    · refine (hpurged.rows_kept _ (fun key t ht hexp heq => ?_)).trans
        (hs.free parent id hid hkey hnone)
      exact hrows ⟨key, t, ht, hexp, heq⟩

theorem Server.Separate.perform_effect (hs : s.Separate) (call : TableCall) :
    CallEffect s call (s.perform call).1 (s.perform call).2 :=
  Bttest.perform_effect (fun name t ht => (hs.live name t ht).2.1) call

end Separate

section Invariant

variable {s s' : BackupServer}

/-- Tables are separate from snapshots, and backups are known by their name, which is a
valid one. -/
structure BackupServer.Sound (s : BackupServer) : Prop where
  core : s.core.Separate
  names : ∀ (name : Bytes) (b : Backup), s.backups[name]? = some b →
    b.name = name ∧ SnapshotKey (snapshotRows name)

/-- A call does not make a table with the storage key of a snapshot. -/
def BackupCall.SparesSnapshots : BackupCall → Prop
  | .table call => call.SparesSnapshots
  | .restoreTable _ req => ¬ SnapshotKey (req.parent, req.tableId)
  | _ => True

variable {b : Backup} {src : StorageKey} {name' : Bytes}

theorem mem_listBackups (hs : s.Sound) {pre : Bytes} (hb : b ∈ s.listBackups pre) :
    s.backups[b.name]? = some b := by
  unfold BackupServer.listBackups at hb
  obtain ⟨⟨name, b'⟩, hmem, rfl⟩ := mem_map.mp hb
  have hget := ExtTreeMap.mem_toList_iff_getElem?_eq_some.mp (mem_filter.mp hmem).1
  rw [(hs.names name b' hget).1]
  exact hget

theorem Server.Separate.of_snapshot_rows {c : Server} (hc : c.Separate) {db : Database}
    (hrows : ∀ k, ¬ SnapshotKey k → db.rows k = c.db.rows k) :
    ({ c with db := db } : Server).Separate :=
  ⟨hc.live, hc.dead, fun parent id hid hkey hnone =>
    (hrows _ hkey).trans (hc.free parent id hid hkey hnone)⟩

theorem replaceRows_of_ne (db : Database) (src : StorageKey) {dst k : StorageKey} (hne : k ≠ dst) :
    (db.replaceRows src dst).rows k = db.rows k :=
  Function.update_of_ne hne _ _

theorem replaceRows_dst (db : Database) {dst : StorageKey} (hne : src ≠ dst) :
    (db.replaceRows src dst).rows dst = db.rows src := by
  unfold Database.replaceRows
  simp only
  rw [Function.update_self, if_neg hne]

theorem BackupServer.Sound.put (hs : s.Sound) {manifest : TableRecord}
    (hname : SnapshotKey (snapshotRows b.name)) :
    (s.withBackup src manifest b).Sound := by
  refine ⟨hs.core.of_snapshot_rows (fun k hk => replaceRows_of_ne _ _ ?_),
    forall_insert ⟨rfl, hname⟩ hs.names⟩
  rintro rfl
  exact hk hname

theorem BackupServer.Sound.purge (hs : s.Sound) {name : Bytes}
    (hname : SnapshotKey (snapshotRows name)) :
    (s.purge name).Sound := by
  refine ⟨hs.core.of_snapshot_rows (fun k hk => Function.update_of_ne ?_ _ _),
    forall_erase hs.names⟩
  rintro rfl
  exact hk hname

theorem BackupServer.Sound.restored (hs : s.Sound) {req : RestoreTableRequest}
    (manifest : TableRecord) (hid : tableIDPattern req.tableId = true)
    (hkey : ¬ SnapshotKey (req.parent, req.tableId)) :
    (s.withRestored req manifest).Sound := by
  refine ⟨⟨forall_insert ⟨rfl, ⟨hid, rfl, rfl, rfl⟩, hkey⟩ hs.core.live, hs.core.dead,
    fun parent id hid' hkey' hnone => ?_⟩, hs.names⟩
  simp only [BackupServer.withRestored] at hnone
  rw [getElem?_insert_eq] at hnone
  split_ifs at hnone with hname
  refine (replaceRows_of_ne _ _ ?_).trans (hs.core.free parent id hid' hkey' hnone)
  rintro heq
  cases heq
  exact hname rfl

/-- Calls that make no table in the way of a snapshot keep the server sound. -/
theorem backupSound_next (s : BackupServer) (call : BackupCall) (s' : BackupServer) (hs : s.Sound)
    (hspares : call.SparesSnapshots) (h : s.next call = some s') :
    s'.Sound := by
  cases h
  cases call with simp only [BackupServer.perform]
  | table call => exact ⟨(hs.core.perform_effect call).separate hs.core hspares, hs.names⟩
  | storeView name id rows =>
    refine ⟨⟨hs.core.live, hs.core.dead, fun parent id' hid hkey hnone => ?_⟩, hs.names⟩
    refine (Function.update_of_ne ?_ _ _).trans (hs.core.free parent id' hid hkey hnone)
    exact fun heq => mvStorageID_ne hid id (Prod.mk.inj heq).2.symm
  | createBackup env req =>
    rcases createBackup_cases with ⟨st, heq⟩ | ⟨t, hid, _, _, heq⟩
    · rw [heq]
      exact hs
    · rw [heq]
      exact hs.put (snapshotKey_backupName hid)
  | copyBackup env req =>
    rcases copyBackup_cases with ⟨st, heq⟩ | ⟨source, manifest, hid, _, _, heq⟩
    · rw [heq]
      exact hs
    · rw [heq]
      exact hs.put (snapshotKey_backupName hid)
  | restoreTable env req =>
    rcases restoreTable_cases with ⟨st, heq⟩ | ⟨manifest, hid, _, _, heq⟩
    · rw [heq]
      exact hs
    · rw [heq]
      exact hs.restored manifest hid hspares
  | updateBackup env req =>
    rcases updateBackup_cases env req s with heq | ⟨cur, next, hcur, hname, _, heq⟩
    · rw [heq]
      exact hs
    rw [heq]
    obtain ⟨hcurName, hcurKey⟩ := hs.names _ _ hcur
    refine ⟨hs.core, forall_insert ⟨rfl, ?_⟩ hs.names⟩
    rw [hname, hcurName]
    exact hcurKey
  | deleteBackup env name =>
    rcases deleteBackup_cases env name s with heq | ⟨⟨b, hb⟩, heq⟩
    · rw [heq]
      exact hs
    · rw [heq]
      exact hs.purge (hs.names name b hb).2
  | purgeExpiredBackups clock txFailure =>
    refine purgeBackups_keeps BackupServer.Sound (fun b hb _ s' hs' => ?_) hs
    exact hs'.purge (hs.names _ b (mem_listBackups hs hb)).2

/-- The backup is there, with this manifest and these rows. -/
structure BackupServer.Holds (s : BackupServer) (name : Bytes) (manifest : TableRecord)
    (rows : SqlRows) : Prop where
  backup : ∃ b, s.backups[name]? = some b ∧ b.state = .ready
  manifest : s.manifests[name]? = some manifest
  rows : s.core.db.rows (snapshotRows name) = rows

/-- A call neither deletes the backup nor finds it expired. -/
def BackupServer.Keeps (s : BackupServer) (name : Bytes) : BackupCall → Prop
  | .deleteBackup _ name' => name' ≠ name
  | .purgeExpiredBackups clock _ => ∀ b, s.backups[name]? = some b → b.expired (clock name) = false
  | _ => True

variable {name : Bytes} {manifest : TableRecord} {rows : SqlRows}

theorem snapshotRows_injective (hne : name ≠ name') :
    snapshotRows name ≠ snapshotRows name' :=
  fun heq => hne (Prod.mk.inj heq).1

/-- A backup of another name. -/
theorem BackupServer.Holds.put (h : s.Holds name manifest rows) {manifest' : TableRecord}
    (hne : name ≠ b.name) :
    (s.withBackup src manifest' b).Holds name manifest rows := by
  refine ⟨?_, ?_, ?_⟩
  · simp only [BackupServer.withBackup]
    rw [getElem?_insert_eq, if_neg hne.symm]
    exact h.backup
  · simp only [BackupServer.withBackup]
    rw [getElem?_insert_eq, if_neg hne.symm]
    exact h.manifest
  · exact (replaceRows_of_ne _ _ (snapshotRows_injective hne)).trans h.rows

theorem BackupServer.Holds.purge (h : s.Holds name manifest rows) (hne : name ≠ name') :
    (s.purge name').Holds name manifest rows := by
  refine ⟨?_, ?_, ?_⟩
  · simp only [BackupServer.purge]
    rw [getElem?_erase_eq, if_neg hne.symm]
    exact h.backup
  · simp only [BackupServer.purge]
    rw [getElem?_erase_eq, if_neg hne.symm]
    exact h.manifest
  · exact (Function.update_of_ne (snapshotRows_injective hne) _ _).trans h.rows

theorem BackupServer.Holds.ne_of_none (h : s.Holds name manifest rows)
    (hnone : s.backups[name']? = none) :
    name ≠ name' := by
  rintro rfl
  obtain ⟨b, hb, _⟩ := h.backup
  rw [hb] at hnone
  cases hnone

/-- A backup holds its table until it is deleted or expires. -/
theorem holds_next (hs : s.Sound) {call : BackupCall} (hspares : call.SparesSnapshots)
    (hkeeps : s.Keeps name call) (h : s.Holds name manifest rows) :
    (s.perform call).2.Holds name manifest rows := by
  obtain ⟨b, hb, hready⟩ := h.backup
  obtain ⟨_, hkey⟩ := hs.names name b hb
  cases call with simp only [BackupServer.perform]
  | table call =>
    refine ⟨h.backup, h.manifest, ?_⟩
    exact ((hs.core.perform_effect call).snapshot_rows hs.core hkey).trans h.rows
  | storeView name' id rows' =>
    refine ⟨h.backup, h.manifest, (Function.update_of_ne ?_ _ _).trans h.rows⟩
    rintro heq
    exact not_snapshotKey_mvStorageID name' id (heq ▸ hkey)
  | createBackup env req =>
    rcases createBackup_cases with ⟨st, heq⟩ | ⟨t, _, _, hnew, heq⟩
    · rw [heq]
      exact h
    · rw [heq]
      exact h.put (h.ne_of_none hnew)
  | copyBackup env req =>
    rcases copyBackup_cases with ⟨st, heq⟩ | ⟨source, manifest', _, _, hnew, heq⟩
    · rw [heq]
      exact h
    · rw [heq]
      exact h.put (h.ne_of_none hnew)
  | restoreTable env req =>
    rcases restoreTable_cases with ⟨st, heq⟩ | ⟨manifest', _, _, _, heq⟩
    · rw [heq]
      exact h
    rw [heq]
    refine ⟨h.backup, h.manifest, (replaceRows_of_ne _ _ ?_).trans h.rows⟩
    rintro hsnapshot
    exact hspares (hsnapshot ▸ hkey)
  | updateBackup env req =>
    rcases updateBackup_cases env req s with heq | ⟨cur, next, hcur, hname, hstate, heq⟩
    · rw [heq]
      exact h
    rw [heq]
    refine ⟨?_, h.manifest, h.rows⟩
    simp only
    rw [getElem?_insert_eq]
    split_ifs with hnext
    · refine ⟨next, rfl, ?_⟩
      rw [hname, (hs.names _ cur hcur).1] at hnext
      rw [hnext, hb] at hcur
      cases hcur
      rw [hstate, hready]
    · exact h.backup
  | deleteBackup env name' =>
    rcases deleteBackup_cases env name' s with heq | ⟨_, heq⟩
    · rw [heq]
      exact h
    · rw [heq]
      exact h.purge (Ne.symm hkeeps)
  | purgeExpiredBackups clock txFailure =>
    refine purgeBackups_keeps (fun s => s.Holds name manifest rows)
      (fun b' hb' hexp s' hs' => hs'.purge ?_) h
    rintro rfl
    rw [hkeeps b' (mem_listBackups hs hb')] at hexp
    cases hexp

theorem holds_run {calls : List BackupCall} (hs : s.Sound) (h : s.Holds name manifest rows)
    (hmeets : Transition.Meets BackupServer.next
      (fun s call => call.SparesSnapshots ∧ s.Keeps name call) s calls)
    (hrun : Transition.run BackupServer.next s calls = some s') :
    s'.Sound ∧ s'.Holds name manifest rows := by
  refine Transition.invariant_of_meets
    (fun s : BackupServer => s.Sound ∧ s.Holds name manifest rows)
    (fun s call s' hinv hcond hnext => ?_) ⟨hs, h⟩ hmeets hrun
  refine ⟨backupSound_next s call s' hinv.1 hcond.1 hnext, ?_⟩
  cases hnext
  exact holds_next hinv.1 hcond.1 hcond.2 hinv.2

end Invariant

section Restore

variable {s s' : BackupServer}

/-- The families without their garbage-collection rules. -/
def withoutGcRules (families : Families) : Families :=
  families.map (fun _ cf => { cf with gcRule := none })

theorem restored_families (req : RestoreTableRequest) (incarnation : Nat) (t : TableObject) :
    (req.restored incarnation t.encodeMetadata).schema.families =
      withoutGcRules t.schema.families := by
  refine ExtTreeMap.ext_getElem? (fun id => ?_)
  simp only [RestoreTableRequest.restored, TableObject.decodeMetadata,
    TableObject.encodeMetadata, withoutGcRules, ExtTreeMap.getElem?_map]
  cases t.schema.families[id]? with
  | none | some => rfl

/-- The restore gives a table with these families and rows.  Its key had no rows before,
and the rows at all other keys stay. -/
structure RestoredAs (s : BackupServer) (req : RestoreTableRequest) (families : Families)
    (rows : SqlRows) (s' : BackupServer) : Prop where
  table : ∃ t, s'.core.tables[tableName req.parent req.tableId]? = some t ∧
    t.rows = (req.parent, req.tableId) ∧ t.schema.families = withoutGcRules families
  rows : s'.core.db.rows (req.parent, req.tableId) = rows
  free : s.core.db.rows (req.parent, req.tableId) = ∅
  others : ∀ k, k ≠ (req.parent, req.tableId) → s'.core.db.rows k = s.core.db.rows k

/-- The request is valid, the backup is not expired and the storage does not fail. -/
structure BackupServer.Restorable (s : BackupServer) (env : BackupEnv)
    (req : RestoreTableRequest) : Prop where
  parent : req.parent ≠ []
  tableId : tableIDPattern req.tableId = true
  registered : s.core.localRequireInstance req.parent = none
  new : s.core.tables[tableName req.parent req.tableId]? = none
  liveFailure : env.liveFailure = none
  txFailure : env.txFailure = none
  notExpired : ∀ b, s.backups[req.backup]? = some b →
    b.expireTime.any (fun expire => env.now > expire) = false

/-- Every restore from the backup gives a table with these families and rows, and the
restores that can succeed do. -/
def BackupServer.Restores (s : BackupServer) (name : Bytes) (families : Families)
    (rows : SqlRows) : Prop :=
  ∀ (env : BackupEnv) (req : RestoreTableRequest), req.backup = name →
    ¬ SnapshotKey (req.parent, req.tableId) →
    (∀ s', s.restoreTable env req = (.ok (), s') → RestoredAs s req families rows s') ∧
    (s.Restorable env req → ∃ s', s.restoreTable env req = (.ok (), s'))

/-- What a backup holds is what is restored from it. -/
theorem BackupServer.Holds.restores {name : Bytes} {t : TableObject} {rows : SqlRows}
    (h : s.Holds name t.encodeMetadata rows) (hs : s.Sound) :
    s.Restores name t.schema.families rows := by
  rintro env req rfl hkey
  obtain ⟨b, hb, hready⟩ := h.backup
  obtain ⟨_, hbkey⟩ := hs.names _ b hb
  refine ⟨fun s' hrestore => ?_, fun hok => ?_⟩
  · obtain ⟨st, heq⟩ | ⟨manifest, hid, hmanifest, hnew, heq⟩ := restoreTable_cases
    · rw [hrestore] at heq
      cases heq
    rw [hrestore] at heq
    cases heq
    rw [h.manifest] at hmanifest
    cases hmanifest
    have hne : snapshotRows req.backup ≠ (req.parent, req.tableId) := by
      intro heq
      exact hkey (heq ▸ hbkey)
    refine ⟨⟨req.restored s.core.allocated t.encodeMetadata, ?_, rfl,
      restored_families req _ t⟩, ?_, ?_, fun k hk => replaceRows_of_ne _ _ hk⟩
    · exact ExtTreeMap.getElem?_insert_self
    · exact (replaceRows_dst _ hne).trans h.rows
    · exact hs.core.free _ _ hid hkey hnew
  · refine ⟨s.withRestored req t.encodeMetadata, ?_⟩
    have hname : req.backup ≠ [] := by
      intro heq
      obtain ⟨_, cluster, id, _, hbackup⟩ := hbkey
      have hmem : (47 : UInt8) ∈ backupName cluster id :=
        mem_append_left _ (mem_append_right _ (by decide))
      simp only [snapshotRows, heq] at hbackup
      rw [← hbackup] at hmem
      cases hmem
    unfold BackupServer.restoreTable BackupServer.validateRestoreTable BackupServer.liveBackup
    simp only [hok.parent, hok.tableId, hname, hok.registered, hok.liveFailure, hb,
      hok.notExpired b hb, hok.new, hok.txFailure, restoreBody_eq h.manifest,
      BackupServer.commit]
    simp [hready]

end Restore

section Immutable

variable {strictAdmin : Bool} {instances : List Bytes} {clusters : GoMap StorageType}
variable {enterprisePlus : List Bytes}

theorem holds_created {s s' : BackupServer} (hs : s.Sound) {env : BackupEnv}
    {req : CreateBackupRequest} (h : s.createBackup env req = (.ok (), s')) :
    ∃ t, s.core.tables[req.sourceTable]? = some t ∧
      s'.Holds req.name t.encodeMetadata (s.core.db.rows t.rows) := by
  obtain ⟨st, heq⟩ | ⟨t, hid, ht, _, heq⟩ := createBackup_cases
  · rw [h] at heq
    cases heq
  rw [h] at heq
  cases heq
  obtain ⟨_, hlive, hkey⟩ := hs.core.live _ t ht
  refine ⟨t, ht, ⟨req.backup env.start, ?_, rfl⟩, ?_, replaceRows_dst _ ?_⟩
  · exact ExtTreeMap.getElem?_insert_self
  · exact ExtTreeMap.getElem?_insert_self
  · intro heq
    rw [hlive.rows_eq] at heq
    exact hkey (heq ▸ snapshotKey_backupName hid)

theorem holds_copied {s s' : BackupServer} {manifest : TableRecord} {rows : SqlRows}
    {env : BackupEnv} {req : CopyBackupRequest} (hsource : s.Holds req.sourceBackup manifest rows)
    (h : s.copyBackup env req = (.ok (), s')) :
    s'.Holds req.name manifest rows := by
  obtain ⟨st, heq⟩ | ⟨source, manifest', _, hmanifest, hnew, heq⟩ := copyBackup_cases
  · rw [h] at heq
    cases heq
  rw [h] at heq
  cases heq
  rw [hsource.manifest] at hmanifest
  cases hmanifest
  refine ⟨⟨req.backup source env.start, ?_, rfl⟩, ?_, ?_⟩
  · exact ExtTreeMap.getElem?_insert_self
  · exact ExtTreeMap.getElem?_insert_self
  · exact (replaceRows_dst _ (snapshotRows_injective (hsource.ne_of_none hnew))).trans hsource.rows

/-- A backup of a table is created and kept.  Then a restore from it, or from a copy of
it that is kept, gives the rows and the families of the table at the time of
`CreateBackup`, without garbage-collection rules, and touches no other row. -/
theorem backup_immutable (before after : List BackupCall) (s₀ s₁ s : BackupServer) (env : BackupEnv)
    (req : CreateBackupRequest)
    (hbefore : Transition.run BackupServer.next
      (newBackupServer strictAdmin instances clusters enterprisePlus) before = some s₀)
    (hspares : Transition.Meets BackupServer.next (fun _ call => call.SparesSnapshots)
      (newBackupServer strictAdmin instances clusters enterprisePlus) before)
    (hcreate : s₀.createBackup env req = (.ok (), s₁))
    (hafter : Transition.run BackupServer.next s₁ after = some s)
    (hkeeps : Transition.Meets BackupServer.next
      (fun s call => call.SparesSnapshots ∧ s.Keeps req.name call) s₁ after) :
    ∃ t, s₀.core.tables[req.sourceTable]? = some t ∧
      s.Restores req.name t.schema.families (s₀.core.db.rows t.rows) ∧
      ∀ (env' : BackupEnv) (copy : CopyBackupRequest) (s₂ s₃ : BackupServer)
        (later : List BackupCall),
        copy.sourceBackup = req.name →
        s.copyBackup env' copy = (.ok (), s₂) →
        Transition.run BackupServer.next s₂ later = some s₃ →
        Transition.Meets BackupServer.next
          (fun s call => call.SparesSnapshots ∧ s.Keeps copy.name call) s₂ later →
        s₃.Restores copy.name t.schema.families (s₀.core.db.rows t.rows) := by
  have hs₀ : s₀.Sound := Transition.invariant_of_meets BackupServer.Sound backupSound_next
    ⟨separate_newServerState strictAdmin instances, by simp [newBackupServer]⟩ hspares hbefore
  have hs₁ : s₁.Sound :=
    backupSound_next s₀ (.createBackup env req) s₁ hs₀ trivial
      (congrArg (fun r => some (Prod.snd r)) hcreate)
  obtain ⟨t, ht, hholds⟩ := holds_created hs₀ hcreate
  obtain ⟨hs, hholds⟩ := holds_run hs₁ hholds hkeeps hafter
  refine ⟨t, ht, hholds.restores hs, fun env' copy s₂ s₃ later hsource hcopy hlater hkept => ?_⟩
  have hs₂ : s₂.Sound :=
    backupSound_next s (.copyBackup env' copy) s₂ hs trivial
      (congrArg (fun r => some (Prod.snd r)) hcopy)
  have hholds₂ := holds_copied (hsource ▸ hholds) hcopy
  obtain ⟨hs₃, hholds₃⟩ := holds_run hs₂ hholds₂ hkept hlater
  exact hholds₃.restores hs₃

/-- The storage does not fail, and all happens at the time 0. -/
def quietEnv : BackupEnv :=
  ⟨0, 0, none, none, none, none⟩

/-- Create a table with one family and write one of its rows. -/
def fillTable : List BackupCall :=
  [.table (.createTable (fun _ => 0)
      { emptyTableRequest (utf8 "projects/p/instances/i") (utf8 "t") with
        columnFamilies :=
          (∅ : GoMap (Option GcRule × Option ValueType)).insert [102] (none, none) }),
    .table (.write (utf8 "projects/p/instances/i/tables/t")
      (.mutateRow none 0 ⟨0, 0, none, none, 0⟩ ⟨0, fun _ => 0, none⟩
        ⟨[97], [.plain (.setCell [102] [113] 1000 [1])], none⟩))]

/-- A backup of the table that is kept for a day. -/
def dailyBackup : CreateBackupRequest :=
  ⟨utf8 "projects/p/instances/i/clusters/c", utf8 "b",
    utf8 "projects/p/instances/i/tables/t", .standard, some (24 * hour), none⟩

theorem eq_ok_of_isOk {result : Except Status Unit} (h : result.isOk = true) :
    result = .ok () := by
  cases result with
  | error st => cases h
  | ok u => rfl

/-- The server after the table is filled. -/
def filledServer : BackupServer :=
  fillTable.foldl (fun s call => (s.perform call).2) (newBackupServer false [] ∅ [])

/-- The server after the backup is made. -/
def backedUpServer : BackupServer :=
  (filledServer.createBackup quietEnv dailyBackup).2

theorem createBackup_filledServer :
    filledServer.createBackup quietEnv dailyBackup = (.ok (), backedUpServer) :=
  Prod.ext (eq_ok_of_isOk (by decide +kernel)) rfl

/-- A restore under the name of the backup as parent, with the ID `__backup__`, removes
the snapshot before it copies it: the restored table is empty, and the backup as well. -/
theorem restoreTable_clears_snapshot :
    Transition.run BackupServer.next (newBackupServer false [] ∅ []) fillTable =
        some filledServer ∧
      filledServer.createBackup quietEnv dailyBackup = (.ok (), backedUpServer) ∧
      ∃ s', backedUpServer.restoreTable quietEnv
          ⟨dailyBackup.name, utf8 "__backup__", dailyBackup.name⟩ = (.ok (), s') ∧
        (filledServer.core.db.rows
          (utf8 "projects/p/instances/i", utf8 "t"))[([97] : Bytes)]?.isSome = true ∧
        (s'.core.db.rows (dailyBackup.name, utf8 "__backup__"))[([97] : Bytes)]?.isSome = false ∧
        (backedUpServer.core.db.rows
          (snapshotRows dailyBackup.name))[([97] : Bytes)]?.isSome = true ∧
        (s'.core.db.rows (snapshotRows dailyBackup.name))[([97] : Bytes)]?.isSome =
          false := by
  refine ⟨rfl, createBackup_filledServer, (backedUpServer.restoreTable quietEnv
    ⟨dailyBackup.name, utf8 "__backup__", dailyBackup.name⟩).2, Prod.ext ?_ rfl,
    ?_, ?_, ?_, ?_⟩
  · exact eq_ok_of_isOk (by decide +kernel)
  · decide +kernel
  · decide +kernel
  · decide +kernel
  · decide +kernel

/-- The table is restored from its backup under another name. -/
theorem backup_immutable_one_table :
    ∃ (t : TableObject) (s' : BackupServer),
      backedUpServer.restoreTable quietEnv
        ⟨utf8 "projects/p/instances/i", utf8 "u", dailyBackup.name⟩ = (.ok (), s') ∧
      RestoredAs backedUpServer
        ⟨utf8 "projects/p/instances/i", utf8 "u", dailyBackup.name⟩
        t.schema.families (filledServer.core.db.rows t.rows) s' := by
  have hspares : Transition.Meets BackupServer.next (fun _ call => call.SparesSnapshots)
      (newBackupServer false [] ∅ []) fillTable := by
    refine ⟨fun h => ?_, fun _ _ => ⟨trivial, fun _ _ => trivial⟩⟩
    exact absurd h.1 (by decide)
  obtain ⟨t, _, hrestores, _⟩ := backup_immutable fillTable [] filledServer backedUpServer
    backedUpServer quietEnv dailyBackup rfl hspares createBackup_filledServer rfl trivial
  obtain ⟨hrestored, hsucceeds⟩ := hrestores quietEnv
    ⟨utf8 "projects/p/instances/i", utf8 "u", dailyBackup.name⟩ rfl
    (fun h => absurd h.1 (by decide))
  have hbackup : backedUpServer.backups[dailyBackup.name]? = some (dailyBackup.backup 0) := by
    decide +kernel
  obtain ⟨s', hs'⟩ := hsucceeds ⟨by decide, by decide,
    by decide +kernel, Option.isNone_iff_eq_none.mp (by decide +kernel), rfl, rfl, fun b hb => by
      rw [hbackup] at hb
      cases hb
      decide⟩
  exact ⟨t, s', hs', hrestored s' hs'⟩

end Immutable

end Bttest
end LittleBigtable
