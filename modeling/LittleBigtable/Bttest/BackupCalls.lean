import LittleBigtable.Bttest.Backups

/-!
# What the calls on backups do

For every call on backups what it changes when it succeeds, and that it changes nothing
when it fails.  A copy of rows goes to a key that was cleared before, so it cannot
fail.
-/

namespace LittleBigtable
namespace Bttest

section Effects

/-- Copy the rows of one table to another one, whose rows are removed first. -/
def Database.replaceRows (db : Database) (src dst : StorageKey) : Database :=
  { db with rows := Function.update db.rows dst (if src = dst then ∅ else db.rows src) }

/-- After `clear` the copy cannot fail. -/
theorem copyRows_clearRows (db : Database) (src dst : StorageKey) :
    (db.clearRows dst).copyRows src dst = .ok (db.replaceRows src dst) := by
  have hempty : (db.clearRows dst).rows dst = ∅ := Function.update_self _ _ _
  have hsrc : (db.clearRows dst).rows src = if src = dst then ∅ else db.rows src := by
    by_cases heq : src = dst
    · rw [if_pos heq, heq, hempty]
    · rw [if_neg heq]
      exact Function.update_of_ne heq _ _
  unfold Database.copyRows
  rw [if_neg, hempty, hsrc]
  · unfold Database.replaceRows Database.clearRows
    congr 2
    rw [Function.update_idem]
    congr 1
    exact Std.ExtTreeMap.ext_getElem? (fun k => by simp [Std.ExtTreeMap.getElem?_union])
  · rw [hempty]
    simp

variable {s s' : BackupServer}

/-- The server with a new backup. -/
def BackupServer.withBackup (s : BackupServer) (src : StorageKey) (manifest : TableRecord)
    (backup : Backup) : BackupServer :=
  { s with
    core := { s.core with db := s.core.db.replaceRows src (snapshotRows backup.name) }
    manifests := s.manifests.insert backup.name manifest
    backups := s.backups.insert backup.name backup }

theorem putBackup_eq (s : BackupServer) (src : StorageKey) (manifest : TableRecord)
    (backup : Backup) :
    s.putBackup src manifest backup = .ok (s.withBackup src manifest backup) := by
  unfold BackupServer.putBackup
  rw [copyRows_clearRows]
  rfl

/-- The server after a restore. -/
def BackupServer.withRestored (s : BackupServer) (req : RestoreTableRequest)
    (manifest : TableRecord) : BackupServer :=
  { s with
    core :=
      { s.core with
        tables := s.core.tables.insert (tableName req.parent req.tableId)
          (req.restored s.core.allocated manifest)
        allocated := s.core.allocated + 1
        db := (s.core.db.replaceRows (snapshotRows req.backup)
          (req.parent, req.tableId)).saveTable (req.restored s.core.allocated manifest) } }

variable {req : RestoreTableRequest} {env : BackupEnv}

theorem restoreBody_eq {manifest : TableRecord} (h : s.manifests[req.backup]? = some manifest) :
    s.restoreBody req = .ok (s.withRestored req manifest) := by
  have hrows : (req.restored s.core.allocated manifest).rows = (req.parent, req.tableId) := rfl
  unfold BackupServer.restoreBody
  simp only [h, hrows, copyRows_clearRows]
  rfl

theorem liveBackup_eq_ok {name : Bytes} {b : Backup} (h : s.liveBackup env name = .ok b) :
    s.backups[name]? = some b := by
  unfold BackupServer.liveBackup at h
  split at h
  · cases h
  split at h
  · cases h
  rename_i b' hb
  split_ifs at h
  cases h
  exact hb

theorem requireNoBackup_eq_none {name : Bytes} (h : s.requireNoBackup env name = none) :
    s.backups[name]? = none := by
  unfold BackupServer.requireNoBackup at h
  obtain ⟨_, h⟩ := Option.or_eq_none_iff.mp h
  split_ifs at h with hsome
  simpa using hsome

/-- `CreateBackup` fails and changes nothing, or puts a backup of the table. -/
theorem createBackup_cases {env : BackupEnv} {req : CreateBackupRequest} {s : BackupServer} :
    (∃ st, s.createBackup env req = s.failed st) ∨
      ∃ t, tableIDPattern req.backupId = true ∧ s.core.tables[req.sourceTable]? = some t ∧
        s.backups[req.name]? = none ∧
        s.createBackup env req =
          (.ok (), s.withBackup t.rows t.encodeMetadata (req.backup env.start)) := by
  unfold BackupServer.createBackup
  simp only
  split
  · exact .inl ⟨_, rfl⟩
  rename_i hvalid
  obtain ⟨hid, _⟩ := Option.or_eq_none_iff.mp hvalid
  split_ifs at hid with hparent
  split
  · exact .inl ⟨_, rfl⟩
  rename_i t ht
  split
  · exact .inl ⟨_, rfl⟩
  rename_i hchecks
  obtain ⟨_, hchecks⟩ := Option.or_eq_none_iff.mp hchecks
  obtain ⟨hnew, _⟩ := Option.or_eq_none_iff.mp hchecks
  rw [putBackup_eq]
  cases env.txFailure with
  | some err => exact .inl ⟨_, rfl⟩
  | none =>
    refine .inr ⟨t, ?_, ht, requireNoBackup_eq_none hnew, rfl⟩
    simpa using fun hpattern => hparent (.inr hpattern)

/-- `CopyBackup` fails and changes nothing, or puts a backup of the snapshot. -/
theorem copyBackup_cases {env : BackupEnv} {req : CopyBackupRequest} {s : BackupServer} :
    (∃ st, s.copyBackup env req = s.failed st) ∨
      ∃ source manifest, tableIDPattern req.backupId = true ∧
        s.manifests[req.sourceBackup]? = some manifest ∧ s.backups[req.name]? = none ∧
        s.copyBackup env req =
          (.ok (), s.withBackup (snapshotRows req.sourceBackup) manifest
            (req.backup source env.start)) := by
  unfold BackupServer.copyBackup
  split_ifs with hreq
  · exact .inl ⟨_, rfl⟩
  split
  · exact .inl ⟨_, rfl⟩
  split
  · exact .inl ⟨_, rfl⟩
  rename_i source hsource
  split
  · exact .inl ⟨_, rfl⟩
  rename_i hvalid
  obtain ⟨_, hvalid⟩ := Option.or_eq_none_iff.mp hvalid
  obtain ⟨hnew, _⟩ := Option.or_eq_none_iff.mp hvalid
  cases s.manifests[req.sourceBackup]? with
  | none => exact .inl ⟨_, rfl⟩
  | some manifest =>
    simp only [putBackup_eq]
    cases env.txFailure with
    | some err => exact .inl ⟨_, rfl⟩
    | none =>
      refine .inr ⟨source, manifest, ?_, rfl, requireNoBackup_eq_none hnew, rfl⟩
      simpa using fun hpattern => hreq (.inr (.inl hpattern))

/-- `RestoreTable` fails and changes nothing, or makes a table of the manifest. -/
theorem restoreTable_cases {env : BackupEnv} {req : RestoreTableRequest} {s : BackupServer} :
    (∃ st, s.restoreTable env req = s.failed st) ∨
      ∃ manifest, tableIDPattern req.tableId = true ∧ s.manifests[req.backup]? = some manifest ∧
        s.core.tables[tableName req.parent req.tableId]? = none ∧
        s.restoreTable env req = (.ok (), s.withRestored req manifest) := by
  unfold BackupServer.restoreTable
  split
  · exact .inl ⟨_, rfl⟩
  rename_i hvalid
  obtain ⟨hid, _⟩ := Option.or_eq_none_iff.mp hvalid
  split_ifs at hid with hparent
  split
  · exact .inl ⟨_, rfl⟩
  split_ifs with hready hlive
  · exact .inl ⟨_, rfl⟩
  · exact .inl ⟨_, rfl⟩
  cases hmanifest : s.manifests[req.backup]? with
  | none =>
    unfold BackupServer.restoreBody
    rw [hmanifest]
    exact .inl ⟨_, rfl⟩
  | some manifest =>
    rw [restoreBody_eq hmanifest]
    cases env.txFailure with
    | some err => exact .inl ⟨_, rfl⟩
    | none =>
      refine .inr ⟨manifest, ?_, rfl, by simpa using hlive, rfl⟩
      simpa using fun hpattern => hparent (.inr hpattern)

theorem updateBackupPaths_eq_ok {req : UpdateBackupRequest} {paths : List BackupPath}
    {b b' : Backup} (h : updateBackupPaths req paths b = .ok b') :
    b'.name = b.name ∧ b'.state = b.state := by
  induction paths generalizing b with
  | nil =>
    cases h
    exact ⟨rfl, rfl⟩
  | cons path paths ih =>
    cases path with
    | expireTime => exact ih (b := { b with expireTime := req.expireTime }) h
    | hotToStandardTime => exact ih (b := { b with hotToStandardTime := req.hotToStandardTime }) h
    | other path => cases h

/-- `UpdateBackup` changes nothing, or the descriptor of one backup. -/
theorem updateBackup_cases (env : BackupEnv) (req : UpdateBackupRequest) (s : BackupServer) :
    (s.updateBackup env req).2 = s ∨
      ∃ cur next, s.backups[req.name]? = some cur ∧ next.name = cur.name ∧
        next.state = cur.state ∧
        (s.updateBackup env req).2 = { s with backups := s.backups.insert next.name next } := by
  unfold BackupServer.updateBackup
  split_ifs
  · exact .inl rfl
  · exact .inl rfl
  split
  · exact .inl rfl
  rename_i cur hcur
  split
  · exact .inl rfl
  rename_i next hnext
  obtain ⟨hname, hstate⟩ := updateBackupPaths_eq_ok hnext
  split
  · exact .inl rfl
  · cases env.txFailure with
    | some err => exact .inl rfl
    | none => exact .inr ⟨cur, next, liveBackup_eq_ok hcur, hname, hstate, rfl⟩

theorem deleteBackup_cases (env : BackupEnv) (name : Bytes) (s : BackupServer) :
    (s.deleteBackup env name).2 = s ∨
      ((∃ b, s.backups[name]? = some b) ∧ (s.deleteBackup env name).2 = s.purge name) := by
  unfold BackupServer.deleteBackup
  split
  · exact .inl rfl
  split_ifs with hnone
  · exact .inl rfl
  cases env.txFailure with
  | some err => exact .inl rfl
  | none =>
    refine .inr ⟨?_, rfl⟩
    exact Option.isSome_iff_exists.mp (by simpa using hnone)

/-- What every purge of an expired backup of the list keeps, the loop keeps. -/
theorem purgeBackups_keeps (keeps : BackupServer → Prop) {clock : Bytes → Int}
    {txFailure : Bytes → Option String} {bs : List Backup}
    (hpurge : ∀ b ∈ bs, b.expired (clock b.name) = true → ∀ s, keeps s → keeps (s.purge b.name))
    (hs : keeps s) :
    keeps (s.purgeBackups clock txFailure bs).2 := by
  induction bs generalizing s with
  | nil => exact hs
  | cons b bs ih =>
    have hrest := fun b' hb' => hpurge b' (List.mem_cons_of_mem b hb')
    unfold BackupServer.purgeBackups
    split_ifs with hexp
    · split
      · exact hs
      · exact ih hrest (hpurge b List.mem_cons_self hexp s hs)
    · exact ih hrest hs

end Effects

end Bttest
end LittleBigtable
