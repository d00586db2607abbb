import LittleBigtable.Bttest.Tables

/-!
# Backups

Backups of tables: creation, copies, restores, updates, deletion and expiration.

A backup has a descriptor, a manifest with the schema of the table, and snapshot
rows.  The snapshot rows are in the SQL table of all rows, under the name of the backup
as parent and the storage ID `__backup__`.

Times are in nanoseconds.  IAM policies, operations, sizes, encryption and backup policies
are left out; instances and clusters do not change.
-/

namespace LittleBigtable
namespace Bttest

section Names

def backupName (cluster id : Bytes) : Bytes :=
  cluster ++ utf8 "/backups/" ++ id

def backupSnapshotStorageID : Bytes :=
  utf8 "__backup__"

/-- The key of the snapshot rows of a backup. -/
def snapshotRows (name : Bytes) : StorageKey :=
  (name, backupSnapshotStorageID)

/-- What is in front of the last occurrence of a marker. -/
def beforeLast (marker : Bytes) : Bytes → Option Bytes
  | [] => none
  | c :: cs =>
    match beforeLast marker cs with
    | some front => some (c :: front)
    | none => if marker <+: c :: cs then some [] else none

def parentInstanceFromChild (name marker : Bytes) : Bytes :=
  (beforeLast marker name).getD name

/-- The first four segments of a name. -/
def tableInstance (name : Bytes) : Bytes :=
  let parts := name.splitOn 47
  if parts.length ≥ 4 then [47].intercalate (parts.take 4) else name

/-- The storage ID of a materialized view. -/
def mvStorageID (id : Bytes) : Bytes :=
  utf8 "__mv__/" ++ id

end Names

section State

inductive BackupType
  | unspecified
  | standard
  | hot
  | other (number : Int)
deriving DecidableEq

inductive BackupState
  | unspecified
  | creating
  | ready
deriving DecidableEq

inductive StorageType
  | unspecified
  | ssd
  | hdd
deriving DecidableEq

/-- The descriptor of a backup. -/
structure Backup where
  name : Bytes
  sourceTable : Bytes
  sourceBackup : Bytes
  state : BackupState
  backupType : BackupType
  startTime : Int
  expireTime : Option Int
  hotToStandardTime : Option Int
deriving DecidableEq

/-- The server with its backups.  Of clusters the default storage type is kept, of
instances the edition. -/
structure BackupServer where
  core : Server
  clusters : GoMap StorageType
  enterprisePlus : List Bytes
  backups : GoMap Backup
  manifests : GoMap TableRecord

/-- A server without tables and backups. -/
def newBackupServer (strictAdmin : Bool) (instances : List Bytes) (clusters : GoMap StorageType)
    (enterprisePlus : List Bytes) : BackupServer where
  core := newServerState strictAdmin instances
  clusters := clusters
  enterprisePlus := enterprisePlus
  backups := ∅
  manifests := ∅

/-- What a call takes from the clock and from the storage: when the request is
received, when `liveBackup` looks, and the failures of its reads and of its
transaction. -/
structure BackupEnv where
  start : Int
  now : Int
  liveFailure : Option Status
  getFailure : Option Status
  listFailure : Option Status
  txFailure : Option String

def BackupServer.failed (s : BackupServer) (st : Status) : Except Status Unit × BackupServer :=
  (.error st, s)

end State

section Storage

/-- `DELETE FROM rows_t` of one table. -/
def Database.clearRows (db : Database) (key : StorageKey) : Database :=
  { db with rows := Function.update db.rows key ∅ }

/-- `INSERT INTO rows_t … SELECT`; it fails if a row is already there. -/
def Database.copyRows (db : Database) (src dst : StorageKey) : Except String Database :=
  if (db.rows src).toList.any (fun kv => (db.rows dst).contains kv.1) then
    .error "UNIQUE constraint failed"
  else
    .ok { db with rows := Function.update db.rows dst (db.rows dst ∪ db.rows src) }

/-- The end of a transaction on the database: a failed one leaves everything as it
was. -/
def BackupServer.commit (s : BackupServer) (format : String) (failure : Option String)
    (body : Except String BackupServer) : Except Status Unit × BackupServer :=
  match body with
  | .error err => s.failed (errorf .internal format [.text err])
  | .ok s' =>
    match failure with
    | some err => s.failed (errorf .internal format [.text err])
    | none => (.ok (), s')

/-- The body of the transactions of `CreateBackup` and `CopyBackup`. -/
def BackupServer.putBackup (s : BackupServer) (src : StorageKey) (manifest : TableRecord)
    (backup : Backup) : Except String BackupServer :=
  match (s.core.db.clearRows (snapshotRows backup.name)).copyRows src
      (snapshotRows backup.name) with
  | .error err => .error err
  | .ok db =>
    .ok { s with
      core := { s.core with db := db }
      manifests := s.manifests.insert backup.name manifest
      backups := s.backups.insert backup.name backup }

/-- `purge`: the snapshot rows, the manifest and the descriptor. -/
def BackupServer.purge (s : BackupServer) (name : Bytes) : BackupServer :=
  { s with
    core := { s.core with db := s.core.db.clearRows (snapshotRows name) }
    manifests := s.manifests.erase name
    backups := s.backups.erase name }

/-- The backups whose name starts with the prefix, ordered by name. -/
def BackupServer.listBackups (s : BackupServer) (pre : Bytes) : List Backup :=
  (s.backups.toList.filter (fun kv => pre <+: kv.1)).map Prod.snd

end Storage

section Checks

/-- One hour. -/
def hour : Int := 3600 * 1000000000

def minBackupRetention : Int := 6 * hour

def maxBackupRetention : Int := 90 * 24 * hour

def maxBackupRetentionPlus : Int := 365 * 24 * hour

def maxCopyBackupRetention : Int := 30 * 24 * hour

def minCopySourceRemaining : Int := 24 * hour

def minHotToStandardDelay : Int := 24 * hour

def maxStandardBackupsPerTbl : Nat := 150

def maxHotBackupsPerTbl : Nat := 10

/-- Clusters of instances that were never registered are accepted unless the server is
strict. -/
def BackupServer.requireCluster (s : BackupServer) (cluster : Bytes) : Option Status :=
  let inst := parentInstanceFromChild cluster (utf8 "/clusters/")
  if inst ∉ s.core.instances then
    if s.core.strictAdmin = true then
      some (errorf .notFound "instance %q not found" [.bytes inst])
    else
      none
  else if s.clusters[cluster]?.isNone then
    some (errorf .notFound "cluster %q not found" [.bytes cluster])
  else
    none

def BackupServer.maxBackupRetention (s : BackupServer) (name : Bytes) : Int :=
  if name ∈ s.core.instances ∧ name ∈ s.enterprisePlus then
    maxBackupRetentionPlus
  else
    Bttest.maxBackupRetention

def validateBackupTimes (created : Int) (b : Backup) (maxRetention : Int) : Option Status :=
  match b.expireTime with
  | none => some (errorf .invalidArgument "backup expire_time is required" [])
  | some expire =>
    if expire < created + minBackupRetention ∨ expire > created + maxRetention then
      some (errorf .invalidArgument
        "expire_time must be at least 6 hours and at most %v after the backup creation time"
        [.int maxRetention])
    else
      match b.backupType with
      | .unspecified | .standard =>
        if b.hotToStandardTime.isSome then
          some (errorf .invalidArgument "hot_to_standard_time can only be set on HOT backups" [])
        else
          none
      | .hot =>
        match b.hotToStandardTime with
        | none => none
        | some h =>
          if h < created + minHotToStandardDelay then
            some (errorf .invalidArgument
              "hot_to_standard_time must be at least 24 hours after the backup creation time"
              [])
          else
            none
      | .other number => some (errorf .invalidArgument "unknown backup_type %v" [.int number])

/-- The quotas of backups of one table in one cluster. -/
def BackupServer.checkBackupQuota (s : BackupServer) (cluster : Bytes)
    (b : Backup) : Option Status :=
  let existing := (s.listBackups (cluster ++ utf8 "/backups/")).filter
    (fun e => e.sourceTable = b.sourceTable)
  let hot := (existing.filter (fun e => e.backupType = .hot)).length
  let standard := (existing.filter (fun e => e.backupType ≠ .hot)).length
  if b.backupType = .hot ∧ hot ≥ maxHotBackupsPerTbl then
    some (errorf .resourceExhausted "table %q already has %d hot backups in this cluster"
      [.bytes b.sourceTable, .int maxHotBackupsPerTbl])
  else if b.backupType ≠ .hot ∧ standard ≥ maxStandardBackupsPerTbl then
    some (errorf .resourceExhausted
      "table %q already has %d standard backups in this cluster"
      [.bytes b.sourceTable, .int maxStandardBackupsPerTbl])
  else
    none

/-- A backup that has not expired. -/
def BackupServer.liveBackup (s : BackupServer) (env : BackupEnv)
    (name : Bytes) : Except Status Backup :=
  match env.liveFailure with
  | some st => .error st
  | none =>
    match s.backups[name]? with
    | none => .error (errorf .notFound "backup %q not found" [.bytes name])
    | some b =>
      if b.expireTime.any (fun expire => env.now > expire) then
        .error (errorf .notFound "backup %q not found" [.bytes name])
      else
        .ok b

/-- A new backup must not have the name of another one. -/
def BackupServer.requireNoBackup (s : BackupServer) (env : BackupEnv)
    (name : Bytes) : Option Status :=
  env.getFailure.or <|
  if s.backups[name]?.isSome then
    some (errorf .alreadyExists "backup %q already exists" [.bytes name])
  else
    none

end Checks

section Create

structure CreateBackupRequest where
  parent : Bytes
  backupId : Bytes
  sourceTable : Bytes
  backupType : BackupType
  expireTime : Option Int
  hotToStandardTime : Option Int

def CreateBackupRequest.name (req : CreateBackupRequest) : Bytes :=
  backupName req.parent req.backupId

/-- The descriptor of a new backup. -/
def CreateBackupRequest.backup (req : CreateBackupRequest) (start : Int) : Backup where
  name := req.name
  sourceTable := req.sourceTable
  sourceBackup := []
  state := .ready
  backupType := if req.backupType = .unspecified then .standard else req.backupType
  startTime := start
  expireTime := req.expireTime
  hotToStandardTime := req.hotToStandardTime

/-- The checks of a `CreateBackup` request before it looks for the source table. -/
def BackupServer.validateCreateBackup (s : BackupServer) (req : CreateBackupRequest)
    (backup : Backup) : Option Status :=
  (if req.parent = [] ∨ tableIDPattern req.backupId = false then
    some (errorf .invalidArgument "a parent cluster and valid backup_id are required" [])
  else if req.sourceTable = [] then
    some (errorf .invalidArgument "backup.source_table is required" [])
  else
    none).or <|
  (s.requireCluster req.parent).or <|
  if s.clusters[req.parent]? = some .hdd ∧ backup.backupType = .hot then
    some (errorf .invalidArgument "hot backups can't be created on HDD cluster %q"
      [.bytes req.parent])
  else if tableInstance req.sourceTable ≠ tableInstance req.parent then
    some (errorf .invalidArgument "the source table must be in the backup's instance" [])
  else
    none

def BackupServer.createBackup (env : BackupEnv) (req : CreateBackupRequest)
    (s : BackupServer) : Except Status Unit × BackupServer :=
  let backup := req.backup env.start
  match s.validateCreateBackup req backup with
  | some st => s.failed st
  | none =>
    match s.core.tables[req.sourceTable]? with
    | none => s.failed (errorf .notFound "source table %q not found" [.bytes req.sourceTable])
    | some src =>
      match (validateBackupTimes env.start backup
          (s.maxBackupRetention (tableInstance req.parent))).or <|
        (s.requireNoBackup env req.name).or <|
        env.listFailure.or (s.checkBackupQuota req.parent backup) with
      | some st => s.failed st
      | none =>
        s.commit "create backup: %v" env.txFailure (s.putBackup src.rows src.encodeMetadata backup)

structure CopyBackupRequest where
  parent : Bytes
  backupId : Bytes
  sourceBackup : Bytes
  expireTime : Option Int

def CopyBackupRequest.name (req : CopyBackupRequest) : Bytes :=
  backupName req.parent req.backupId

/-- The descriptor of a copy. -/
def CopyBackupRequest.backup (req : CopyBackupRequest) (source : Backup)
    (start : Int) : Backup where
  name := req.name
  sourceTable := source.sourceTable
  sourceBackup := req.sourceBackup
  state := .ready
  backupType := .standard
  startTime := start
  expireTime := req.expireTime
  hotToStandardTime := none

/-- The checks of a `CopyBackup` request on the source and on the time. -/
def BackupServer.validateCopyBackup (s : BackupServer) (env : BackupEnv) (req : CopyBackupRequest)
    (source : Backup) : Option Status :=
  (if source.state ≠ .ready then
    some (errorf .failedPrecondition "source backup %q is not READY" [.bytes req.sourceBackup])
  else if source.sourceBackup ≠ [] then
    some (errorf .failedPrecondition
      "backup %q is itself a copy; copying a copied backup is not allowed"
      [.bytes req.sourceBackup])
  else if source.expireTime.any (fun expire =>
      expire < env.start + minCopySourceRemaining) then
    some (errorf .failedPrecondition
      "backup %q expires within 24 hours and cannot be copied" [.bytes req.sourceBackup])
  else
    none).or <|
  (s.requireNoBackup env req.name).or <|
  match req.expireTime with
  | none => some (errorf .invalidArgument "expire_time is required" [])
  | some expire =>
    if expire < env.start + minBackupRetention ∨ expire > env.start + maxCopyBackupRetention then
      some (errorf .invalidArgument
        "a copied backup's expire_time must be at least 6 hours and at most 30 days from now"
        [])
    else
      none

def BackupServer.copyBackup (env : BackupEnv) (req : CopyBackupRequest)
    (s : BackupServer) : Except Status Unit × BackupServer :=
  if req.parent = [] ∨ tableIDPattern req.backupId = false ∨ req.sourceBackup = [] then
    s.failed (errorf .invalidArgument "parent, a valid backup_id and source_backup are required" [])
  else
    match s.requireCluster req.parent with
    | some st => s.failed st
    | none =>
      match s.liveBackup env req.sourceBackup with
      | .error st => s.failed st
      | .ok source =>
        match s.validateCopyBackup env req source with
        | some st => s.failed st
        | none =>
          s.commit "copy backup: %v" env.txFailure <|
            match s.manifests[req.sourceBackup]? with
            | none => .error "load backup manifest"
            | some manifest =>
              s.putBackup (snapshotRows req.sourceBackup) manifest (req.backup source env.start)

end Create

section Restore

/-- `decodeMetadata`: a family without a stored order has the order 0. -/
def TableObject.decodeMetadata (t : TableObject) (rec : TableRecord) : TableObject :=
  { t with
    tableId := if rec.tableId = [] then t.tableId else rec.tableId
    schema :=
      { families := rec.columnFamilies.map (fun id cf =>
          ⟨(rec.familyOrder[id]?).getD 0, cf.1, cf.2⟩)
        counter := rec.counter
        granularity := rec.granularity
        changeStreamEnabled := rec.changeStreamEnabled
        rowKeySchema := rec.rowKeySchema }
    deletionProtection := rec.deletionProtection
    deleteTime :=
      if rec.deleteMicros > 0 then some (rec.deleteMicros * 1000) else t.deleteTime }

structure RestoreTableRequest where
  parent : Bytes
  tableId : Bytes
  backup : Bytes

/-- The object of a restored table before the manifest is read. -/
def RestoreTableRequest.object (req : RestoreTableRequest) (incarnation : Nat) : TableObject where
  incarnation := incarnation
  parent := req.parent
  tableId := req.tableId
  storageId := req.tableId
  rows := (req.parent, req.tableId)
  schema := ⟨∅, 0, ⟨false⟩, false, none⟩
  deletionProtection := false
  deleteTime := none

/-- The restored table: the schema of the manifest under the ID of the request, without
garbage-collection rules, deletion protection and change stream. -/
def RestoreTableRequest.restored (req : RestoreTableRequest) (incarnation : Nat)
    (manifest : TableRecord) : TableObject :=
  let t := (req.object incarnation).decodeMetadata manifest
  { t with
    tableId := req.tableId
    storageId := req.tableId
    schema :=
      { t.schema with
        families := t.schema.families.map (fun _ cf => { cf with gcRule := none })
        changeStreamEnabled := false }
    deletionProtection := false
    deleteTime := none }

/-- The body of the transaction of `RestoreTable`, and the restored table in the list
of tables. -/
def BackupServer.restoreBody (s : BackupServer)
    (req : RestoreTableRequest) : Except String BackupServer :=
  match s.manifests[req.backup]? with
  | none => .error "load backup manifest"
  | some manifest =>
    let t := req.restored s.core.allocated manifest
    match (s.core.db.clearRows t.rows).copyRows (snapshotRows req.backup) t.rows with
    | .error err => .error err
    | .ok db =>
      .ok { s with
        core :=
          { s.core with
            tables := s.core.tables.insert (tableName req.parent req.tableId) t
            allocated := s.core.allocated + 1
            db := db.saveTable t } }

/-- The checks of a `RestoreTable` request. -/
def BackupServer.validateRestoreTable (s : BackupServer)
    (req : RestoreTableRequest) : Option Status :=
  (if req.parent = [] ∨ tableIDPattern req.tableId = false then
    some (errorf .invalidArgument "parent and a valid table_id are required" [])
  else if req.backup = [] then
    some (errorf .invalidArgument "backup is required" [])
  else
    none).or (s.core.localRequireInstance req.parent)

def BackupServer.restoreTable (env : BackupEnv) (req : RestoreTableRequest)
    (s : BackupServer) : Except Status Unit × BackupServer :=
  match s.validateRestoreTable req with
  | some st => s.failed st
  | none =>
    match s.liveBackup env req.backup with
    | .error st => s.failed st
    | .ok backup =>
      if backup.state ≠ .ready then
        s.failed (errorf .failedPrecondition "backup %q is not READY" [.bytes req.backup])
      else if s.core.tables[tableName req.parent req.tableId]?.isSome then
        s.failed (errorf .alreadyExists "table %q already exists"
          [.bytes (tableName req.parent req.tableId)])
      else
        s.commit "restore table: %v" env.txFailure (s.restoreBody req)

end Restore

section Update

/-- A path of the update mask of `UpdateBackup`. -/
inductive BackupPath
  | expireTime
  | hotToStandardTime
  | other (path : Bytes)

structure UpdateBackupRequest where
  name : Bytes
  paths : List BackupPath
  expireTime : Option Int
  hotToStandardTime : Option Int

def updateBackupPaths (req : UpdateBackupRequest) : List BackupPath → Backup → Except Status Backup
  | [], next => .ok next
  | .expireTime :: paths, next =>
    updateBackupPaths req paths { next with expireTime := req.expireTime }
  | .hotToStandardTime :: paths, next =>
    updateBackupPaths req paths { next with hotToStandardTime := req.hotToStandardTime }
  | .other path :: _, _ =>
    .error (errorf .invalidArgument
      "unsupported update_mask path %q; only expire_time and hot_to_standard_time can be updated"
      [.bytes path])

def BackupServer.updateBackup (env : BackupEnv) (req : UpdateBackupRequest)
    (s : BackupServer) : Except Status Unit × BackupServer :=
  if req.name = [] then
    s.failed (errorf .invalidArgument "backup.name is required" [])
  else if req.paths.length = 0 then
    s.failed (errorf .invalidArgument "update_mask is required" [])
  else
    match s.liveBackup env req.name with
    | .error st => s.failed st
    | .ok cur =>
      match updateBackupPaths req req.paths cur with
      | .error st => s.failed st
      | .ok next =>
        match validateBackupTimes cur.startTime next (if next.sourceBackup = [] then
              s.maxBackupRetention (tableInstance next.name)
            else
              maxCopyBackupRetention) with
        | some st => s.failed st
        | none =>
          s.commit "%v" env.txFailure (.ok { s with backups := s.backups.insert next.name next })

def BackupServer.deleteBackup (env : BackupEnv) (name : Bytes)
    (s : BackupServer) : Except Status Unit × BackupServer :=
  match env.getFailure with
  | some st => s.failed st
  | none =>
    if s.backups[name]?.isNone then
      s.failed (errorf .notFound "backup %q not found" [.bytes name])
    else
      s.commit "%v" env.txFailure (.ok (s.purge name))

/-- The time of expiration is reached. -/
def Backup.expired (b : Backup) (now : Int) : Bool :=
  b.expireTime.any (fun expire => expire ≤ now)

/-- The loop of `purgeExpiredBackups`.  The clock is read for each backup, and the loop
ends at the first transaction that fails. -/
def BackupServer.purgeBackups (clock : Bytes → Int) (txFailure : Bytes → Option String) :
    List Backup → BackupServer → Except Status Unit × BackupServer
  | [], s => (.ok (), s)
  | b :: bs, s =>
    if b.expired (clock b.name) then
      match txFailure b.name with
      | some err => s.failed (errorf .internal "%v" [.text err])
      | none => purgeBackups clock txFailure bs (s.purge b.name)
    else
      purgeBackups clock txFailure bs s

def BackupServer.purgeExpiredBackups (clock : Bytes → Int) (txFailure : Bytes → Option String)
    (s : BackupServer) : Except Status Unit × BackupServer :=
  s.purgeBackups clock txFailure (s.listBackups [])

end Update

section Calls

/-- The calls on tables and backups and the background work.  What a materialized view
stores is an input. -/
inductive BackupCall
  | table (call : TableCall)
  | storeView (name id : Bytes) (rows : SqlRows)
  | createBackup (env : BackupEnv) (req : CreateBackupRequest)
  | copyBackup (env : BackupEnv) (req : CopyBackupRequest)
  | restoreTable (env : BackupEnv) (req : RestoreTableRequest)
  | updateBackup (env : BackupEnv) (req : UpdateBackupRequest)
  | deleteBackup (env : BackupEnv) (name : Bytes)
  | purgeExpiredBackups (clock : Bytes → Int) (txFailure : Bytes → Option String)

def BackupServer.onTables (s : BackupServer)
    (call : TableCall) : Except Status Unit × BackupServer :=
  ((s.core.perform call).1, { s with core := (s.core.perform call).2 })

/-- The rows of a materialized view are replaced. -/
def BackupServer.storeView (s : BackupServer) (name id : Bytes) (rows : SqlRows) : BackupServer :=
  { s with
    core :=
      { s.core with
        db :=
          { s.core.db with
            rows := Function.update s.core.db.rows (name, mvStorageID id) rows } } }

/-- Answer a call. -/
def BackupServer.perform (s : BackupServer) : BackupCall → Except Status Unit × BackupServer
  | .table call => s.onTables call
  | .storeView name id rows => (.ok (), s.storeView name id rows)
  | .createBackup env req => s.createBackup env req
  | .copyBackup env req => s.copyBackup env req
  | .restoreTable env req => s.restoreTable env req
  | .updateBackup env req => s.updateBackup env req
  | .deleteBackup env name => s.deleteBackup env name
  | .purgeExpiredBackups clock txFailure => s.purgeExpiredBackups clock txFailure

/-- The server after a call. -/
def BackupServer.next (s : BackupServer) (call : BackupCall) : Option BackupServer :=
  some (s.perform call).2

end Calls

end Bttest
end LittleBigtable
