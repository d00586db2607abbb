import LittleBigtable.Bttest.RowInvariant
import LittleBigtable.Lib.TextCodec
import LittleBigtable.Lib.Transaction

/-!
# Tables of a server

The live tables and the tombstones of a server, in memory and in the database:
creation, update, deletion, undeletion and the purge of expired tombstones, with the
authorized views and schema bundles that move with a table.

The rows of all tables are in one SQL table keyed by parent and storage ID.  A live
table is stored under its ID, a tombstone under an ID with the time of deletion.
Authorized views and schema bundles are keyed by their resource name; those of a
table are found by the name of the table as a prefix.  Idempotency tokens and the
change log are keyed by the name of the table.

Times are in nanoseconds; storage IDs and stored times have them in microseconds.
IAM policies, operations and the response messages are left out.
-/

namespace LittleBigtable
namespace Bttest

open Transaction

section Names

/-- The bytes of a text. -/
def utf8 (s : String) : Bytes :=
  s.toUTF8.data.toList

/-- `[-_.a-zA-Z0-9]` -/
def idChar (c : UInt8) : Bool :=
  c == 45 || c == 95 || c == 46 || (97 ≤ c && c ≤ 122) || (65 ≤ c && c ≤ 90) || (48 ≤ c && c ≤ 57)

/-- `^[_a-zA-Z0-9][-_.a-zA-Z0-9]{0,49}$` -/
def tableIDPattern (id : Bytes) : Bool :=
  match id with
  | [] => false
  | c :: cs => idChar c && c != 45 && c != 46 && cs.all idChar && cs.length ≤ 49

def tableName (parent id : Bytes) : Bytes :=
  parent ++ utf8 "/tables/" ++ id

/-- The storage ID of a tombstone. -/
def tombstoneID (tableId : Bytes) (deleteMicros : Int) : Bytes :=
  tableId ++ utf8 "@deleted@" ++ Decimal.format deleteMicros

end Names

section State

/-- The key of the rows of a table: `parent` and `table_id` of `rows_t`. -/
abbrev StorageKey := Bytes × Bytes

/-- A `*table`: its schema, where its rows are, and its lifecycle fields.
`incarnation` is the identity of the object. -/
structure TableObject where
  incarnation : Nat
  parent : Bytes
  tableId : Bytes
  storageId : Bytes
  rows : StorageKey
  schema : Table
  deletionProtection : Bool
  deleteTime : Option Int

def TableObject.name (t : TableObject) : Bytes :=
  tableName t.parent t.tableId

def TableObject.storageName (t : TableObject) : Bytes :=
  tableName t.parent t.storageId

/-- The persisted form of a table.  Family orders are stored beside the schema
message; a table that is not deleted has the delete time 0. -/
structure TableRecord where
  columnFamilies : GoMap (Option GcRule × Option ValueType)
  familyOrder : GoMap Nat
  counter : Nat
  granularity : Granularity
  changeStreamEnabled : Bool
  rowKeySchema : Option (List RowKeyField)
  deletionProtection : Bool
  deleteMicros : Int
  tableId : Bytes

/-- An authorized view or a schema bundle: its resource name and the rest of the
message.  Schema bundles have no deletion protection. -/
structure Child where
  name : Bytes
  deletionProtection : Bool
  content : Bytes
deriving DecidableEq

/-- The SQL tables. -/
structure Database where
  rows : StorageKey → SqlRows
  tables : StorageKey → Option TableRecord
  authorizedViews : GoMap Child
  schemaBundles : GoMap Child
  tokens : Bytes → GoMap (GoMap Int)
  changeLog : Bytes → List ChangeRecord

/-- The server; `allocated` counts the table objects created so far. -/
structure Server where
  strictAdmin : Bool
  instances : List Bytes
  tables : GoMap TableObject
  deletedTables : GoMap TableObject
  allocated : Nat
  db : Database

/-- A server without tables. -/
def newServerState (strictAdmin : Bool) (instances : List Bytes) : Server where
  strictAdmin := strictAdmin
  instances := instances
  tables := ∅
  deletedTables := ∅
  allocated := 0
  db := ⟨fun _ => ∅, fun _ => none, ∅, ∅, fun _ => ∅, fun _ => []⟩

end State

section SqlTables

def TableObject.encodeMetadata (t : TableObject) : TableRecord where
  columnFamilies := t.schema.families.map (fun _ cf => (cf.gcRule, cf.valueType))
  familyOrder := t.schema.families.map (fun _ cf => cf.order)
  counter := t.schema.counter
  granularity := t.schema.granularity
  changeStreamEnabled := t.schema.changeStreamEnabled
  rowKeySchema := t.schema.rowKeySchema
  deletionProtection := t.deletionProtection
  deleteMicros := (t.deleteTime.map toUnixMicro).getD 0
  tableId := t.tableId

/-- Upsert the metadata of a table under its storage ID. -/
def Database.saveTable (db : Database) (t : TableObject) : Database :=
  { db with
    tables := Function.update db.tables (t.parent, t.storageId)
      (some t.encodeMetadata) }

/-- `DELETE FROM tables_t` of one table. -/
def Database.deleteTableRecord (db : Database) (key : StorageKey) : Database :=
  { db with tables := Function.update db.tables key none }

/-- `UPDATE rows_t SET table_id`; it fails if a row is already there. -/
def Database.moveRows (db : Database) (src dst : StorageKey) : Except String Database :=
  if src = dst then
    .ok db
  else if (db.rows src).any (fun key _ => (db.rows dst).contains key) then
    .error "UNIQUE constraint failed"
  else
    .ok { db with
      rows := Function.update (Function.update db.rows dst
        (db.rows dst ∪ db.rows src)) src ∅ }

/-- The points at which the transaction of a deletion or undeletion can fail. -/
inductive TxPoint
  | begin
  | renameRows
  | renameTable
  | save
  | purgeChangeLog
  | moveChildren
  | deletePolicies
  | commit
deriving DecidableEq

/-- `Rename`: the rows and the metadata move, and between the statements the table
object changes. -/
def rename (newStorageID : Bytes) : List (Action TxPoint TableObject Database) :=
  [.exec .renameRows (fun t db =>
      db.moveRows (t.parent, t.storageId) (t.parent, newStorageID)),
    .exec .renameTable (fun t db => .ok (db.deleteTableRecord (t.parent, t.storageId))),
    .memory (fun t =>
      { t with storageId := newStorageID, rows := (t.parent, newStorageID) }),
    .exec .save (fun t db => .ok (db.saveTable t))]

end SqlTables

section Children

/-- `strings.TrimPrefix` -/
def trimPrefix (pre s : Bytes) : Bytes :=
  if pre <+: s then s.drop pre.length else s

/-- The resources whose name starts with the prefix, ordered by name.  The `LIKE`
pattern of the query also finds others, which the code skips. -/
def listPrefix (store : GoMap Child) (pre : Bytes) : List Child :=
  (store.toList.filter (fun kv => pre <+: kv.1)).map Prod.snd

/-- Re-parent one resource: the old name is removed, the new one put. -/
def moveChild (src dst : Bytes) (store : GoMap Child) (c : Child) : GoMap Child :=
  (store.erase c.name).insert (dst ++ trimPrefix src c.name)
    { c with name := dst ++ trimPrefix src c.name }

def moveChildren (segment src dst : Bytes) (store : GoMap Child) : GoMap Child :=
  (listPrefix store (src ++ segment)).foldl (moveChild src dst) store

/-- `removePrefix`. -/
def removeChildren (store : GoMap Child) (pre : Bytes) : GoMap Child :=
  store.filter (fun name _ => !decide (pre <+: name))

def viewsSegment : Bytes :=
  utf8 "/authorizedViews/"

def bundlesSegment : Bytes :=
  utf8 "/schemaBundles/"

/-- Re-parent the authorized views and schema bundles of a table. -/
def Database.moveTableChildren (db : Database) (src dst : Bytes) : Database :=
  { db with
    authorizedViews := moveChildren viewsSegment src dst db.authorizedViews
    schemaBundles := moveChildren bundlesSegment src dst db.schemaBundles }

end Children

section Create

structure CreateTableRequest where
  parent : Bytes
  tableId : Bytes
  columnFamilies : GoMap (Option GcRule × Option ValueType)
  granularity : Granularity
  changeStreamRetention : Option Int
  rowKeySchema : Option (List RowKeyField)
  deletionProtection : Bool
  initialSplits : List Bytes

/-- Retention periods are from one to seven days. -/
def validateChangeStreamConfig (retention : Option Int) : Option Status :=
  match retention with
  | none => none
  | some d =>
    if d < 24 * 3600 * 1000000000 ∨ d > 7 * 24 * 3600 * 1000000000 then
      some (errorf .invalidArgument
        "change_stream_config.retention_period must be between 1 day and 7 days, got %v"
        [.int d])
    else
      none

def Server.localRequireInstance (s : Server) (parent : Bytes) : Option Status :=
  if s.strictAdmin = true ∧ parent ∉ s.instances then
    some (errorf .notFound "instance %q not found" [.bytes parent])
  else
    none

def Server.localRequireTable (s : Server) (name : Bytes) : Except Status TableObject :=
  match s.tables[name]? with
  | none => .error (errorf .notFound "table %q not found" [.bytes name])
  | some t => .ok t

/-- The checks of a `CreateTable` request. -/
def validateCreateTable (protoSize : GcRule → Nat) (s : Server)
    (req : CreateTableRequest) : Option Status :=
  (if req.parent = [] then
    some (errorf .invalidArgument "parent is required" [])
  else if tableIDPattern req.tableId = false then
    some (errorf .invalidArgument "invalid table ID %q" [.bytes req.tableId])
  else
    none).or <|
  (s.localRequireInstance req.parent).or <|
  (req.columnFamilies.toList.findSome? (fun cf =>
    validateFamily protoSize cf.1 cf.2.1 cf.2.2)).or <|
  (validateChangeStreamConfig req.changeStreamRetention).or <|
  (validateRowKeySchema req.rowKeySchema req.columnFamilies.keys).or <|
  (if req.initialSplits.any (fun split => split.length = 0) then
    some (errorf .invalidArgument "initial split keys must be non-empty" [])
  else
    none)

/-- The object of a new table. -/
def CreateTableRequest.object (req : CreateTableRequest) (incarnation : Nat) : TableObject where
  incarnation := incarnation
  parent := req.parent
  tableId := req.tableId
  storageId := req.tableId
  rows := (req.parent, req.tableId)
  schema := newTable req.columnFamilies req.granularity
    req.changeStreamRetention.isSome req.rowKeySchema
  deletionProtection := req.deletionProtection
  deleteTime := none

def Server.failed (s : Server) (st : Status) : Except Status Unit × Server :=
  (.error st, s)

def Server.createTable (protoSize : GcRule → Nat) (req : CreateTableRequest)
    (s : Server) : Except Status Unit × Server :=
  match validateCreateTable protoSize s req with
  | some st => s.failed st
  | none =>
    let name := tableName req.parent req.tableId
    if s.tables[name]?.isSome then
      s.failed (errorf .alreadyExists "table %q already exists" [.bytes name])
    else
      let t := req.object s.allocated
      (.ok (),
        { s with
          tables := s.tables.insert name t
          allocated := s.allocated + 1
          db := s.db.saveTable t })

/-- A request for an authorized view or a schema bundle. -/
structure CreateChildRequest where
  parent : Bytes
  id : Bytes
  deletionProtection : Bool
  content : Bytes

/-- `validateSubsetView` is an input. -/
def Server.createAuthorizedView (invalid : Option Status) (req : CreateChildRequest)
    (s : Server) : Except Status Unit × Server :=
  if req.parent = [] ∨ tableIDPattern req.id = false then
    s.failed (errorf .invalidArgument "a parent table and valid authorized_view_id are required" [])
  else
    match s.localRequireTable req.parent with
    | .error st => s.failed st
    | .ok _ =>
      match invalid with
      | some st => s.failed st
      | none =>
        let name := req.parent ++ viewsSegment ++ req.id
        if s.db.authorizedViews[name]?.isSome then
          s.failed (errorf .alreadyExists "authorized view %q already exists" [.bytes name])
        else
          (.ok (),
            { s with db := { s.db with
              authorizedViews := s.db.authorizedViews.insert name
                ⟨name, req.deletionProtection, req.content⟩ } })

def maxSchemaBundlesPerTable : Nat := 10

/-- `schemaBundleMessages` is an input. -/
def Server.createSchemaBundle (invalid : Option Status) (req : CreateChildRequest)
    (s : Server) : Except Status Unit × Server :=
  if tableIDPattern req.id = false then
    s.failed (errorf .invalidArgument "invalid schema_bundle_id %q" [.bytes req.id])
  else
    match s.localRequireTable req.parent with
    | .error st => s.failed st
    | .ok _ =>
      match invalid with
      | some st => s.failed st
      | none =>
        let name := req.parent ++ bundlesSegment ++ req.id
        if s.db.schemaBundles[name]?.isSome then
          s.failed (errorf .alreadyExists "schema bundle %q already exists" [.bytes name])
        else if (listPrefix s.db.schemaBundles
            (req.parent ++ bundlesSegment)).length ≥ maxSchemaBundlesPerTable then
          s.failed (errorf .resourceExhausted
            "table %q already has the maximum of %d schema bundles"
            [.bytes req.parent, .int maxSchemaBundlesPerTable])
        else
          (.ok (),
            { s with db := { s.db with
              schemaBundles := s.db.schemaBundles.insert name
                ⟨name, false, req.content⟩ } })

end Create

section Data

/-- What the data calls on a table work on. -/
def Database.store (db : Database) (t : TableObject) : Store :=
  ⟨db.rows t.rows, db.tokens t.name, db.changeLog t.name⟩

def Database.putStore (db : Database) (t : TableObject) (store : Store) : Database :=
  { db with
    rows := Function.update db.rows t.rows store.rows
    tokens := Function.update db.tokens t.name store.tokens
    changeLog := Function.update db.changeLog t.name store.changeLog }

/-- A call on a live table; a failed call changes nothing.  Only
`ModifyColumnFamilies` changes the schema, and it saves the metadata. -/
def Server.write (name : Bytes) (c : Call) (s : Server) : Server :=
  match s.tables[name]? with
  | none => s
  | some t =>
    match TableState.call ⟨t.schema, s.db.store t⟩ c with
    | none => s
    | some st =>
      let t' := { t with schema := st.tbl }
      let db := s.db.putStore t st.db
      { s with
        tables := s.tables.insert name t'
        db :=
          match c with
          | .modifyColumnFamilies _ _ _ => db.saveTable t'
          | _ => db }

end Data

section Update

/-- A path of the update mask of `UpdateTable`. -/
inductive UpdatePath
  | deletionProtection
  | changeStreamConfig
  | changeStreamRetentionPeriod
  | rowKeySchema
  | automatedBackupPolicy
  | tieredStorageConfig
  | columnFamilies
  | wildcard
  | other (path : Bytes)

structure UpdateTableRequest where
  name : Bytes
  paths : List UpdatePath
  deletionProtection : Bool
  changeStreamRetention : Option Int
  rowKeySchema : Option (List RowKeyField)
  ignoreWarnings : Bool

def UpdatePath.unsupported : UpdatePath → Option Status
  | .columnFamilies =>
    some (errorf .unimplemented
      "column_families cannot be updated with UpdateTable; use ModifyColumnFamilies" [])
  | .wildcard => some (errorf .invalidArgument "wildcard update masks are not supported" [])
  | .other path => some (errorf .invalidArgument "unsupported update_mask path %q" [.bytes path])
  | _ => none

def validateUpdateTable (req : UpdateTableRequest) : Option Status :=
  if req.paths.length = 0 then
    some (errorf .invalidArgument "update_mask is required" [])
  else
    req.paths.findSome? UpdatePath.unsupported

/-- The row key schema of a table can be set and removed, not modified.
`schemaEqual` compares the messages. -/
def checkRowKeySchemaUpdate (schemaEqual : List RowKeyField → List RowKeyField → Bool)
    (req : UpdateTableRequest) (tbl : Table) : Option Status :=
  match req.rowKeySchema, tbl.rowKeySchema with
  | none, some _ =>
    if req.ignoreWarnings then
      none
    else
      some (errorf .invalidArgument "removing a row_key_schema requires ignore_warnings" [])
  | some schema, some old =>
    if schemaEqual schema old then
      none
    else
      some (errorf .invalidArgument
        "a row_key_schema cannot be modified; remove it and set a new one" [])
  | _, _ => none

/-- The candidate metadata of an update, for one path of the mask. -/
def updatePath (schemaEqual : List RowKeyField → List RowKeyField → Bool) (req : UpdateTableRequest)
    (tbl : Table) (next : TableObject) : UpdatePath → Except Status TableObject
  | .deletionProtection => .ok { next with deletionProtection := req.deletionProtection }
  | .changeStreamConfig | .changeStreamRetentionPeriod =>
    match validateChangeStreamConfig req.changeStreamRetention with
    | some st => .error st
    | none =>
      .ok { next with
        schema := { next.schema with
          changeStreamEnabled := req.changeStreamRetention.isSome } }
  | .rowKeySchema =>
    match (checkRowKeySchemaUpdate schemaEqual req tbl).or
        (validateRowKeySchema req.rowKeySchema tbl.families.keys) with
    | some st => .error st
    | none =>
      .ok { next with
        schema := { next.schema with rowKeySchema := req.rowKeySchema } }
  | _ => .ok next

def updatePaths (schemaEqual : List RowKeyField → List RowKeyField → Bool)
    (req : UpdateTableRequest)
    (tbl : Table) : List UpdatePath → TableObject → Except Status TableObject
  | [], next => .ok next
  | path :: paths, next =>
    match updatePath schemaEqual req tbl next path with
    | .error st => .error st
    | .ok next => updatePaths schemaEqual req tbl paths next

/-- Delete the change records of a table. -/
def Database.purgeChangeLog (db : Database) (name : Bytes) : Database :=
  { db with changeLog := Function.update db.changeLog name [] }

/-- `UpdateTable`: the candidate is saved before the table changes.  The records of a
change stream that is disabled are deleted. -/
def Server.updateTable (schemaEqual : List RowKeyField → List RowKeyField → Bool)
    (req : UpdateTableRequest) (s : Server) : Except Status Unit × Server :=
  match validateUpdateTable req with
  | some st => s.failed st
  | none =>
    match s.localRequireTable req.name with
    | .error st => s.failed st
    | .ok t =>
      match updatePaths schemaEqual req t.schema req.paths t with
      | .error st => s.failed st
      | .ok next =>
        let db := s.db.saveTable next
        (.ok (),
          { s with
            tables := s.tables.insert req.name next
            db :=
              if t.schema.changeStreamEnabled = true ∧ next.schema.changeStreamEnabled = false then
                db.purgeChangeLog next.name
              else
                db })

end Update

section Delete

/-- `checkTableDeletableLocked`; `reading` is a materialized view that reads the
table, if there is one. -/
def Server.checkTableDeletable (s : Server) (reading : Option Bytes)
    (t : TableObject) : Option Status :=
  if t.deletionProtection then
    some (errorf .failedPrecondition "table %q has deletion protection enabled" [.bytes t.name])
  else
    ((listPrefix s.db.authorizedViews (t.name ++ viewsSegment)).find?
        Child.deletionProtection).map (fun av =>
      errorf .failedPrecondition
        "table %q has authorized view %q with deletion protection enabled"
        [.bytes t.name, .bytes av.name]) |>.or <|
    reading.map (fun mv =>
      errorf .failedPrecondition "table %q is the source of materialized view %q"
        [.bytes t.name, .bytes mv])

/-- The body of the transaction of `DeleteTable`. -/
def deleteActions (deleteTime : Int)
    (tombstone : Bytes) : List (Action TxPoint TableObject Database) :=
  .memory (fun t => { t with deleteTime := some deleteTime }) ::
    rename tombstone ++
    [.exec .purgeChangeLog (fun t db => .ok (db.purgeChangeLog t.name)),
      .exec .moveChildren (fun t db =>
        .ok (db.moveTableChildren t.name t.storageName)),
      .exec .deletePolicies (fun _ db => .ok db)]

/-- `DeleteTable`.  On failure the handler puts back the fields of the object that
the transaction changed. -/
def Server.deleteTable (name : Bytes) (reading : Option Bytes) (deleteTime : Int)
    (fault : Option (Fault TxPoint)) (s : Server) : Except Status Unit × Server :=
  match s.tables[name]? with
  | none => s.failed (errorf .notFound "table %q not found" [.bytes name])
  | some t =>
    match s.checkTableDeletable reading t with
    | some st => s.failed st
    | none =>
      match withTx .begin .commit fault
          (deleteActions deleteTime (tombstoneID t.tableId (toUnixMicro deleteTime))) t s.db with
      | (t', .error err) =>
        (.error (errorf .internal "delete table: %v" [.text err]),
          { s with
            tables := s.tables.insert name
              { t' with
                deleteTime := none
                storageId := t'.tableId
                rows := (t'.parent, t'.tableId) } })
      | (t', .ok db') =>
        (.ok (),
          { s with
            tables := s.tables.erase name
            deletedTables := s.deletedTables.insert t'.storageName t'
            db := db' })

end Delete

section Undelete

/-- The undelete window: seven days. -/
def undeleteWindow : Int := 7 * 24 * 3600 * 1000000000

/-- The delete time; the zero time is before every other. -/
def TableObject.deletedSince (t : TableObject) : Int :=
  t.deleteTime.getD 0

/-- One step of the search for the tombstone with the latest delete time. -/
def laterTombstone (name : Bytes) (latest : Option (Bytes × TableObject))
    (kv : Bytes × TableObject) : Option (Bytes × TableObject) :=
  if kv.2.name = name then
    match latest with
    | none => some kv
    | some l => if kv.2.deletedSince > l.2.deletedSince then some kv else latest
  else
    latest

/-- The latest tombstone of the name, with its key in `deletedTables`. -/
def Server.latestTombstone (s : Server) (name : Bytes) : Option (Bytes × TableObject) :=
  s.deletedTables.toList.foldl (laterTombstone name) none

/-- The body of the transaction of `UndeleteTable`. -/
def undeleteActions (tombstoneName tableId : Bytes) : List (Action TxPoint TableObject Database) :=
  .exec .moveChildren (fun t db => .ok (db.moveTableChildren tombstoneName t.name)) ::
    rename tableId

/-- `UndeleteTable`.  The object changes before the transaction; on failure the
handler puts back its delete time and its protection flag. -/
def Server.undeleteTable (name : Bytes) (now : Int) (fault : Option (Fault TxPoint))
    (s : Server) : Except Status Unit × Server :=
  if s.tables[name]?.isSome then
    s.failed (errorf .alreadyExists "table %q already exists" [.bytes name])
  else
    let notFound := errorf .notFound "no deleted table %q is available to undelete" [.bytes name]
    match s.latestTombstone name with
    | none => s.failed notFound
    | some (key, t) =>
      if now - t.deletedSince > undeleteWindow then
        s.failed notFound
      else
        let tombstoneName := t.storageName
        match withTx .begin .commit fault (undeleteActions tombstoneName t.tableId)
            { t with deleteTime := none, deletionProtection := true } s.db with
        | (t', .error err) =>
          (.error (errorf .internal "undelete table: %v" [.text err]),
            { s with
              deletedTables := s.deletedTables.insert key
                { t' with
                  deleteTime := t.deleteTime
                  deletionProtection := t.deletionProtection } })
        | (t', .ok db') =>
          (.ok (),
            { s with
              tables := s.tables.insert t'.name t'
              deletedTables := s.deletedTables.erase tombstoneName
              db := db' })

/-- Remove one tombstone: its rows and metadata, then its children. -/
def Database.purgeTable (db : Database) (name : Bytes) (t : TableObject) : Database :=
  let db := { db with rows := Function.update db.rows t.rows ∅ }
  let db := db.deleteTableRecord (t.parent, t.storageId)
  { db with
    authorizedViews := removeChildren db.authorizedViews (name ++ viewsSegment)
    schemaBundles := removeChildren db.schemaBundles (name ++ bundlesSegment) }

/-- One step of `purgeExpiredTombstones`. -/
def Server.purgeExpired (now : Int) (s : Server) (kv : Bytes × TableObject) : Server :=
  if now - kv.2.deletedSince ≤ undeleteWindow then
    s
  else
    { s with
      deletedTables := s.deletedTables.erase kv.1
      db := s.db.purgeTable kv.1 kv.2 }

def Server.purgeExpiredTombstones (now : Int) (s : Server) : Server :=
  s.deletedTables.toList.foldl (Server.purgeExpired now) s

end Undelete

section Calls

/-- The calls on the tables of a server and the background purge of tombstones.  What
a call takes from the outside is part of it: the results of checks that are not
modelled, the clock and the failures of the storage. -/
inductive TableCall
  | createTable (protoSize : GcRule → Nat) (req : CreateTableRequest)
  | createAuthorizedView (invalid : Option Status) (req : CreateChildRequest)
  | createSchemaBundle (invalid : Option Status) (req : CreateChildRequest)
  | write (name : Bytes) (c : Call)
  | updateTable
      (schemaEqual : List RowKeyField → List RowKeyField → Bool) (req : UpdateTableRequest)
  | deleteTable
      (name : Bytes) (reading : Option Bytes) (deleteTime : Int) (fault : Option (Fault TxPoint))
  | undeleteTable (name : Bytes) (now : Int) (fault : Option (Fault TxPoint))
  | purgeExpiredTombstones (now : Int)

/-- Answer a call.  The answer to a data call is left out. -/
def Server.perform (s : Server) : TableCall → Except Status Unit × Server
  | .createTable protoSize req => s.createTable protoSize req
  | .createAuthorizedView invalid req => s.createAuthorizedView invalid req
  | .createSchemaBundle invalid req => s.createSchemaBundle invalid req
  | .write name c => (.ok (), s.write name c)
  | .updateTable schemaEqual req => s.updateTable schemaEqual req
  | .deleteTable name reading deleteTime fault => s.deleteTable name reading deleteTime fault
  | .undeleteTable name now fault => s.undeleteTable name now fault
  | .purgeExpiredTombstones now => (.ok (), s.purgeExpiredTombstones now)

/-- The server after a call. -/
def Server.next (s : Server) (call : TableCall) : Option Server :=
  some (s.perform call).2

end Calls

end Bttest
end LittleBigtable
