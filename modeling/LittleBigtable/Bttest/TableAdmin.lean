import LittleBigtable.Bttest.DataWrite

/-!
# Table administration

Creation of a table, modification of its column families and range drops, as far
as they concern the schema and the stored rows of the table.

The size of a serialized GC rule and the outcome of the metadata write inside the
transaction are inputs.
-/

namespace LittleBigtable
namespace Bttest

/-- `^[-_.a-zA-Z0-9]{1,64}$` -/
def familyIDPattern (id : Bytes) : Bool :=
  decide (1 ≤ id.length ∧ id.length ≤ 64) && id.all (fun c =>
      c == 45 || c == 95 || c == 46 || (97 ≤ c && c ≤ 122) ||
        (65 ≤ c && c ≤ 90) || (48 ≤ c && c ≤ 57))

mutual

/-- The leaves of a GC rule are at least one version and one millisecond. -/
def walkGCRule : GcRule → Option Status
  | .maxAge micros =>
    if micros < 1000 then
      some (errorf .invalidArgument "gc_rule max_age must be at least one millisecond" [])
    else
      none
  | .maxNumVersions n =>
    if n < 1 then
      some (errorf .invalidArgument "gc_rule max_num_versions must be at least 1" [])
    else
      none
  | .union rules => walkGCRules rules
  | .intersection rules => walkGCRules rules
  | .unset => none

def walkGCRules : List GcRule → Option Status
  | [] => none
  | rule :: rules => (walkGCRule rule).or (walkGCRules rules)

end

/-- `protoSize` is the size of the serialized rule. -/
def validateGCRule (protoSize : GcRule → Nat) (rule : Option GcRule) : Option Status :=
  match rule with
  | none => none
  | some rule =>
    if protoSize rule > 500 then
      some (errorf .invalidArgument "gc_rule must serialize to at most 500 bytes" [])
    else
      walkGCRule rule

/-- Unset types and the documented aggregate types are accepted. -/
def validateValueType (t : Option ValueType) : Option Status :=
  match t with
  | none => none
  | some .unset => none
  | some (.other kind _) =>
    some (errorf .invalidArgument
      "column family value_type must be an Aggregate type, got %T"
      [.text kind])
  | some (.aggregate .hllppUniqueCount _ _) => none
  | some (.aggregate .unset _ _) =>
    some (errorf .invalidArgument "aggregate value_type requires an aggregator" [])
  | some (.aggregate _ inputIsInt64 _) =>
    if inputIsInt64 then
      none
    else
      some (errorf .invalidArgument "sum, min and max aggregates require an Int64 input_type" [])

def validateFamily (protoSize : GcRule → Nat) (id : Bytes) (gcRule : Option GcRule)
    (valueType : Option ValueType) : Option Status :=
  if familyIDPattern id then
    (validateGCRule protoSize gcRule).or (validateValueType valueType)
  else
    some (errorf .invalidArgument "invalid column family ID %q" [.bytes id])

/-- The field loop of `validateRowKeySchema`; `seen` lists the names before. -/
def validateRowKeyFields (families : List Bytes) :
    List Bytes → List RowKeyField → Option Status
  | _, [] => none
  | seen, f :: fields =>
    if f.fieldName = [] then
      some (errorf .invalidArgument "row_key_schema fields must be named" [])
    else if f.fieldName = [95, 107, 101, 121] ∨
        f.fieldName = [95, 116, 105, 109, 101, 115, 116, 97, 109, 112] ∨
        f.fieldName ∈ families then
      some (errorf .invalidArgument
        "row_key_schema field %q collides with a column family or reserved column"
        [.bytes f.fieldName])
    else if f.fieldName ∈ seen then
      some (errorf .invalidArgument "duplicate row_key_schema field %q" [.bytes f.fieldName])
    else if f.typed = false then
      some (errorf .invalidArgument "row_key_schema field %q has no type" [.bytes f.fieldName])
    else
      validateRowKeyFields families (f.fieldName :: seen) fields

/-- Names that collide with column families or with the reserved columns `_key`
and `_timestamp` are rejected. -/
def validateRowKeySchema (schema : Option (List RowKeyField))
    (families : List Bytes) : Option Status :=
  match schema with
  | none => none
  | some [] => some (errorf .invalidArgument "row_key_schema must define at least one field" [])
  | some fields => validateRowKeyFields families [] fields

/-- The families of a new table, numbered in the order of their IDs. -/
def numberFamilies :
    Nat → List (Bytes × Option GcRule × Option ValueType) → Families × Nat
  | c, [] => (∅, c)
  | c, (id, gcRule, valueType) :: rest =>
    let (fams, c') := numberFamilies (c + 1) rest
    (fams.insert id ⟨c, gcRule, valueType⟩, c')

/-- `newTable` of a `CreateTable` request. -/
def newTable (columnFamilies : GoMap (Option GcRule × Option ValueType)) (granularity : Granularity)
    (changeStreamEnabled : Bool) (rowKeySchema : Option (List RowKeyField)) : Table :=
  let (fams, c) := numberFamilies 0 columnFamilies.toList
  ⟨fams, c, granularity, changeStreamEnabled, rowKeySchema⟩

/-- A table with the one family `f`. -/
def tableWithFamily (gcRule : Option GcRule) (g : Granularity)
    (changeStreamEnabled : Bool) : Table :=
  newTable
    ((∅ : GoMap (Option GcRule × Option ValueType)).insert [102] (gcRule, none))
    g changeStreamEnabled none

/-- What a modification of `ModifyColumnFamilies` does to its family. -/
inductive ModKind
  | create (gcRule : Option GcRule) (valueType : Option ValueType)
  | update (gcRule : Option GcRule) (valueType : Option ValueType) (updateMask : List String)
  | drop (flag : Bool)
  | unset

structure Modification where
  id : Bytes
  kind : ModKind

/-- The candidate schema that `ModifyColumnFamilies` builds. -/
structure SchemaDraft where
  next : Families
  counter : Nat
  dropped : List Bytes

/-- The loop over the update mask of one family. -/
def applyUpdatePaths (id : Bytes) (gcRule : Option GcRule) (valueType : Option ValueType) :
    List String → ColumnFamily → Except Status ColumnFamily
  | [], cur => .ok cur
  | path :: paths, cur =>
    if path = "gc_rule" then
      applyUpdatePaths id gcRule valueType paths { cur with gcRule := gcRule }
    else if path = "value_type" then
      if cur.valueType = valueType then
        applyUpdatePaths id gcRule valueType paths cur
      else
        .error (errorf .invalidArgument
          "the value_type of column family %q is immutable" [.bytes id])
    else
      .error (errorf .invalidArgument "unsupported column family update_mask path %q" [.text path])

def applyModification (protoSize : GcRule → Nat) (mod : Modification)
    (s : SchemaDraft) : Except Status SchemaDraft :=
  match mod.kind with
  | .create gcRule valueType =>
    match validateFamily protoSize mod.id gcRule valueType with
    | some st => .error st
    | none =>
      if s.next[mod.id]?.isSome then
        .error (errorf .alreadyExists "column family %q already exists" [.bytes mod.id])
      else
        .ok
          { s with
            next := s.next.insert mod.id ⟨s.counter, gcRule, valueType⟩
            counter := s.counter + 1 }
  | .update gcRule valueType updateMask =>
    match s.next[mod.id]? with
    | none => .error (errorf .notFound "column family %q not found" [.bytes mod.id])
    | some cur =>
      match validateGCRule protoSize gcRule with
      | some st => .error st
      | none =>
        let paths :=
          if updateMask.length = 0 then
            if valueType.isSome then
              ["gc_rule", "value_type"]
            else
              ["gc_rule"]
          else
            updateMask
        match applyUpdatePaths mod.id gcRule valueType paths cur with
        | .error st => .error st
        | .ok cur' => .ok { s with next := s.next.insert mod.id cur' }
  | .drop flag =>
    if flag = false then
      .error (errorf .invalidArgument "drop must be true for column family %q" [.bytes mod.id])
    else if s.next[mod.id]?.isNone then
      .error (errorf .notFound "column family %q not found" [.bytes mod.id])
    else
      .ok
        { s with
          next := s.next.erase mod.id
          dropped := s.dropped ++ [mod.id] }
  | .unset =>
    .error (errorf .invalidArgument
      "modification for column family %q has no create, update or drop"
      [.bytes mod.id])

def applyModifications (protoSize : GcRule → Nat) :
    List Modification → SchemaDraft → Except Status SchemaDraft
  | [], s => .ok s
  | mod :: mods, s =>
    match applyModification protoSize mod s with
    | .error st => .error st
    | .ok s' => applyModifications protoSize mods s'

/-- A row without the families `families`. -/
def Row.dropFamilies (r : Row) (families : List Bytes) : Row :=
  { r with families := r.families.filter (fun name _ => decide (name ∉ families)) }

/-- Delete the data of dropped families, so that a re-created family of the same
name starts empty.  Only the rows that hold one of the families are saved. -/
def dropFamilyData (rows : SqlRows) (families : List Bytes) : SqlRows :=
  let changed := (rows.scan ⟨[], []⟩ false).filter
    (fun r => families.any (fun f => r.families[f]?.isSome))
  changed.foldl (fun rows r => rows.save (r.dropFamilies families)) rows

/-- `ModifyColumnFamilies`. -/
def modifyColumnFamilies (protoSize : GcRule → Nat) (txFailure : Option Status)
    (mods : List Modification) (tbl : Table) (db : Store) : Except Status Unit × Table × Store :=
  if mods.length = 0 then
    (.error (errorf .invalidArgument "at least one modification is required" []), tbl, db)
  else
    match applyModifications protoSize mods ⟨tbl.families, tbl.counter, []⟩ with
    | .error st => (.error st, tbl, db)
    | .ok s =>
      match validateRowKeySchema tbl.rowKeySchema s.next.keys with
      | some st => (.error st, tbl, db)
      | none =>
        match txFailure with
        | some st => (.error st, tbl, db)
        | none =>
          (.ok (), { tbl with families := s.next, counter := s.counter },
            if s.dropped.length = 0 then
              db
            else
              { db with rows := dropFamilyData db.rows s.dropped })

/-- The immediate upper bound of the keys with a prefix, on the reversed
prefix: trailing `0xff` bytes are cut and the last other byte is increased. -/
def prefixStop : Bytes → Bytes
  | [] => []
  | c :: rest => if c < 0xff then (c + 1) :: rest else prefixStop rest

/-- The key range covering every key with the prefix `p`. -/
def prefixRange (p : Bytes) : KeyRange :=
  ⟨p, (prefixStop p.reverse).reverse⟩

/-- The target of a `DropRowRange` request. -/
inductive DropTarget
  | deleteAllDataFromTable (flag : Bool)
  | rowKeyPrefix (pre : Bytes)
  | unset

/-- The commit that records the removal of a row. -/
def dropCommit (r : Row) : RowCommit :=
  { key := r.key
    before := some r
    after := newRow r.key
    userChanges := r.sortedFamilies.map (fun fam => Mutation.plain (.deleteFromFamily fam.1))
    gcChanges := [] }

/-- `DropRowRange`. -/
def dropRowRange (tbl : Table) (tx : TxEnv) (target : DropTarget)
    (db : Store) : Except Status Unit × Store :=
  let range : Except Status KeyRange :=
    match target with
    | .deleteAllDataFromTable flag =>
      if flag then
        .ok ⟨[], []⟩
      else
        .error (errorf .invalidArgument "delete_all_data_from_table must be true if set" [])
    | .rowKeyPrefix pre =>
      if pre.length = 0 then
        .error (errorf .invalidArgument "row_key_prefix must be non-empty" [])
      else
        .ok (prefixRange pre)
    | .unset =>
      .error (errorf .invalidArgument
        "one of row_key_prefix or delete_all_data_from_table is required" [])
  match range with
  | .error st => failed db st
  | .ok rng =>
    match tx.failure with
    | some st => failed db st
    | none =>
      let deleted := (db.rows.scan rng false).map dropCommit
      let rows :=
        match target with
        | .deleteAllDataFromTable _ => ∅
        | _ => deleted.foldl (fun rows c => rows.erase c.key) db.rows
      let db := { db with rows := rows }
      (.ok (),
        if tbl.changeStreamEnabled then
          deleted.foldl
            (fun db c => db.appendChange ⟨c.key, .user, tx.commitMicros, c.userChanges⟩) db
        else
          db)

end Bttest
end LittleBigtable
