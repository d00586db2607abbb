import LittleBigtable.Bttest.Tables
import LittleBigtable.Lib.Segments

/-!
# The shape of live tables and tombstones

Names of resources are cut at their slashes and storage IDs of tombstones at the
last `@`, since IDs and times have neither.  So storage keys and resource names of different
tables and tombstones never meet.

A live table is stored under its ID; a tombstone under its tombstone ID, and both
under their name in memory.  The successful calls keep this shape.
-/

namespace LittleBigtable
namespace Bttest

open Transaction List

section Names

/-- An ID or a storage ID is one segment of a resource name. -/
def Slashless (b : Bytes) : Prop :=
  47 ∉ b

theorem idChar_ne {c : UInt8} (h : idChar c = true) :
    c ≠ 47 ∧ c ≠ 64 := by
  refine ⟨?_, ?_⟩ <;>
    · rintro rfl
      revert h
      decide

variable {id id' : Bytes}

theorem mem_of_tableIDPattern (h : tableIDPattern id = true) {c : UInt8} (hc : c ∈ id) :
    idChar c = true := by
  cases id with
  | nil => cases hc
  | cons d ds =>
    simp only [tableIDPattern, Bool.and_eq_true] at h
    rcases mem_cons.mp hc with rfl | hc
    · exact h.1.1.1.1
    · exact all_eq_true.mp h.1.2 c hc

theorem slashless_of_tableIDPattern (h : tableIDPattern id = true) :
    Slashless id :=
  fun hc => (idChar_ne (mem_of_tableIDPattern h hc)).1 rfl

theorem not_mem_at_of_tableIDPattern (h : tableIDPattern id = true) :
    (64 : UInt8) ∉ id :=
  fun hc => (idChar_ne (mem_of_tableIDPattern h hc)).2 rfl

theorem slashless_tombstoneID (h : tableIDPattern id = true) (d : Int) :
    Slashless (tombstoneID id d) := by
  intro hmem
  rcases mem_append.mp hmem with hmem | hmem
  · rcases mem_append.mp hmem with hmem | hmem
    · exact slashless_of_tableIDPattern h hmem
    · revert hmem
      decide
  rcases Decimal.mem_format hmem with heq | ⟨hlo, _⟩
  · revert heq
    decide
  · revert hlo
    decide

/-- A tombstone ID determines the table ID and the time of deletion. -/
theorem tombstoneID_injective {d d' : Int} (h : tombstoneID id d = tombstoneID id' d') :
    id = id' ∧ d = d' := by
  have hat : ∀ d, (64 : UInt8) ∉ Decimal.format d := by
    intro d hmem
    rcases Decimal.mem_format hmem with heq | ⟨_, hhi⟩
    · revert heq
      decide
    · revert hhi
      decide
  have hcut : (id ++ utf8 "@deleted") ++ 64 :: Decimal.format d =
      (id' ++ utf8 "@deleted") ++ 64 :: Decimal.format d' := by
    simpa [tombstoneID, show utf8 "@deleted@" = utf8 "@deleted" ++ [64] from rfl] using h
  obtain ⟨hid, hrest⟩ := Segments.cut_last (hat d) (hat d') hcut
  exact ⟨append_cancel_right hid, Decimal.format_injective hrest⟩

theorem tombstoneID_ne (hid' : tableIDPattern id' = true) (d : Int) :
    tombstoneID id d ≠ id' := by
  intro h
  refine not_mem_at_of_tableIDPattern hid' (h ▸ ?_)
  refine mem_append_left _ (mem_append_right _ ?_)
  decide

theorem tableName_injective {parent parent' : Bytes} (hid : Slashless id) (hid' : Slashless id')
    (h : tableName parent id = tableName parent' id') :
    parent = parent' ∧ id = id' := by
  have hcut : (parent ++ utf8 "/tables") ++ 47 :: id =
      (parent' ++ utf8 "/tables") ++ 47 :: id' := by
    simpa [tableName, show utf8 "/tables/" = utf8 "/tables" ++ [47] from rfl] using h
  obtain ⟨hparent, hid⟩ := Segments.cut_last hid hid' hcut
  exact ⟨append_cancel_right hparent, hid⟩

end Names

section Shape

/-- A live table is stored under its ID. -/
structure TableObject.Live (t : TableObject) : Prop where
  tableId : tableIDPattern t.tableId = true
  storageId : t.storageId = t.tableId
  rows : t.rows = (t.parent, t.storageId)
  deleteTime : t.deleteTime = none

/-- A table that was deleted at a time is stored under its tombstone ID. -/
structure TableObject.Dead (t : TableObject) (deleteTime : Int) : Prop where
  tableId : tableIDPattern t.tableId = true
  storageId : t.storageId = tombstoneID t.tableId (toUnixMicro deleteTime)
  rows : t.rows = (t.parent, t.storageId)
  deleteTime : t.deleteTime = some deleteTime

/-- Live tables are known by their name, tombstones by their storage name. -/
structure Server.WellShaped (s : Server) : Prop where
  live : ∀ (name : Bytes) (t : TableObject), s.tables[name]? = some t → name = t.name ∧ t.Live
  dead : ∀ (key : Bytes) (t : TableObject), s.deletedTables[key]? = some t →
    key = t.storageName ∧ ∃ d, t.Dead d

theorem Server.WellShaped.tables_live {s : Server} (hs : s.WellShaped) (name : Bytes)
    (t : TableObject) (ht : s.tables[name]? = some t) :
    t.Live :=
  (hs.live name t ht).2

/-- The fields of a table that data calls and updates may change. -/
def TableObject.withSchema (t : TableObject) (schema : Table)
    (deletionProtection : Bool) : TableObject :=
  { t with schema := schema, deletionProtection := deletionProtection }

/-- A live table as a tombstone. -/
def TableObject.deletedAt (t : TableObject) (d : Int) : TableObject :=
  { t with
    deleteTime := some d
    storageId := tombstoneID t.tableId (toUnixMicro d)
    rows := (t.parent, tombstoneID t.tableId (toUnixMicro d)) }

/-- A tombstone as a live table. -/
def TableObject.undeleted (t : TableObject) : TableObject :=
  { t with
    deleteTime := none
    deletionProtection := true
    storageId := t.tableId
    rows := (t.parent, t.tableId) }

/-- A tombstone that `Rename` has already moved to the table ID. -/
def TableObject.renamed (t : TableObject) : TableObject :=
  { t with storageId := t.tableId, rows := (t.parent, t.tableId) }

variable {t : TableObject} {d : Int}

theorem TableObject.Live.putBack (h : t.Live) :
    { t with
      deleteTime := none
      storageId := t.tableId
      rows := (t.parent, t.tableId) } = t := by
  obtain ⟨incarnation, parent, tableId, storageId, rows, schema, protection, deleteTime⟩ := t
  obtain ⟨_, hstorage, hrows, hdelete⟩ := h
  simp only at hstorage hrows hdelete
  rw [hdelete, hrows, hstorage]

theorem TableObject.Live.withSchema (h : t.Live) (schema : Table) (deletionProtection : Bool) :
    (t.withSchema schema deletionProtection).Live :=
  ⟨h.tableId, h.storageId, h.rows, h.deleteTime⟩

theorem TableObject.Live.deletedAt (h : t.Live) (d : Int) :
    (t.deletedAt d).Dead d :=
  ⟨h.tableId, rfl, rfl, rfl⟩

theorem TableObject.Dead.undeleted (h : t.Dead d) :
    t.undeleted.Live :=
  ⟨h.tableId, rfl, rfl, rfl⟩

theorem TableObject.Dead.not_live (h : t.Dead d) :
    ¬ t.Live := by
  intro hlive
  have hsome := h.deleteTime
  rw [hlive.deleteTime] at hsome
  cases hsome

theorem TableObject.Dead.slashless (h : t.Dead d) :
    Slashless t.storageId :=
  h.storageId ▸ slashless_tombstoneID h.tableId _

theorem TableObject.Live.slashless (h : t.Live) :
    Slashless t.storageId :=
  h.storageId ▸ slashless_of_tableIDPattern h.tableId

theorem TableObject.Live.storageName_eq (h : t.Live) :
    t.storageName = t.name := by
  unfold TableObject.storageName TableObject.name
  rw [h.storageId]

end Shape

section Specifications

variable {s s' : Server} {name : Bytes}

variable {fault : Option (Fault TxPoint)} {now : Int} {latest : Option (Bytes × TableObject)}
variable {kv l : Bytes × TableObject}

/-- A successful deletion. -/
theorem deleteTable_eq_ok {reading : Option Bytes} {d : Int}
    (h : s.deleteTable name reading d fault = (.ok (), s')) :
    ∃ t db₁, s.tables[name]? = some t ∧
      s.checkTableDeletable reading t = none ∧
      s.db.moveRows (t.parent, t.storageId)
        (t.parent, tombstoneID t.tableId (toUnixMicro d)) = .ok db₁ ∧
      s' = { s with
        tables := s.tables.erase name
        deletedTables := s.deletedTables.insert (t.deletedAt d).storageName (t.deletedAt d)
        db := (((db₁.deleteTableRecord (t.parent, t.storageId)).saveTable
          (t.deletedAt d)).purgeChangeLog t.name).moveTableChildren t.name
            (t.deletedAt d).storageName } := by
  unfold Server.deleteTable at h
  split at h
  · cases h
  rename_i t ht
  split at h
  · cases h
  rename_i hcheck
  split at h
  · cases h
  rename_i t' db' htx
  have hbody := withTx_eq_ok htx
  simp only [deleteActions, rename, cons_append, nil_append, body_memory] at hbody
  obtain ⟨db₁, hmove, hbody⟩ := body_exec_eq_ok hbody
  obtain ⟨db₂, hdelete, hbody⟩ := body_exec_eq_ok hbody
  rw [body_memory] at hbody
  obtain ⟨db₃, hsave, hbody⟩ := body_exec_eq_ok hbody
  obtain ⟨db₄, hpurge, hbody⟩ := body_exec_eq_ok hbody
  obtain ⟨db₅, hchildren, hbody⟩ := body_exec_eq_ok hbody
  obtain ⟨db₆, hpolicies, hbody⟩ := body_exec_eq_ok hbody
  cases hdelete
  cases hsave
  cases hpurge
  cases hchildren
  cases hpolicies
  cases hbody
  cases h
  exact ⟨t, db₁, ht, hcheck, hmove, rfl⟩

/-- A successful undeletion. -/
theorem undeleteTable_eq_ok (h : s.undeleteTable name now fault = (.ok (), s')) :
    ∃ key t db₁, s.tables[name]? = none ∧
      s.latestTombstone name = some (key, t) ∧
      now - t.deletedSince ≤ undeleteWindow ∧
      (s.db.moveTableChildren t.storageName t.name).moveRows (t.parent, t.storageId)
        (t.parent, t.tableId) = .ok db₁ ∧
      s' = { s with
        tables := s.tables.insert t.name t.undeleted
        deletedTables := s.deletedTables.erase t.storageName
        db := (db₁.deleteTableRecord (t.parent, t.storageId)).saveTable
          t.undeleted } := by
  unfold Server.undeleteTable at h
  split_ifs at h with hlive
  · cases h
  simp only at h
  split at h
  · cases h
  rename_i key t ht
  split_ifs at h with hwindow
  · cases h
  split at h
  · cases h
  rename_i t' db' htx
  have hbody := withTx_eq_ok htx
  simp only [undeleteActions, rename] at hbody
  obtain ⟨db₀, hchildren, hbody⟩ := body_exec_eq_ok hbody
  obtain ⟨db₁, hmove, hbody⟩ := body_exec_eq_ok hbody
  obtain ⟨db₂, hdelete, hbody⟩ := body_exec_eq_ok hbody
  rw [body_memory] at hbody
  obtain ⟨db₃, hsave, hbody⟩ := body_exec_eq_ok hbody
  cases hchildren
  cases hdelete
  cases hsave
  cases hbody
  cases h
  exact ⟨key, t, db₁, by simpa using hlive, ht, by omega, hmove, rfl⟩

/-- A successful creation. -/
theorem createTable_eq_ok {protoSize : GcRule → Nat} {req : CreateTableRequest}
    (h : s.createTable protoSize req = (.ok (), s')) :
    tableIDPattern req.tableId = true ∧
      s.localRequireInstance req.parent = none ∧
      s.tables[tableName req.parent req.tableId]? = none ∧
      s' = { s with
        tables := s.tables.insert (tableName req.parent req.tableId) (req.object s.allocated)
        allocated := s.allocated + 1
        db := s.db.saveTable (req.object s.allocated) } := by
  unfold Server.createTable at h
  split at h
  · cases h
  rename_i hvalid
  simp only at h
  split_ifs at h with hlive
  · cases h
  cases h
  simp only [validateCreateTable, Option.or_eq_none_iff] at hvalid
  obtain ⟨hid, hinstance, _⟩ := hvalid
  split_ifs at hid with hparent hpattern
  exact ⟨by simpa using hpattern, hinstance, by simpa using hlive, rfl⟩

/-- The search keeps the tombstone found so far or takes the next one of the name. -/
theorem laterTombstone_eq_some (h : laterTombstone name latest kv = some l) :
    latest = some l ∨ (kv = l ∧ kv.2.name = name) := by
  unfold laterTombstone at h
  split_ifs at h with hname
  · cases latest with
    | none => exact .inr ⟨Option.some.inj h, hname⟩
    | some l₀ =>
      simp only at h
      split_ifs at h
      · exact .inr ⟨Option.some.inj h, hname⟩
      · exact .inl h
  · exact .inl h

theorem laterTombstone_of_latest (name : Bytes) (l kv : Bytes × TableObject) :
    ∃ l', laterTombstone name (some l) kv = some l' ∧ l.2.deletedSince ≤ l'.2.deletedSince := by
  unfold laterTombstone
  split_ifs with hname
  · simp only
    split_ifs with hlater
    · exact ⟨kv, rfl, by omega⟩
    · exact ⟨l, rfl, le_refl _⟩
  · exact ⟨l, rfl, le_refl _⟩

theorem laterTombstone_of_name (latest : Option (Bytes × TableObject)) (hname : kv.2.name = name) :
    ∃ l', laterTombstone name latest kv = some l' ∧ kv.2.deletedSince ≤ l'.2.deletedSince := by
  unfold laterTombstone
  rw [if_pos hname]
  cases latest with
  | none => exact ⟨kv, rfl, le_refl _⟩
  | some l =>
    simp only
    split_ifs with hlater
    · exact ⟨kv, rfl, le_refl _⟩
    · exact ⟨l, rfl, by omega⟩

theorem foldl_laterTombstone {entries : List (Bytes × TableObject)}
    (h : entries.foldl (laterTombstone name) latest = some l) :
    (latest = some l ∨ (l ∈ entries ∧ l.2.name = name)) ∧
      (∀ l', latest = some l' → l'.2.deletedSince ≤ l.2.deletedSince) ∧
      ∀ kv ∈ entries, kv.2.name = name → kv.2.deletedSince ≤ l.2.deletedSince := by
  induction entries generalizing latest with
  | nil =>
    refine ⟨.inl h, fun l' hl' => ?_, fun kv hkv => absurd hkv not_mem_nil⟩
    cases h.symm.trans hl'
    exact le_refl _
  | cons kv entries ih =>
    obtain ⟨hfrom, hmax, hrest⟩ := ih h
    refine ⟨?_, fun l' hl' => ?_, fun kv' hmem hname => ?_⟩
    · rcases hfrom with heq | ⟨hmem, hname⟩
      · rcases laterTombstone_eq_some heq with heq | ⟨rfl, hname⟩
        · exact .inl heq
        · exact .inr ⟨mem_cons_self, hname⟩
      · exact .inr ⟨mem_cons_of_mem kv hmem, hname⟩
    · obtain ⟨l₁, hl₁, hle⟩ := laterTombstone_of_latest name l' kv
      rw [← hl'] at hl₁
      exact hle.trans (hmax l₁ hl₁)
    · rcases mem_cons.mp hmem with rfl | hmem
      · obtain ⟨l₁, hl₁, hle⟩ := laterTombstone_of_name latest hname
        exact hle.trans (hmax l₁ hl₁)
      · exact hrest kv' hmem hname

theorem latestTombstone_eq_some {key : Bytes} {t : TableObject}
    (h : s.latestTombstone name = some (key, t)) :
    s.deletedTables[key]? = some t ∧ t.name = name ∧
      ∀ (key' : Bytes) (t' : TableObject), s.deletedTables[key']? = some t' →
        t'.name = name → t'.deletedSince ≤ t.deletedSince := by
  obtain ⟨hfrom, _, hmax⟩ := foldl_laterTombstone h
  rcases hfrom with hnone | ⟨hmem, hname⟩
  · cases hnone
  refine ⟨Std.ExtTreeMap.mem_toList_iff_getElem?_eq_some.mp hmem, hname,
    fun key' t' ht' hname' => ?_⟩
  exact hmax (key', t') (Std.ExtTreeMap.mem_toList_iff_getElem?_eq_some.mpr ht') hname'

/-- A failed deletion leaves the server as it was: however far the transaction came,
the fields that it changes are put back. -/
theorem deleteTable_eq_error {reading : Option Bytes} {d : Int} {st : Status}
    (hlive : ∀ t, s.tables[name]? = some t → t.Live)
    (h : s.deleteTable name reading d fault = (.error st, s')) :
    s' = s := by
  unfold Server.deleteTable at h
  split at h
  · cases h
    rfl
  rename_i t ht
  split at h
  · cases h
    rfl
  split at h
  · rename_i t' err htx
    have hback := withTx_invariant (fun t' : TableObject =>
        { t' with
          deleteTime := none
          storageId := t'.tableId
          rows := (t'.parent, t'.tableId) } = t) ?_ ?_ htx
    · cases h
      simp only [hback, FiniteMap.insert_eq_self ht]
    · intro run hrun t' ht'
      simp only [deleteActions, rename, cons_append, nil_append,
        mem_cons, Action.memory.injEq, reduceCtorEq, not_mem_nil,
        false_or, or_false] at hrun
      rcases hrun with rfl | rfl
      · exact ht'
      · exact ht'
    · exact (hlive t ht).putBack
  · cases h

/-- The storage fails at the last statement of `Rename` or at the commit: the
tombstone is already renamed in memory. -/
def Server.UndeleteFailsAfterRename (s : Server) (name : Bytes) (now : Int)
    (fault : Option (Fault TxPoint)) : Prop :=
  s.tables[name]? = none ∧
    ∃ key t db₁ f,
      s.latestTombstone name = some (key, t) ∧
      now - t.deletedSince ≤ undeleteWindow ∧
      (s.db.moveTableChildren t.storageName t.name).moveRows (t.parent, t.storageId)
        (t.parent, t.tableId) = .ok db₁ ∧
      fault = some f ∧ (f.point = .save ∨ f.point = .commit)

/-- A failed undeletion leaves the server as it was, or the tombstone renamed. -/
theorem undeleteTable_eq_error {st : Status}
    (h : s.undeleteTable name now fault = (.error st, s')) :
    s' = s ∨
      (s.UndeleteFailsAfterRename name now fault ∧
        ∃ key t, s.latestTombstone name = some (key, t) ∧
          s' = { s with deletedTables := s.deletedTables.insert key t.renamed }) := by
  unfold Server.undeleteTable at h
  split_ifs at h with hlive
  · cases h
    exact .inl rfl
  simp only at h
  split at h
  · cases h
    exact .inl rfl
  rename_i key t ht
  obtain ⟨hkey, _, _⟩ := latestTombstone_eq_some ht
  split_ifs at h with hwindow
  · cases h
    exact .inl rfl
  split at h
  · rename_i t' err htx
    have hunchanged : t' = { t with deleteTime := none, deletionProtection := true } →
        s' = s := by
      rintro rfl
      cases h
      simp only [FiniteMap.insert_eq_self hkey]
    -- behind the change of the memory there are one statement and the commit
    have hrenamed : ∀ (db₁ : Database) (f : Fault TxPoint),
        (s.db.moveTableChildren t.storageName t.name).moveRows
          (t.parent, t.storageId) (t.parent, t.tableId) = .ok db₁ →
        fault = some f → (f.point = .save ∨ f.point = .commit) →
        t' = { t.renamed with deleteTime := none, deletionProtection := true } →
        s.UndeleteFailsAfterRename name now fault ∧
          ∃ key t, s.latestTombstone name = some (key, t) ∧
            s' = { s with
              deletedTables := s.deletedTables.insert key t.renamed } := by
      rintro db₁ f hmove hfault hpoint rfl
      cases h
      exact ⟨⟨by simpa using hlive, key, t, db₁, f, ht, by omega, hmove, hfault,
        hpoint⟩, key, t, ht, rfl⟩
    rcases withTx_eq_error htx with heq | hbody | ⟨db', hbody, hcommit⟩
    · exact .inl (hunchanged heq)
    · simp only [undeleteActions, rename] at hbody
      rcases body_exec_eq_error hbody with ⟨heq, _⟩ | ⟨db₀, hchildren, hbody⟩
      · exact .inl (hunchanged heq)
      rcases body_exec_eq_error hbody with ⟨heq, _⟩ | ⟨db₁, hmove, hbody⟩
      · exact .inl (hunchanged heq)
      rcases body_exec_eq_error hbody with ⟨heq, _⟩ | ⟨db₂, _, hbody⟩
      · exact .inl (hunchanged heq)
      rw [body_memory] at hbody
      rcases body_exec_eq_error hbody with ⟨heq, hsave⟩ | ⟨db₃, _, hbody⟩
      · rcases hsave with hsave | hsave
        · obtain ⟨f, hfault, hpoint⟩ := at?_eq_some hsave
          cases hchildren
          exact .inr (hrenamed db₁ f hmove hfault (.inl hpoint) heq)
        · cases hsave
      · cases hbody
    · simp only [undeleteActions, rename] at hbody
      obtain ⟨db₀, hchildren, hbody⟩ := body_exec_eq_ok hbody
      obtain ⟨db₁, hmove, hbody⟩ := body_exec_eq_ok hbody
      obtain ⟨db₂, _, hbody⟩ := body_exec_eq_ok hbody
      rw [body_memory] at hbody
      obtain ⟨db₃, _, hbody⟩ := body_exec_eq_ok hbody
      obtain ⟨f, hfault, hpoint⟩ := at?_eq_some hcommit
      cases hbody
      cases hchildren
      exact .inr (hrenamed db₁ f hmove hfault (.inr hpoint) rfl)
  · cases h

/-- When the storage fails late, the tombstone stays renamed. -/
theorem undeleteTable_of_failsAfterRename (h : s.UndeleteFailsAfterRename name now fault) :
    ∃ st key t, s.latestTombstone name = some (key, t) ∧
      s.undeleteTable name now fault =
        (.error st, { s with deletedTables := s.deletedTables.insert key t.renamed }) := by
  obtain ⟨hlive, key, t, db₁, ⟨point, text⟩, ht, hwindow, hmove, rfl, hpoint⟩ := h
  refine ⟨errorf .internal "undelete table: %v" [.text text], key, t, ht, ?_⟩
  unfold Server.undeleteTable
  rw [hlive, ht]
  simp only [Option.isSome_none, Bool.false_eq_true, if_false,
    if_neg (show ¬ now - t.deletedSince > undeleteWindow by omega)]
  unfold TableObject.name at hmove
  rcases hpoint with rfl | rfl
  · simp [withTx, body, undeleteActions, rename, Fault.at?, hmove, TableObject.renamed,
      TableObject.name]
  · simp [withTx, body, undeleteActions, rename, Fault.at?, hmove, TableObject.renamed,
      TableObject.name]

end Specifications

end Bttest
end LittleBigtable
