import LittleBigtable.Bttest.TableStorage

/-!
# The lifecycle of tables

Seen from outside, a table name has at most one live table and any number of deleted
ones, each with its contents: schema, rows, authorized views and schema bundles.  The
server implements this by renaming storage IDs and re-parenting children.  Every call
on the tables of one instance is a step of the abstract store of live and deleted
tables, as long as the transactions succeed and the deletions of one table differ in
their microsecond.

So a new table is empty, and an undeletion gives back the contents that the table had
when it was last deleted.
-/

namespace LittleBigtable
namespace Bttest

open Transaction FiniteMap Transition

section Steps

/-- Tables are created in one instance, transactions succeed, and a table is deleted in
a later microsecond than the tombstones of its name. -/
def LifecycleStep (parent : Bytes) (s : Server) (call : TableCall) : Prop :=
  match call with
  | .createTable _ req => req.parent = parent
  | .deleteTable name _ d fault =>
    fault = none ∧
      ((s.perform call).1 = .ok () →
        ∀ (key : Bytes) (t : TableObject), s.deletedTables[key]? = some t →
          t.name = name → toUnixMicro t.deletedSince < toUnixMicro d)
  | .undeleteTable _ _ fault => fault = none
  | _ => True

theorem LifecycleStep.failsEarly {parent : Bytes} {s : Server} {call : TableCall}
    (h : LifecycleStep parent s call) :
    s.FailsEarly call := by
  rintro name now fault rfl ⟨_, _, _, _, f, _, _, _, hfault, _⟩
  have hnone : fault = none := h
  rw [hnone] at hfault
  cases hfault

theorem tombstoneID_tableName (parent id : Bytes) (d : Int) :
    tombstoneID (tableName parent id) d = tableName parent (tombstoneID id d) := by
  simp only [tombstoneID, tableName, List.append_assoc]

variable {d : Int}

theorem TableObject.Dead.storageName_eq {t : TableObject} (h : t.Dead d) :
    t.storageName = tombstoneID t.name (toUnixMicro d) := by
  unfold TableObject.storageName TableObject.name
  rw [h.storageId, tombstoneID_tableName]

theorem TableObject.Dead.deletedSince_eq {t : TableObject} (h : t.Dead d) :
    t.deletedSince = d := by
  unfold TableObject.deletedSince
  rw [h.deleteTime]
  rfl

variable {s : Server} {parent name : Bytes} {t : TableObject}

theorem Server.WellShaped.tombstone (hs : s.WellShaped)
    (ht : s.deletedTables[tombstoneID name d]? = some t) :
    t.name = name ∧ ∃ d', t.Dead d' ∧ toUnixMicro d' = d := by
  obtain ⟨hkey, d', hdead⟩ := hs.dead _ t ht
  rw [hdead.storageName_eq] at hkey
  obtain ⟨hname, hd⟩ := tombstoneID_injective hkey
  exact ⟨hname.symm, d', hdead, hd.symm⟩

/-- A deletion moves what is stored for the table to a place that was empty. -/
theorem moved_deleted (hs : s.Owned parent) {db₁ : Database} (ht : s.tables[name]? = some t)
    (hlater : ∀ (key : Bytes) (t' : TableObject), s.deletedTables[key]? = some t' →
      t'.name = name → toUnixMicro t'.deletedSince < toUnixMicro d)
    (hmove : s.db.moveRows (t.parent, t.storageId)
      (t.parent, tombstoneID t.tableId (toUnixMicro d)) = .ok db₁) :
    Moved s.db
      ((((db₁.deleteTableRecord (t.parent, t.storageId)).saveTable
        (t.deletedAt d)).purgeChangeLog t.name).moveTableChildren t.name
          (t.deletedAt d).storageName)
      parent t.tableId (tombstoneID t.tableId (toUnixMicro d)) := by
  obtain ⟨hname, hlive⟩ := hs.shape.live name t ht
  have hparent := hs.parent t (.inl ⟨name, ht⟩)
  subst hparent
  have hne : t.tableId ≠ tombstoneID t.tableId (toUnixMicro d) :=
    (tombstoneID_ne hlive.tableId _).symm
  have hfree : ∀ t' ∈ s.objects,
      t'.storageKey ≠ (t.parent, tombstoneID t.tableId (toUnixMicro d)) := by
    rintro t' ht' hkey
    obtain ⟨hparent', hid⟩ := Prod.mk.inj hkey
    rcases ht' with ⟨name', ht'⟩ | ⟨key', ht'⟩
    · obtain ⟨_, hlive'⟩ := hs.shape.live name' t' ht'
      rw [hlive'.storageId] at hid
      exact tombstoneID_ne hlive'.tableId _ hid.symm
    obtain ⟨_, d', hdead⟩ := hs.shape.dead key' t' ht'
    rw [hdead.storageId] at hid
    obtain ⟨hid, hd⟩ := tombstoneID_injective hid
    have hname' : t'.name = name := by
      rw [hname]
      unfold TableObject.name
      rw [hid, hparent']
    have hlt := hlater key' t' ht' hname'
    rw [hdead.deletedSince_eq, hd] at hlt
    exact lt_irrefl _ hlt
  rw [hlive.storageId] at hmove
  have hrows := moveRows_rows (fun heq => hne (Prod.mk.inj heq).2) hmove
  refine moved_of_eq hs.names (slashless_of_tableIDPattern hlive.tableId)
    (slashless_tombstoneID hlive.tableId _) hne
    (hs.stored_empty (slashless_tombstoneID hlive.tableId _) hfree) hrows (fun kind => ?_)
  rw [moveTableChildren_children, moveRows_eq hmove]
  cases kind <;> rfl

theorem Server.WellShaped.key_free (hs : s.WellShaped) {id : Bytes} (hid : tableIDPattern id = true)
    (hnew : s.tables[tableName parent id]? = none) :
    ∀ t ∈ s.objects, t.storageKey ≠ (parent, id) := by
  rintro t ht heq
  obtain ⟨hparent, htable⟩ := Prod.mk.inj heq
  rcases ht with ⟨name, ht⟩ | ⟨key, ht⟩
  · obtain ⟨hname, hlive⟩ := hs.live name t ht
    rw [hname, ← hlive.storageName_eq, TableObject.storageName, hparent, htable, hnew] at ht
    cases ht
  · obtain ⟨_, d, hdead⟩ := hs.dead key t ht
    rw [hdead.storageId] at htable
    exact tombstoneID_ne hid _ htable

/-- An undeletion moves what is stored for the tombstone back. -/
theorem moved_undeleted (hs : s.Owned parent) {key : Bytes} {db₁ : Database}
    (hnew : s.tables[name]? = none) (ht : s.latestTombstone name = some (key, t))
    (hmove : (s.db.moveTableChildren t.storageName t.name).moveRows
      (t.parent, t.storageId) (t.parent, t.tableId) = .ok db₁) :
    Moved s.db
      ((db₁.deleteTableRecord (t.parent, t.storageId)).saveTable t.undeleted)
      parent t.storageId t.tableId := by
  obtain ⟨hkey, hname, _⟩ := latestTombstone_eq_some ht
  obtain ⟨_, d, hdead⟩ := hs.shape.dead key t hkey
  have hparent := hs.parent t (.inr ⟨key, hkey⟩)
  subst hparent
  have hne : t.storageId ≠ t.tableId := by
    rw [hdead.storageId]
    exact tombstoneID_ne hdead.tableId _
  have hfree := hs.shape.key_free hdead.tableId (hname ▸ hnew : s.tables[t.name]? = none)
  have hslashless := slashless_of_tableIDPattern hdead.tableId
  have hrows := moveRows_rows (fun heq => hne (Prod.mk.inj heq).2) hmove
  refine moved_of_eq hs.names hdead.slashless hslashless hne
    (hs.stored_empty hslashless hfree) hrows (fun kind => ?_)
  rw [moveRows_eq hmove]
  cases kind <;> rfl

end Steps

section Ownership

variable {s s' : Server} {parent : Bytes}

/-- Every call of the lifecycle keeps rows, views and bundles owned. -/
theorem CallEffect.owned {call : TableCall} (hs : s.Owned parent)
    (hstep : LifecycleStep parent s call) (h : CallEffect s call (s.perform call).1 s') :
    s'.Owned parent := by
  have hs' := h.wellShaped hs.shape hstep.failsEarly
  generalize hres : (s.perform call).1 = result at h
  cases h with
  | unchanged => exact hs
  | created protoSize req hid hnew =>
    have hparent : req.parent = parent := hstep
    refine owned_of_replaced hs hs'
      (replaced_of_insert hs' (fun t' ht' => absurd ht' (by simp [hnew])) rfl rfl) hparent
      (fun _ _ => rfl) (fun kind => ?_)
    cases kind <;> rfl
  | childCreated call kind name id t c hevent ht hid hname =>
    exact owned_of_childCreated hs ht hname
  | changed call name t schema protection db' hevent ht hframe =>
    have hmem : t ∈ s.objects := .inl ⟨name, ht⟩
    refine owned_of_replaced hs hs' (replaced_of_insert hs' (fun t' ht' => ?_) rfl rfl)
      (hs.parent t hmem) (fun k hk => hframe.rows k ?_) hframe.children
    · rw [ht] at ht'
      cases ht'
      rfl
    · rw [hs.shape.rows hmem]
      exact hk
  | deleted name reading d fault t db₁ ht hmove =>
    have hkey := hs.storageKey (.inl ⟨name, ht⟩)
    have hlive := (hs.shape.live name t ht).2
    rw [hlive.storageId] at hkey
    have hreplaced := replaced_deleted hs.shape hs' ht rfl rfl
    rw [hkey] at hreplaced
    refine owned_of_moved hs hs' hreplaced ?_ (moved_deleted hs ht (hstep.2 hres) hmove)
    exact Prod.ext (Prod.mk.inj hkey).1 rfl
  | undeleted name now fault key t db₁ hnew ht hmove =>
    have hmem : t ∈ s.objects := .inr ⟨key, (latestTombstone_eq_some ht).1⟩
    have hkey := hs.storageKey hmem
    have hreplaced := replaced_undeleted hs.shape hs' hnew ht rfl rfl
    rw [hkey] at hreplaced
    refine owned_of_moved hs hs' hreplaced ?_ (moved_undeleted hs hnew ht hmove)
    exact Prod.ext (Prod.mk.inj hkey).1 rfl
  | undeleteFailed name now fault st key t hlate _ =>
    exact absurd hlate (hstep.failsEarly name now fault rfl)
  | purged now s' hpurged => exact owned_of_purged hs hs' hpurged

end Ownership

section Abstraction

/-- A table as it is seen from outside, and the identity of its object. -/
structure Contents where
  incarnation : Nat
  schema : Table
  stored : Stored

def Server.contents (s : Server) (t : TableObject) : Contents :=
  ⟨t.incarnation, t.schema, s.db.stored t.storageKey⟩

/-- The live and deleted tables by name, the deleted ones by the microsecond of their
deletion. -/
def Server.abstract (s : Server) : SoftDelete.State Bytes Contents Int where
  live name := s.tables[name]?.map s.contents
  dead name d := s.deletedTables[tombstoneID name d]?.map s.contents

theorem abstract_live (s : Server) (name : Bytes) :
    s.abstract.live name = s.tables[name]?.map s.contents :=
  rfl

theorem abstract_dead (s : Server) (name : Bytes) (d : Int) :
    s.abstract.dead name d = s.deletedTables[tombstoneID name d]?.map s.contents :=
  rfl

variable {s s' : Server}

variable {t : TableObject} {name parent : Bytes}

theorem contents_congr (h : s'.db.stored t.storageKey = s.db.stored t.storageKey) :
    s'.contents t = s.contents t := by
  unfold Server.contents
  rw [h]

theorem map_contents_congr {found : Option TableObject}
    (h : ∀ t, found = some t → s'.db.stored t.storageKey = s.db.stored t.storageKey) :
    found.map s'.contents = found.map s.contents := by
  cases found with
  | none => rfl
  | some t => exact congrArg some (contents_congr (h t rfl))

/-- A table is put under a name, and what is stored for the others stays. -/
theorem abstract_put (hs' : s'.WellShaped) (htables : s'.tables = s.tables.insert name t)
    (hdeleted : s'.deletedTables = s.deletedTables)
    (hsame : ∀ t' ∈ s'.objects, t'.storageKey ≠ t.storageKey →
      s'.db.stored t'.storageKey = s.db.stored t'.storageKey) :
    s'.abstract =
      { s.abstract with
        live := Function.update s.abstract.live name (some (s'.contents t)) } := by
  have ht : s'.tables[name]? = some t := by
    rw [htables]
    exact Std.ExtTreeMap.getElem?_insert_self
  have hmem : t ∈ s'.objects := .inl ⟨name, ht⟩
  obtain ⟨hname, hlive⟩ := hs'.live name t ht
  refine SoftDelete.State.ext ?_ ?_
  · funext name'
    dsimp only
    by_cases heq : name' = name
    · subst heq
      rw [abstract_live, ht, Function.update_self]
      rfl
    have hlookup : s'.tables[name']? = s.tables[name']? := by
      rw [htables, getElem?_insert_eq, if_neg (Ne.symm heq)]
    rw [Function.update_of_ne heq, abstract_live, abstract_live, ← hlookup]
    refine map_contents_congr (fun t' ht' => ?_)
    have hmem' : t' ∈ s'.objects := .inl ⟨name', ht'⟩
    refine hsame t' hmem' (fun hkey => heq ?_)
    rw [hname, (hs'.live name' t' ht').1, hs'.eq_of_storageKey hmem' hmem hkey]
  · funext name' d
    dsimp only
    rw [abstract_dead, abstract_dead, ← hdeleted]
    refine map_contents_congr (fun t' ht' => ?_)
    have hmem' : t' ∈ s'.objects := .inr ⟨_, ht'⟩
    refine hsame t' hmem' (fun hkey => ?_)
    obtain ⟨_, d', hdead⟩ := hs'.dead _ t' ht'
    exact hdead.not_live (hs'.eq_of_storageKey hmem' hmem hkey ▸ hlive)

theorem Moved.stored_other {a b : Bytes} {t₁ : TableObject} (hs : s.Owned parent)
    (hmoved : Moved s.db s'.db parent a b) (hreplaced : s.Replaced s' t₁ t.storageKey)
    (hsrc : t.storageKey = (parent, a)) (hdst : t₁.storageKey = (parent, b)) :
    ∀ t' ∈ s'.objects, t' ≠ t₁ → s'.db.stored t'.storageKey = s.db.stored t'.storageKey := by
  intro t' ht' hne
  rcases (hreplaced t').mp ht' with heq | ⟨hold, hneSrc, hneDst⟩
  · exact absurd heq hne
  rw [hs.storageKey hold] at hneSrc hneDst ⊢
  refine hmoved.other t'.storageId (hs.shape.slashless hold) (fun heq => hneSrc ?_)
    (fun heq => hneDst ?_)
  · rw [heq, hsrc]
  · rw [heq, hdst]

/-- A deletion moves the contents of the live table to the deleted ones. -/
theorem abstract_deleted {d : Int} (hs : s.Owned parent) (hs' : s'.Owned parent)
    (ht : s.tables[name]? = some t) (htables : s'.tables = s.tables.erase name)
    (hdeleted : s'.deletedTables =
      s.deletedTables.insert (t.deletedAt d).storageName (t.deletedAt d))
    (hreplaced : s.Replaced s' (t.deletedAt d) t.storageKey)
    (hmoved : Moved s.db s'.db parent t.tableId (tombstoneID t.tableId (toUnixMicro d))) :
    s'.abstract =
      ⟨Function.update s.abstract.live name none,
        Function.update s.abstract.dead name
          (Function.update (s.abstract.dead name) (toUnixMicro d) (some (s.contents t)))⟩ := by
  obtain ⟨hname, hlive⟩ := hs.shape.live name t ht
  have hmem : t ∈ s.objects := .inl ⟨name, ht⟩
  have hmem' : t.deletedAt d ∈ s'.objects := (hreplaced _).mpr (.inl rfl)
  have hsrc : t.storageKey = (parent, t.tableId) := by
    rw [hs.storageKey hmem, hlive.storageId]
  have hdst : (t.deletedAt d).storageKey =
      (parent, tombstoneID t.tableId (toUnixMicro d)) := hs'.storageKey hmem'
  have hkey : (t.deletedAt d).storageName = tombstoneID name (toUnixMicro d) := by
    rw [(hlive.deletedAt d).storageName_eq, hname]
    rfl
  have hother := hmoved.stored_other hs hreplaced hsrc hdst
  refine SoftDelete.State.ext ?_ ?_
  · funext name'
    dsimp only
    by_cases heq : name' = name
    · subst heq
      rw [abstract_live, Function.update_self, htables, getElem?_erase_eq, if_pos rfl]
      rfl
    have hlookup : s'.tables[name']? = s.tables[name']? := by
      rw [htables, getElem?_erase_eq, if_neg (Ne.symm heq)]
    rw [Function.update_of_ne heq, abstract_live, abstract_live, ← hlookup]
    refine map_contents_congr (fun t' ht' => hother t' (.inl ⟨name', ht'⟩) ?_)
    rintro rfl
    exact (hlive.deletedAt d).not_live (hs'.shape.live name' _ ht').2
  funext name' d'
  dsimp only
  by_cases hsame : tombstoneID name (toUnixMicro d) = tombstoneID name' d'
  · obtain ⟨rfl, rfl⟩ := tombstoneID_injective hsame
    rw [abstract_dead, Function.update_self, Function.update_self, hdeleted, ← hkey,
      Std.ExtTreeMap.getElem?_insert_self]
    unfold Server.contents
    rw [Option.map_some, hdst, hmoved.dst, hsrc]
    rfl
  have hlookup : s'.deletedTables[tombstoneID name' d']? =
      s.deletedTables[tombstoneID name' d']? := by
    rw [hdeleted, hkey, getElem?_insert_eq, if_neg hsame]
  rw [SoftDelete.update_update_of_ne _ _ (fun hk ht => hsame (by rw [hk, ht])),
    abstract_dead, abstract_dead, ← hlookup]
  refine map_contents_congr (fun t' ht' => hother t' (.inr ⟨_, ht'⟩) ?_)
  rintro rfl
  exact hsame (hkey ▸ ((hs'.shape.dead _ _ ht').1).symm)

/-- An undeletion moves the contents of the latest deleted table back. -/
theorem abstract_undeleted {key : Bytes} {d : Int} (hs : s.Owned parent) (hs' : s'.Owned parent)
    (hkey : s.deletedTables[key]? = some t) (hname : t.name = name) (hdead : t.Dead d)
    (htables : s'.tables = s.tables.insert t.name t.undeleted)
    (hdeleted : s'.deletedTables = s.deletedTables.erase t.storageName)
    (hreplaced : s.Replaced s' t.undeleted t.storageKey)
    (hmoved : Moved s.db s'.db parent t.storageId t.tableId) :
    s'.abstract =
      ⟨Function.update s.abstract.live name (some (s.contents t)),
        Function.update s.abstract.dead name
          (Function.update (s.abstract.dead name) (toUnixMicro d) none)⟩ := by
  have hmem : t ∈ s.objects := .inr ⟨key, hkey⟩
  have hmem' : t.undeleted ∈ s'.objects := (hreplaced _).mpr (.inl rfl)
  have hsrc : t.storageKey = (parent, t.storageId) := hs.storageKey hmem
  have hdst : t.undeleted.storageKey = (parent, t.tableId) := hs'.storageKey hmem'
  have hstorage : t.storageName = tombstoneID name (toUnixMicro d) := by
    rw [hdead.storageName_eq, hname]
  have hother := hmoved.stored_other hs hreplaced hsrc hdst
  refine SoftDelete.State.ext ?_ ?_
  · funext name'
    dsimp only
    by_cases heq : name' = name
    · subst heq
      rw [abstract_live, Function.update_self, htables, hname, Std.ExtTreeMap.getElem?_insert_self]
      unfold Server.contents
      rw [Option.map_some, hdst, hmoved.dst, hsrc]
      rfl
    · have hlookup : s'.tables[name']? = s.tables[name']? := by
        rw [htables, hname, getElem?_insert_eq, if_neg (Ne.symm heq)]
      rw [Function.update_of_ne heq, abstract_live, abstract_live, ← hlookup]
      refine map_contents_congr (fun t' ht' => hother t' (.inl ⟨name', ht'⟩) ?_)
      rintro rfl
      exact heq ((hs'.shape.live name' _ ht').1.trans hname)
  funext name' d'
  dsimp only
  by_cases hsame : tombstoneID name (toUnixMicro d) = tombstoneID name' d'
  · obtain ⟨rfl, rfl⟩ := tombstoneID_injective hsame
    rw [abstract_dead, Function.update_self, Function.update_self, hdeleted, hstorage,
      getElem?_erase_eq, if_pos rfl]
    rfl
  have hlookup : s'.deletedTables[tombstoneID name' d']? =
      s.deletedTables[tombstoneID name' d']? := by
    rw [hdeleted, hstorage, getElem?_erase_eq, if_neg hsame]
  rw [SoftDelete.update_update_of_ne _ _ (fun hk ht => hsame (by rw [hk, ht])),
    abstract_dead, abstract_dead, ← hlookup]
  refine map_contents_congr (fun t' ht' => hother t' (.inr ⟨_, ht'⟩) ?_)
  rintro rfl
  obtain ⟨_, d₁, hdead₁⟩ := hs'.shape.dead _ _ ht'
  exact hdead₁.not_live hdead.undeleted

/-- The purge keeps what is stored for the tables that it keeps. -/
theorem Purged.stored_kept {now : Int} (hs : s.Owned parent) (h : Purged now s s')
    (ht : t ∈ s'.objects) :
    s'.db.stored t.storageKey = s.db.stored t.storageKey := by
  obtain ⟨hold, hkept⟩ := (h.objects hs.shape t).mp ht
  have hother : ∀ (key : Bytes) (t' : TableObject), s.deletedTables[key]? = some t' →
      t'.Expired now → t'.storageKey ≠ t.storageKey := by
    intro key t' ht' hexp hkey
    have heq := hs.shape.eq_of_storageKey (.inr ⟨key, ht'⟩) hold hkey
    subst heq
    exact hkept key ht' hexp
  refine stored_congr (h.rows_kept _ (fun key t' ht' hexp hrows => ?_))
    (fun kind id => h.child_kept kind _ (fun key t' ht' hexp hstarts => ?_))
  · rw [hs.shape.rows (.inr ⟨key, ht'⟩)] at hrows
    exact hother key t' ht' hexp hrows
  have hmem' : t' ∈ s.objects := .inr ⟨key, ht'⟩
  have hstorage : key = tableName parent t'.storageId := by
    rw [(hs.shape.dead key t' ht').1, TableObject.storageName, hs.parent t' hmem']
  rw [hstorage, hs.storageKey hold] at hstarts
  refine hother key t' ht' hexp ?_
  rw [hs.storageKey hmem', hs.storageKey hold,
    storageId_of_childName (hs.shape.slashless hmem') (hs.shape.slashless hold) hstarts]

/-- The purge drops deleted tables, older ones first. -/
theorem step_purged {now : Int} (hs : s.Owned parent) (h : Purged now s s') :
    SoftDelete.Step s.abstract .other s'.abstract := by
  have hlive : s'.abstract.live = s.abstract.live := by
    funext name
    rw [abstract_live, abstract_live, ← h.tables]
    exact map_contents_congr (fun t ht => h.stored_kept hs (.inl ⟨name, ht⟩))
  have hdead : ∀ name d, s'.abstract.dead name d =
      (s.deletedTables[tombstoneID name d]?.filter (fun t => ¬ t.Expired now)).map s.contents := by
    intro name d
    rw [abstract_dead, ← h.tombstones]
    exact map_contents_congr (fun t ht => h.stored_kept hs (.inr ⟨_, ht⟩))
  have habstract : s'.abstract = { s.abstract with dead := s'.abstract.dead } :=
    SoftDelete.State.ext hlive rfl
  rw [habstract]
  refine .purge _ (fun name d => ?_) (fun name d d' hle hsome hnone => ?_)
  · rw [hdead, abstract_dead]
    cases s.deletedTables[tombstoneID name d]? with
    | none => exact .inl rfl
    | some t =>
      by_cases hexp : t.Expired now
      · exact .inr (by simp [Option.filter, hexp])
      · exact .inl (by simp [Option.filter, hexp])
  rw [hdead] at hnone ⊢
  rw [abstract_dead] at hsome
  cases ht : s.deletedTables[tombstoneID name d]? with
  | none =>
    rw [ht] at hsome
    exact absurd rfl hsome
  | some t =>
    cases ht' : s.deletedTables[tombstoneID name d']? with
    | none => rfl
    | some t' =>
      obtain ⟨_, e, hdead, rfl⟩ := hs.shape.tombstone ht
      obtain ⟨_, e', hdead', rfl⟩ := hs.shape.tombstone ht'
      have hexp : t.Expired now := by
        by_contra hkept
        rw [ht] at hnone
        simp [Option.filter, hkept] at hnone
      have hexp' : t'.Expired now := by
        rcases eq_or_lt_of_le hle with heq | hlt
        · rw [heq, ht] at ht'
          cases ht'
          exact hexp
        unfold TableObject.Expired toUnixMicro at *
        rw [hdead.deletedSince_eq] at hexp
        rw [hdead'.deletedSince_eq]
        omega
      simp [Option.filter, hexp']

end Abstraction

section Simulation

variable {s s' : Server} {parent : Bytes}

theorem saveTable_stored (db : Database) (t : TableObject) (k : StorageKey) :
    (db.saveTable t).stored k = db.stored k := by
  refine stored_congr rfl (fun kind id => ?_)
  cases kind <;> rfl

theorem exists_tombstone {name : Bytes} {d : Int} (hs : s.WellShaped)
    (h : s.abstract.dead name d ≠ none) :
    ∃ t d', s.deletedTables[tombstoneID name d]? = some t ∧ t.name = name ∧ t.Dead d' ∧
      toUnixMicro d' = d := by
  obtain ⟨t, ht⟩ := Option.ne_none_iff_exists'.mp (fun hnone => h (congrArg (Option.map _) hnone))
  obtain ⟨hname, d', hdead, hd⟩ := hs.tombstone ht
  exact ⟨t, d', ht, hname, hdead, hd⟩

/-- Every call on the tables of an instance is a step of the abstract store. -/
theorem perform_simulates (hs : s.Owned parent) {call : TableCall}
    (hstep : LifecycleStep parent s call) :
    (s.perform call).2.Owned parent ∧
      SoftDelete.Step s.abstract (call.event (s.perform call).1) (s.perform call).2.abstract := by
  have heffect := perform_effect hs.shape.tables_live call
  have howned := heffect.owned hs hstep
  refine ⟨howned, ?_⟩
  generalize hres : (s.perform call).1 = result at heffect
  generalize (s.perform call).2 = s' at heffect howned
  have hs' := howned.shape
  cases heffect with
  | unchanged call result hevent =>
    rw [hevent]
    exact .skip
  | created protoSize req hid hnew =>
    rw [abstract_put hs' rfl rfl (fun t' _ _ => saveTable_stored _ _ _)]
    exact .put _ _
  | childCreated call kind name id t c hevent ht hid hname =>
    have hput := abstract_put hs' (insert_eq_self ht).symm rfl (fun t' ht' hkey => ?_)
    · rw [hevent, hput]
      exact .put _ _
    have hmem : t ∈ s.objects := .inl ⟨name, ht⟩
    have hchild : c.name = childName kind (parent, t.storageId) id := by
      obtain ⟨hkey, hlive⟩ := hs.shape.live name t ht
      rw [hname, hkey, ← hlive.storageName_eq, ← hs.storageKey hmem]
      rfl
    rw [howned.storageKey ht']
    refine putChild_stored _ (hs.shape.slashless hmem) (hs'.slashless ht')
      (fun heq => hkey ?_) hchild
    rw [howned.storageKey ht', ← heq, hs.storageKey hmem]
  | changed call name t schema protection db' hevent ht hframe =>
    rw [hevent, abstract_put hs' rfl rfl (fun t' ht' hkey => ?_)]
    · exact .put _ _
    · refine stored_congr (hframe.rows _ ?_) (fun kind id => by rw [hframe.children])
      rw [hs.shape.rows (.inl ⟨name, ht⟩)]
      exact hkey
  | deleted name reading d fault t db₁ ht hmove =>
    have hlater := hstep.2 hres
    rw [abstract_deleted hs howned ht rfl rfl (replaced_deleted hs.shape hs' ht rfl rfl)
      (moved_deleted hs ht hlater hmove)]
    refine .delete name (toUnixMicro d) (s.contents t) ?_ (fun d' hd' => ?_)
    · rw [abstract_live, ht]
      rfl
    · obtain ⟨t', e, ht', hname', hdead, rfl⟩ := exists_tombstone hs.shape hd'
      have hlt := hlater _ t' ht' hname'
      rwa [hdead.deletedSince_eq] at hlt
  | undeleted name now fault key t db₁ hnew ht hmove =>
    obtain ⟨hkey, hname, hmax⟩ := latestTombstone_eq_some ht
    obtain ⟨hstorage, d, hdead⟩ := hs.shape.dead key t hkey
    rw [abstract_undeleted hs howned hkey hname hdead rfl rfl
      (replaced_undeleted hs.shape hs' hnew ht rfl rfl) (moved_undeleted hs hnew ht hmove)]
    refine .undelete name (toUnixMicro d) (s.contents t) ?_ ?_ (fun d' hd' => ?_)
    · rw [abstract_live, hnew]
      rfl
    · rw [abstract_dead, ← hname, ← hdead.storageName_eq, ← hstorage, hkey]
      rfl
    · obtain ⟨t', e, ht', hname', hdead', rfl⟩ := exists_tombstone hs.shape hd'
      have hle := hmax _ t' ht' hname'
      rw [hdead.deletedSince_eq, hdead'.deletedSince_eq] at hle
      exact Int.ediv_le_ediv (by decide) hle
  | undeleteFailed name now fault st key t hlate _ =>
    exact absurd hlate (hstep.failsEarly name now fault rfl)
  | purged now s' hpurged => exact step_purged hs hpurged

end Simulation

section Isolation

variable {s s' : Server} {parent name : Bytes}

variable {calls : List TableCall}

theorem run_owned (hs : s.Owned parent)
    (hsteps : Transition.Meets Server.next (LifecycleStep parent) s calls)
    (hrun : Transition.run Server.next s calls = some s') :
    s'.Owned parent := by
  refine invariant_of_meets (fun s => s.Owned parent) ?_ hs hsteps hrun
  rintro s call s' hs hcall ⟨⟩
  exact (perform_simulates hs hcall).1

/-- The table under the name is the same in both states: the same object with the same
schema, rows, views and bundles. -/
structure SameTable (s s' : Server) (name : Bytes) (t t' : TableObject) : Prop where
  before : s.tables[name]? = some t
  after : s'.tables[name]? = some t'
  incarnation : t'.incarnation = t.incarnation
  schema : t'.schema = t.schema
  rows : s'.db.rows t'.rows = s.db.rows t.rows
  children : ∀ (kind : ChildKind) (key : Bytes), name ++ kind.segment <+: key →
    (s'.db.children kind)[key]? = (s.db.children kind)[key]?

theorem child_eq_of_names {store store' : GoMap Child} (hnames : NamesAgree store)
    (hnames' : NamesAgree store') {key : Bytes}
    (h : store'[key]?.map (fun c => (c.deletionProtection, c.content)) =
      store[key]?.map (fun c => (c.deletionProtection, c.content))) :
    store'[key]? = store[key]? := by
  cases hc : store[key]? with
  | none =>
    rw [hc] at h
    simpa using h
  | some c =>
    cases hc' : store'[key]? with
    | none =>
      rw [hc, hc'] at h
      cases h
    | some c' =>
      have hname := hnames key c hc
      have hname' := hnames' key c' hc'
      rw [hc, hc'] at h
      obtain ⟨n, protection, content⟩ := c
      obtain ⟨n', protection', content'⟩ := c'
      simp only [Option.map_some, Option.some.injEq, Prod.mk.injEq] at h hname hname'
      rw [h.1, h.2, hname, hname']

/-- The abstraction loses nothing of a live table. -/
theorem sameTable_of_abstract (hs : s.Owned parent) (hs' : s'.Owned parent) {v : Contents}
    (h : s.abstract.live name = some v) (h' : s'.abstract.live name = some v) :
    ∃ t t', SameTable s s' name t t' := by
  obtain ⟨t, ht, rfl⟩ := Option.map_eq_some_iff.mp h
  obtain ⟨t', ht', hsame⟩ := Option.map_eq_some_iff.mp h'
  have hmem : t ∈ s.objects := .inl ⟨name, ht⟩
  have hmem' : t' ∈ s'.objects := .inl ⟨name, ht'⟩
  obtain ⟨hname, hlive⟩ := hs.shape.live name t ht
  obtain ⟨hname', hlive'⟩ := hs'.shape.live name t' ht'
  have hkey : t'.storageKey = t.storageKey := by
    rw [hs.storageKey hmem, hs'.storageKey hmem']
    rw [hname, ← hlive.storageName_eq, ← hlive'.storageName_eq] at hname'
    rw [(tableName_injective hlive.slashless hlive'.slashless hname').2]
  unfold Server.contents at hsame
  rw [hkey] at hsame
  obtain ⟨hincarnation, hschema, hstored⟩ := Contents.mk.inj hsame
  refine ⟨t, t', ht, ht', hincarnation, hschema, ?_, fun kind key hstarts => ?_⟩
  · rw [hs.shape.rows hmem, hs'.shape.rows hmem', hkey]
    exact congrArg Stored.rows hstored
  obtain ⟨id, rfl⟩ := hstarts
  have hchild : name ++ kind.segment ++ id = childName kind t.storageKey id := by
    rw [hname, ← hlive.storageName_eq]
    rfl
  rw [hchild]
  exact child_eq_of_names (hs.names kind) (hs'.names kind)
    (congrFun (congrFun (congrArg Stored.child hstored) kind) id)

/-- A new table has no rows, views and bundles. -/
theorem created_empty (hs : s.Owned parent) {protoSize : GcRule → Nat} {req : CreateTableRequest}
    (hparent : req.parent = parent) (h : s.createTable protoSize req = (.ok (), s')) :
    ∃ t, s'.tables[tableName req.parent req.tableId]? = some t ∧
      s'.db.rows t.rows = ∅ ∧
      ∀ (kind : ChildKind) (key : Bytes),
        tableName req.parent req.tableId ++ kind.segment <+: key →
        (s'.db.children kind)[key]? = none := by
  obtain ⟨hid, _, hnew, rfl⟩ := createTable_eq_ok h
  subst hparent
  have hempty := hs.stored_empty (slashless_of_tableIDPattern hid) (hs.shape.key_free hid hnew)
  refine ⟨req.object s.allocated, Std.ExtTreeMap.getElem?_insert_self,
    congrArg Stored.rows hempty, ?_⟩
  rintro kind key ⟨id, rfl⟩
  have hnone := congrFun (congrFun (congrArg Stored.child hempty) kind) id
  have hnone : (s.db.children kind)[childName kind (req.parent, req.tableId) id]? = none := by
    simpa [Database.stored, Stored.empty] using hnone
  cases kind <;> exact hnone

theorem event_eq_delete {call : TableCall} {result : Except Status Unit}
    (h : call.event result = .delete name) :
    ∃ reading d fault, call = .deleteTable name reading d fault ∧ result = .ok () := by
  cases call with
  | deleteTable name' reading d fault =>
    cases result with
    | ok u =>
      cases h
      exact ⟨reading, d, fault, rfl, rfl⟩
    | error st => cases h
  | undeleteTable name' now fault => cases result <;> cases h
  | _ => cases h

theorem run_keeps {P : SoftDelete.State Bytes Contents Int → Prop} (hs : s.Owned parent)
    (h : P s.abstract)
    (hstep : ∀ {σ σ' e}, SoftDelete.Step σ e σ' → e ≠ .delete name → P σ → P σ')
    (hsteps : Transition.Meets Server.next (fun s call => LifecycleStep parent s call ∧
      call.event (s.perform call).1 ≠ .delete name) s calls)
    (hrun : Transition.run Server.next s calls = some s') :
    P s'.abstract := by
  have hinv := invariant_of_meets
    (fun s : Server => s.Owned parent ∧ P s.abstract) ?_ ⟨hs, h⟩ hsteps hrun
  · exact hinv.2
  · rintro s call s' ⟨hs, h⟩ ⟨hcall, hevent⟩ ⟨⟩
    obtain ⟨hs', hnext⟩ := perform_simulates hs hcall
    exact ⟨hs', hstep hnext hevent h⟩

/-- For every history of calls on the tables of an instance, in which transactions
succeed and the deletions of a table happen in different microseconds, in their order:
a new table is empty, and an undeletion gives back the table as it was when it was last
deleted. -/
theorem lifecycle_isolated {strictAdmin : Bool} {instances : List Bytes} {calls : List TableCall}
    (hsteps : Transition.Meets Server.next (LifecycleStep parent)
      (newServerState strictAdmin instances) calls)
    (hrun : Transition.run Server.next (newServerState strictAdmin instances) calls = some s) :
    (∀ protoSize req s', req.parent = parent →
      s.createTable protoSize req = (.ok (), s') →
      ∃ t, s'.tables[tableName req.parent req.tableId]? = some t ∧
        s'.db.rows t.rows = ∅ ∧
        ∀ (kind : ChildKind) (key : Bytes),
          tableName req.parent req.tableId ++ kind.segment <+: key →
          (s'.db.children kind)[key]? = none) ∧
    (∀ name now s', s.undeleteTable name now none = (.ok (), s') →
      ∃ before reading d after s₀ s₁,
        calls = before ++ .deleteTable name reading d none :: after ∧
        Transition.run Server.next (newServerState strictAdmin instances) before = some s₀ ∧
        s₀.deleteTable name reading d none = (.ok (), s₁) ∧
        Transition.run Server.next s₁ after = some s ∧
        Transition.Meets Server.next (fun s call =>
          call.event (s.perform call).1 ≠ .delete name) s₁ after ∧
        ∃ t t', SameTable s₀ s' name t t') := by
  have hinit := owned_newServerState strictAdmin instances parent
  have hs := run_owned hinit hsteps hrun
  refine ⟨fun protoSize req s' hparent h => created_empty hs hparent h,
    fun name now s' hundelete => ?_⟩
  have hcall : LifecycleStep parent s (.undeleteTable name now none) := rfl
  obtain ⟨hs', hstep⟩ := perform_simulates hs hcall
  rw [Server.perform, hundelete] at hs' hstep
  have hlast := meets_not_or_last
    (fun s call => TableCall.event call (Server.perform s call).1 = .delete name) hrun
  rcases hlast with hnone |
    ⟨before, call, after, s₀, s₁, hcalls, hbefore, hdelete, hnext, hafter, hnone⟩
  · -- without a deletion of the name there is no tombstone
    have hdead := run_keeps (P := fun σ => ∀ d, σ.dead name d = none) hinit
      (fun d => by simp [abstract_dead, newServerState])
      (fun h hevent hnone => h.dead_none hnone hevent) (hsteps.and hnone) hrun
    obtain ⟨d, hsome⟩ := hstep.exists_dead
    exact absurd (hdead d) hsome
  obtain ⟨reading, d, fault, rfl, hresult⟩ := event_eq_delete hdelete
  rw [hcalls] at hsteps
  obtain ⟨hsteps₀, hsteps₁⟩ := hsteps.of_append hbefore
  have hs₀ := run_owned hinit hsteps₀ hbefore
  have hdeletion := hsteps₁.1
  have hfault : fault = none := hdeletion.1
  subst hfault
  cases hnext
  obtain ⟨hs₁, hdeleted⟩ := perform_simulates hs₀ hdeletion
  rw [hresult] at hdeleted
  obtain ⟨d', v, hlive, hlast⟩ := SoftDelete.lastDeleted_of_delete hdeleted
  have hlast := run_keeps (P := (SoftDelete.LastDeleted · name d' v)) hs₁ hlast
    (fun h hevent hlast => hlast.step h hevent) ((hsteps₁.2 _ rfl).and hnone) hafter
  refine ⟨before, reading, d, after, s₀, _, hcalls, hbefore, ?_, hafter, hnone,
    sameTable_of_abstract hs₀ hs' hlive (hlast.undelete hstep)⟩
  exact Prod.ext hresult rfl

/-- Deletion times that differ within one microsecond are not enough.  A table with a
view is deleted, the next one has none and is deleted one nanosecond later: undeleted,
it has the view of the first. -/
theorem sameMicrosecond_merges :
    ∃ s₀ s₁ s',
      Transition.run Server.next (newServerState false [])
        [.createTable (fun _ => 0) (emptyTableRequest (utf8 "i") (utf8 "t")),
          .createAuthorizedView none ⟨utf8 "i/tables/t", utf8 "v", false, []⟩,
          .deleteTable (utf8 "i/tables/t") none 1000 none,
          .createTable (fun _ => 0) (emptyTableRequest (utf8 "i") (utf8 "t"))] = some s₀ ∧
      s₀.deleteTable (utf8 "i/tables/t") none 1001 none = (.ok (), s₁) ∧
      s₁.undeleteTable (utf8 "i/tables/t") 2000 none = (.ok (), s') ∧
      (listPrefix s₀.db.authorizedViews (utf8 "i/tables/t/authorizedViews/")).map Child.name = [] ∧
      (listPrefix s'.db.authorizedViews (utf8 "i/tables/t/authorizedViews/")).map
        Child.name = [utf8 "i/tables/t/authorizedViews/v"] :=
  ⟨_, _, _, rfl, rfl, rfl, by decide +kernel, by decide +kernel⟩

/-- A table is created, deleted and undeleted. -/
theorem lifecycle_isolated_one_table :
    ∃ s₀ s' t t',
      tombstoneServer.undeleteTable (utf8 "i/tables/t") 2000 none = (.ok (), s') ∧
      SameTable s₀ s' (utf8 "i/tables/t") t t' := by
  have hrun : run Server.next (newServerState false [])
      [.createTable (fun _ => 0) (emptyTableRequest (utf8 "i") (utf8 "t")),
        .deleteTable (utf8 "i/tables/t") none 1000 none] = some tombstoneServer := rfl
  have hsteps : Transition.Meets Server.next (LifecycleStep (utf8 "i"))
      (newServerState false [])
      [.createTable (fun _ => 0) (emptyTableRequest (utf8 "i") (utf8 "t")),
        .deleteTable (utf8 "i/tables/t") none 1000 none] := by
    refine ⟨rfl, ?_⟩
    rintro s₁ ⟨⟩
    refine ⟨⟨rfl, fun _ key t ht => ?_⟩, fun _ _ => trivial⟩
    have hnone : (∅ : GoMap TableObject)[key]? = some t := ht
    simp at hnone
  have hundelete : ∃ s',
      tombstoneServer.undeleteTable (utf8 "i/tables/t") 2000 none = (.ok (), s') := ⟨_, rfl⟩
  obtain ⟨s', hundelete⟩ := hundelete
  obtain ⟨_, _, _, _, s₀, _, _, _, _, _, _, t, t', hsame⟩ :=
    (lifecycle_isolated hsteps hrun).2 _ _ s' hundelete
  exact ⟨s₀, s', t, t', hundelete, hsame⟩

end Isolation

end Bttest
end LittleBigtable
