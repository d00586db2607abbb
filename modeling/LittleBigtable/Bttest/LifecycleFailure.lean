import LittleBigtable.Bttest.TableStorage

/-!
# Failed deletions and undeletions

A storage transaction can fail at its start, at any of its statements or at the
commit.  The database then stays as it was.  In memory, a deletion puts back every
field that it changed.  An undeletion puts back the delete time and the protection
flag only: when it fails after `Rename` has changed the table object, the tombstone
keeps the storage ID and the row handle of a live table.

As long as no undeletion fails so late, the tables in memory are the persisted ones,
and a failed call changes nothing.
-/

namespace LittleBigtable
namespace Bttest

open Transaction

section Consistency

variable {s s' : Server}

/-- Tables and tombstones have their shape, and they are the persisted ones. -/
structure Server.Consistent (s : Server) : Prop where
  shape : s.WellShaped
  persisted : s.MatchesPersisted

theorem consistent_newServerState (strictAdmin : Bool) (instances : List Bytes) :
    (newServerState strictAdmin instances).Consistent := by
  refine ⟨⟨fun name t ht => ?_, fun key t ht => ?_⟩, fun k r => ?_⟩
  · simp [newServerState] at ht
  · simp [newServerState] at ht
  constructor
  · rintro ⟨⟩
  · rintro ⟨t, ht, _⟩
    rcases ht with ⟨name, ht⟩ | ⟨key, ht⟩
    · simp [newServerState] at ht
    · simp [newServerState] at ht

/-- The record of a table that changes is deleted under the old key and put under the
new one. -/
theorem matchesPersisted_of_replaced (h : s.MatchesPersisted) {t : TableObject} {k : StorageKey}
    (hreplaced : s.Replaced s' t k)
    (hdb : s'.db.tables =
      Function.update (Function.update s.db.tables k none) t.storageKey (some t.encodeMetadata)) :
    s'.MatchesPersisted := by
  have hobjects : s'.objects =
      insert t {t' ∈ {t' ∈ s.objects | t'.storageKey ≠ k} |
        t'.storageKey ≠ t.storageKey} := by
    ext t'
    rw [hreplaced t']
    simp only [Set.mem_insert_iff, Set.mem_ofPred_eq, and_assoc]
  unfold Server.MatchesPersisted
  rw [hobjects, hdb]
  exact (Catalog.Represents.remove h k).put t

theorem matchesPersisted_of_purged {now : Int} (hs : s.Consistent) (hpurged : Purged now s s') :
    s'.MatchesPersisted := by
  intro k r
  by_cases hk : ∃ (key : Bytes) (t : TableObject), s.deletedTables[key]? = some t ∧
      t.Expired now ∧ t.storageKey = k
  · obtain ⟨key, t, ht, hexp, rfl⟩ := hk
    have hrecord := hpurged.record_purged key t ht hexp
    constructor
    · intro hr
      rw [TableObject.storageKey, hrecord] at hr
      cases hr
    rintro ⟨t', ht', hkey, _⟩
    obtain ⟨hmem, hkept⟩ := (hpurged.objects hs.shape t').mp ht'
    have heq := hs.shape.eq_of_storageKey hmem (.inr ⟨key, ht⟩) hkey
    subst heq
    exact absurd hexp (hkept key ht)
  · rw [hpurged.record_kept k (fun key t ht hexp heq =>
      hk ⟨key, t, ht, hexp, heq⟩), hs.persisted k r]
    constructor
    · rintro ⟨t, ht, rfl, rfl⟩
      refine ⟨t, (hpurged.objects hs.shape t).mpr ⟨ht, fun key hkey hexp => ?_⟩, rfl, rfl⟩
      exact hk ⟨key, t, hkey, hexp, rfl⟩
    · rintro ⟨t, ht, hkey, hencode⟩
      exact ⟨t, ((hpurged.objects hs.shape t).mp ht).1, hkey, hencode⟩

theorem CallEffect.matchesPersisted {call : TableCall} {result : Except Status Unit}
    (h : CallEffect s call result s') (hs : s.Consistent) (hearly : s.FailsEarly call) :
    s'.MatchesPersisted := by
  have hs' := h.wellShaped hs.shape hearly
  cases h with
  | unchanged => exact hs.persisted
  | created protoSize req hid hnew =>
    refine matchesPersisted_of_replaced hs.persisted
      (replaced_of_insert hs' (fun t' ht' => absurd ht' (by simp [hnew])) rfl rfl) ?_
    exact (Function.update_idem ..).symm
  | childCreated call kind parent id t c hevent ht hid hname =>
    unfold Server.MatchesPersisted
    rw [putChild_tables]
    exact hs.persisted
  | changed call name t schema protection db' hevent ht hframe =>
    -- a call that does not save the metadata has not changed it
    have hdb : db'.tables = Function.update s.db.tables t.storageKey
        (some (t.withSchema schema protection).encodeMetadata) := by
      rcases hframe.record with hput | ⟨hsame, hencode⟩
      · exact hput
      · rw [hsame, hencode, ← hs.persisted.record (.inl ⟨name, ht⟩), Function.update_eq_self]
    refine matchesPersisted_of_replaced hs.persisted (replaced_of_insert hs' (fun t' ht' => ?_) rfl rfl) ?_
    · rw [ht] at ht'
      cases ht'
      rfl
    · exact hdb.trans (Function.update_idem ..).symm
  | deleted name reading d fault t db₁ ht hmove =>
    refine matchesPersisted_of_replaced hs.persisted (replaced_deleted hs.shape hs' ht rfl rfl) ?_
    rw [moveRows_eq hmove]
    rfl
  | undeleted name now fault key t db₁ hnew ht hmove =>
    refine matchesPersisted_of_replaced hs.persisted (replaced_undeleted hs.shape hs' hnew ht rfl rfl) ?_
    rw [moveRows_eq hmove]
    rfl
  | undeleteFailed name now fault st key t hlate _ => exact absurd hlate (hearly name now fault rfl)
  | purged now s' hpurged => exact matchesPersisted_of_purged hs hpurged

theorem perform_consistent (hs : s.Consistent) {call : TableCall} (hearly : s.FailsEarly call) :
    (s.perform call).2.Consistent := by
  have heffect := perform_effect hs.shape.tables_live call
  exact ⟨heffect.wellShaped hs.shape hearly, heffect.matchesPersisted hs hearly⟩

theorem run_consistent {strictAdmin : Bool} {instances : List Bytes} {calls : List TableCall}
    (hearly : Transition.Meets Server.next Server.FailsEarly
      (newServerState strictAdmin instances) calls)
    (hrun : Transition.run Server.next (newServerState strictAdmin instances) calls = some s) :
    s.Consistent := by
  refine Transition.invariant_of_meets Server.Consistent ?_
    (consistent_newServerState strictAdmin instances) hearly hrun
  rintro s call s' hs hcall ⟨⟩
  exact perform_consistent hs hcall

end Consistency

section Failures

/-- In a consistent server, a failed call leaves the live and the deleted tables as
they were, and they are still the persisted ones, unless the transaction of an
undeletion fails after the tombstone was renamed in memory. -/
theorem failedCall_unchanged_iff {s s' : Server} (hs : s.Consistent) {call : TableCall}
    {st : Status} (h : s.perform call = (.error st, s')) :
    (s'.tables = s.tables ∧ s'.deletedTables = s.deletedTables ∧ s'.MatchesPersisted) ↔
      s.FailsEarly call := by
  constructor
  · rintro ⟨_, hdeleted, _⟩ name now fault rfl hlate
    obtain ⟨st', key, t, ht, hcall⟩ := undeleteTable_of_failsAfterRename hlate
    obtain ⟨hkey, _, _⟩ := latestTombstone_eq_some ht
    obtain ⟨_, d, hdead⟩ := hs.shape.dead key t hkey
    rw [Server.perform, hcall] at h
    cases h
    -- the tombstone has the storage ID of a live table
    have hrenamed : s.deletedTables[key]? = some t.renamed := by
      rw [← hdeleted]
      exact Std.ExtTreeMap.getElem?_insert_self
    rw [hkey] at hrenamed
    have hstorage := congrArg TableObject.storageId (Option.some.inj hrenamed)
    rw [hdead.storageId] at hstorage
    exact tombstoneID_ne hdead.tableId _ hstorage
  · intro hearly
    have heffect := perform_effect hs.shape.tables_live call
    have hmatches := heffect.matchesPersisted hs hearly
    rw [h] at heffect hmatches
    cases heffect with
    | unchanged => exact ⟨rfl, rfl, hmatches⟩
    | undeleteFailed name now fault st key t hlate _ =>
      exact absurd hlate (hearly name now fault rfl)

/-- The commit of an undeletion fails.  The tombstone has then the storage ID and the
row handle of a live table, for which there is no persisted table. -/
theorem undeleteTable_commit_fails :
    ∃ st s',
      tombstoneServer.undeleteTable (utf8 "i/tables/t") 2000
        (some ⟨.commit, "disk I/O error"⟩) = (.error st, s') ∧
      tombstoneServer.deletedTables.toList.map (fun kv => (kv.2.storageId, kv.2.rows)) =
        [(utf8 "t@deleted@1", (utf8 "i", utf8 "t@deleted@1"))] ∧
      s'.deletedTables.toList.map (fun kv => (kv.2.storageId, kv.2.rows)) =
        [(utf8 "t", (utf8 "i", utf8 "t"))] ∧
      (s'.db.tables (utf8 "i", utf8 "t")).isNone = true :=
  ⟨_, _, rfl, by decide +kernel, by decide +kernel, by decide +kernel⟩

theorem tombstoneServer_consistent :
    tombstoneServer.Consistent := by
  have hrun : Transition.run Server.next (newServerState false [])
      [.createTable (fun _ => 0) (emptyTableRequest (utf8 "i") (utf8 "t")),
        .deleteTable (utf8 "i/tables/t") none 1000 none] = some tombstoneServer := rfl
  refine run_consistent ?_ hrun
  refine ⟨?_, ?_⟩
  · rintro name now fault ⟨⟩
  rintro s' _
  refine ⟨?_, ?_⟩
  · rintro name now fault ⟨⟩
  · exact fun _ _ => trivial

/-- An undeletion whose first statement of `Rename` fails changes nothing. -/
theorem failedCall_unchanged_iff_renameRows :
    ∃ st s',
      tombstoneServer.perform (.undeleteTable (utf8 "i/tables/t") 2000
        (some ⟨.renameRows, "disk I/O error"⟩)) = (.error st, s') ∧
      s'.tables = tombstoneServer.tables ∧
      s'.deletedTables = tombstoneServer.deletedTables ∧
      s'.MatchesPersisted := by
  have hfailed : ∃ st s',
      tombstoneServer.perform (.undeleteTable (utf8 "i/tables/t") 2000
        (some ⟨.renameRows, "disk I/O error"⟩)) = (.error st, s') := ⟨_, _, rfl⟩
  obtain ⟨st, s', hfailed⟩ := hfailed
  refine ⟨st, s', hfailed, ?_⟩
  refine (failedCall_unchanged_iff tombstoneServer_consistent hfailed).mpr ?_
  rintro name now fault ⟨⟩ ⟨_, key, t, db₁, f, _, _, _, ⟨⟩, hpoint⟩
  rcases hpoint with hpoint | hpoint
  · cases hpoint
  · cases hpoint

end Failures

end Bttest
end LittleBigtable
