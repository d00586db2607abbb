import LittleBigtable.Bttest.ReadResult
import LittleBigtable.Bttest.Replay

/-!
# What changes of the families and range drops do

`ModifyColumnFamilies` answers an error and changes nothing, or it has applied all its
modifications in their order and removed the data of the dropped families.  `DropRowRange`
removes the rows of its range and records each of them.
-/

namespace LittleBigtable
namespace Bttest

open List FiniteMap

section Families

/-- The garbage-collection rule and the value type of each family. -/
abbrev FamilySettings := Bytes → Option (Option GcRule × Option ValueType)

def settings (fams : Families) : FamilySettings :=
  fun id => fams[id]?.map (fun cf => (cf.gcRule, cf.valueType))

/-- What a modification asks for.  An update changes the rule, if its mask names it. -/
def Modification.effect (set : FamilySettings) (mod : Modification) : FamilySettings :=
  match mod.kind with
  | .create gcRule valueType => Function.update set mod.id (some (gcRule, valueType))
  | .update gcRule _ updateMask =>
    if updateMask = [] ∨ "gc_rule" ∈ updateMask then
      Function.update set mod.id ((set mod.id).map (fun old => (gcRule, old.2)))
    else
      set
  | .drop _ => Function.update set mod.id none
  | .unset => set

/-- The families that the modifications drop. -/
def droppedIDs (mods : List Modification) : List Bytes :=
  mods.filterMap (fun mod => match mod.kind with
    | .drop true => some mod.id
    | _ => none)

/-- The order numbers are below the counter and pairwise distinct. -/
structure Numbered (fams : Families) (counter : Nat) : Prop where
  below : ∀ {id : Bytes} {cf : ColumnFamily}, fams[id]? = some cf → cf.order < counter
  distinct : ∀ {id id' : Bytes} {cf cf' : ColumnFamily},
    fams[id]? = some cf → fams[id']? = some cf' → cf.order = cf'.order → id = id'

variable {fams : Families} {counter : Nat} {id : Bytes} {cf : ColumnFamily}

theorem settings_insert (fams : Families) (id : Bytes) (cf : ColumnFamily) :
    settings (fams.insert id cf) =
      Function.update (settings fams) id (some (cf.gcRule, cf.valueType)) := by
  funext id'
  unfold settings
  rw [getElem?_insert_eq, Function.update_apply, apply_ite (Option.map _)]
  exact if_congr eq_comm rfl rfl

theorem settings_erase (fams : Families) (id : Bytes) :
    settings (fams.erase id) = Function.update (settings fams) id none := by
  funext id'
  unfold settings
  rw [getElem?_erase_eq, Function.update_apply, apply_ite (Option.map _)]
  exact if_congr eq_comm rfl rfl

/-- A family gets a number that no other one has. -/
theorem Numbered.insert (h : Numbered fams counter) {counter' : Nat} (hle : counter ≤ counter')
    (hlt : cf.order < counter')
    (hfree : ∀ {id' cf'}, fams[id']? = some cf' → cf'.order = cf.order → id' = id) :
    Numbered (fams.insert id cf) counter' where
  below {id' cf'} h' := by
    rw [getElem?_insert_eq] at h'
    split_ifs at h' with hid
    · cases h'
      exact hlt
    · exact (h.below h').trans_le hle
  distinct {id₁ id₂ cf₁ cf₂} h₁ h₂ heq := by
    rw [getElem?_insert_eq] at h₁ h₂
    split_ifs at h₁ h₂ with hid₁ hid₂ hid₂
    · exact hid₁.symm.trans hid₂
    · cases h₁
      exact hid₁.symm.trans (hfree h₂ heq.symm).symm
    · cases h₂
      exact (hfree h₁ heq).trans hid₂
    · exact h.distinct h₁ h₂ heq

theorem Numbered.erase (h : Numbered fams counter) (id : Bytes) :
    Numbered (fams.erase id) counter := by
  have hold := forall_erase (k := id) (P := fun id' cf => fams[id']? = some cf)
    (fun _ _ h' => h')
  exact ⟨fun h' => h.below (hold _ _ h'), fun h₁ h₂ => h.distinct (hold _ _ h₁) (hold _ _ h₂)⟩

theorem numberFamilies_numbered (c : Nat) (l : List (Bytes × Option GcRule × Option ValueType)) :
    Numbered (numberFamilies c l).1 (numberFamilies c l).2 ∧ c ≤ (numberFamilies c l).2 ∧
      ∀ (id : Bytes) (cf : ColumnFamily), (numberFamilies c l).1[id]? = some cf → c ≤ cf.order := by
  induction l generalizing c with
  | nil => exact ⟨⟨nofun, nofun⟩, le_rfl, nofun⟩
  | cons x l ih =>
    obtain ⟨id, gcRule, valueType⟩ := x
    obtain ⟨hnum, hle, hlow⟩ := ih (c + 1)
    have hfree : ∀ {id' cf'}, (numberFamilies (c + 1) l).1[id']? = some cf' →
        cf'.order = (⟨c, gcRule, valueType⟩ : ColumnFamily).order → id' = id := fun h heq =>
      absurd (hlow _ _ h) (by rw [heq]; exact Nat.not_succ_le_self c)
    refine ⟨hnum.insert le_rfl hle hfree, (Nat.le_succ c).trans hle, ?_⟩
    exact forall_insert le_rfl fun id' cf' h => (Nat.le_succ c).trans (hlow id' cf' h)

theorem applyUpdatePaths_gcRule {gcRule : Option GcRule} {valueType : Option ValueType}
    {paths : List String} {cur cur' : ColumnFamily}
    (h : applyUpdatePaths id gcRule valueType paths cur = .ok cur') :
    cur'.gcRule = if "gc_rule" ∈ paths then gcRule else cur.gcRule := by
  induction paths generalizing cur with
  | nil =>
    cases h
    rfl
  | cons path paths ih =>
    unfold applyUpdatePaths at h
    split_ifs at h with hrule
    · rw [ih h]
      simp [hrule]
    · rw [ih h]
      simp [Ne.symm hrule]

/-- What the draft is after the modifications `done`. -/
structure Applied (fams : Families) (done : List Modification) (s : SchemaDraft) : Prop where
  families : settings s.next = done.foldl Modification.effect (settings fams)
  dropped : s.dropped = droppedIDs done
  numbered : Numbered s.next s.counter

theorem Applied.modified {done : List Modification} {mod : Modification} {s s' : SchemaDraft}
    (hmod : Modified mod s s') (h : Applied fams done s) :
    Applied fams (done ++ [mod]) s' := by
  have hset : ∀ {next}, settings next = mod.effect (settings s.next) →
      settings next = (done ++ [mod]).foldl Modification.effect (settings fams) := by
    intro next hnext
    rw [foldl_append, ← h.families]
    exact hnext
  have hdropped : ∀ ids, droppedIDs [mod] = ids → s.dropped ++ ids = droppedIDs (done ++ [mod]) := by
    rintro _ rfl
    rw [h.dropped]
    exact filterMap_append.symm
  cases hmod with
  | create gcRule valueType hkind hnew =>
    refine ⟨hset ?_, ?_, h.numbered.insert (Nat.le_succ _) (Nat.lt_succ_self _) (fun h' heq => ?_)⟩
    · simp only [settings_insert, Modification.effect, hkind]
    · simpa using hdropped [] (by simp [droppedIDs, hkind])
    · exact absurd (h.numbered.below h') (by rw [heq]; exact lt_irrefl _)
  | update gcRule valueType updateMask paths cur cur' hkind hpaths hcur happly =>
    obtain ⟨horder, htype⟩ := applyUpdatePaths_keeps happly
    refine ⟨hset ?_, ?_, h.numbered.insert le_rfl (horder ▸ h.numbered.below hcur)
      (fun h' heq => h.numbered.distinct h' hcur (heq.trans horder))⟩
    · have hold : settings s.next mod.id = some (cur.gcRule, cur.valueType) := by
        simp [settings, hcur]
      simp only [settings_insert, Modification.effect, hkind, ← hpaths, hold, htype,
        applyUpdatePaths_gcRule happly]
      split_ifs
      · rfl
      · rw [← hold, Function.update_eq_self]
    · simpa using hdropped [] (by simp [droppedIDs, hkind])
  | drop hkind =>
    refine ⟨hset ?_, hdropped _ (by simp [droppedIDs, hkind]), h.numbered.erase mod.id⟩
    simp only [settings_erase, Modification.effect, hkind]

theorem storedRow_column_of_survives {rows rows' : SqlRows} {families : List Bytes} {key : Bytes}
    (h : rows'[key]? = rows[key]?.bind (survivingRow families)) (fam col : Bytes) :
    (storedRow rows' key).column fam col =
      if fam ∈ families then [] else (storedRow rows key).column fam col := by
  unfold storedRow
  rw [h]
  cases rows[key]? with
  | none => simp [newRow_column]
  | some r =>
    have hcol := dropFamilies_column r families fam col
    simp only [Option.bind_some, survivingRow, Option.getD_some]
    split_ifs with hempty hfam hfam
    · exact newRow_column key fam col
    · rw [if_neg hfam, (isEmpty_iff _).mp hempty] at hcol
      rw [← hcol]
      exact newRow_column key fam col
    · rw [if_pos hfam] at hcol
      exact hcol
    · rw [if_neg hfam] at hcol
      exact hcol

theorem call_numbered (s : TableState) (c : Call) (s' : TableState)
    (hs : RowsWellFormed s.tbl s.db.rows ∧ Numbered s.tbl.families s.tbl.counter)
    (h : s.call c = some s') :
    RowsWellFormed s'.tbl s'.db.rows ∧ Numbered s'.tbl.families s'.tbl.counter := by
  refine ⟨call_rowsWellFormed s c s' hs.1 h, ?_⟩
  cases c with
  | modifyColumnFamilies protoSize txFailure mods =>
    simp only [TableState.call] at h
    split at h
    · rename_i hcall
      cases h
      obtain ⟨draft, hmods, rfl, _⟩ := modifyColumnFamilies_eq_ok hs.1 hcall
      exact (applyModifications_induction (P := Applied s.tbl.families) Applied.modified
        (l := []) ⟨rfl, rfl, hs.2⟩ hmods).numbered
    · cases h
  | mutateRow | mutateRows | checkAndMutateRow | readModifyWriteRow | dropRowRange =>
    obtain ⟨_, _, _, rfl⟩ := afterSuccess_eq_some h
    exact hs.2

/-- On every table that was created by `CreateTable` and changed by any sequence of successful
calls, `ModifyColumnFamilies` answers an error and leaves schema and rows as they are, or has
done everything that its modifications ask for, in their order, and nothing else. -/
theorem modifyColumnFamilies_allOrNothing
    (columnFamilies : GoMap (Option GcRule × Option ValueType)) (g : Granularity)
    (changeStreamEnabled : Bool) (rowKeySchema : Option (List RowKeyField))
    (tokens : GoMap (GoMap Int)) (changeLog : List ChangeRecord) (calls : List Call)
    (s : TableState)
    (hrun : Transition.run TableState.call
      ⟨newTable columnFamilies g changeStreamEnabled rowKeySchema,
        ⟨∅, tokens, changeLog⟩⟩ calls = some s)
    (protoSize : GcRule → Nat) (txFailure : Option Status) (mods : List Modification) :
    (∃ st, modifyColumnFamilies protoSize txFailure mods s.tbl s.db = (.error st, s.tbl, s.db)) ∨
    ∃ tbl' db', modifyColumnFamilies protoSize txFailure mods s.tbl s.db = (.ok (), tbl', db') ∧
      settings tbl'.families = mods.foldl Modification.effect (settings s.tbl.families) ∧
      Numbered tbl'.families tbl'.counter ∧
      ∀ key fam col, (storedRow db'.rows key).column fam col =
        if fam ∈ droppedIDs mods then [] else (storedRow s.db.rows key).column fam col := by
  obtain ⟨hrows, hnum⟩ := Transition.invariant
    (fun s => RowsWellFormed s.tbl s.db.rows ∧ Numbered s.tbl.families s.tbl.counter)
    call_numbered ⟨fun key r hr => by simp at hr, (numberFamilies_numbered 0 _).1⟩ hrun
  rcases hcall : modifyColumnFamilies protoSize txFailure mods s.tbl s.db with ⟨st | _, tbl', db'⟩
  · left
    unfold modifyColumnFamilies at hcall
    refine ⟨st, ?_⟩
    split_ifs at hcall
    · cases hcall
      rfl
    · repeat' split at hcall
      all_goals cases hcall
      all_goals rfl
  · right
    obtain ⟨draft, hmods, rfl, hsurvive⟩ := modifyColumnFamilies_eq_ok hrows hcall
    have happlied : Applied s.tbl.families mods draft :=
      applyModifications_induction (P := Applied s.tbl.families) Applied.modified
        (l := []) ⟨rfl, rfl, hnum⟩ hmods
    refine ⟨_, db', rfl, happlied.families, happlied.numbered, fun key fam col => ?_⟩
    rw [storedRow_column_of_survives (hsurvive key), happlied.dropped]

/-- A family is dropped and created again in one request. -/
theorem modifyColumnFamilies_allOrNothing_recreated :
    (∃ st, modifyColumnFamilies (fun _ => 0) none
        [⟨[102], .drop true⟩, ⟨[102], .create none none⟩] (tableWithFamily none ⟨false⟩ false)
        ⟨∅, ∅, []⟩ = (.error st, tableWithFamily none ⟨false⟩ false, ⟨∅, ∅, []⟩)) ∨
    ∃ tbl' db', modifyColumnFamilies (fun _ => 0) none
        [⟨[102], .drop true⟩, ⟨[102], .create none none⟩] (tableWithFamily none ⟨false⟩ false)
        ⟨∅, ∅, []⟩ = (.ok (), tbl', db') ∧ Numbered tbl'.families tbl'.counter :=
  (modifyColumnFamilies_allOrNothing _ _ _ _ _ _ [] ⟨tableWithFamily none ⟨false⟩ false, ∅, ∅, []⟩
    rfl _ _ _).imp id (fun ⟨tbl', db', hcall, _, hnum, _⟩ => ⟨tbl', db', hcall, hnum⟩)

end Families

section Ranges

/-- The rows that the request names. -/
def DropTarget.Hits : DropTarget → Bytes → Prop
  | .rowKeyPrefix pre, key => pre <+: key
  | .deleteAllDataFromTable _, _ => True
  | .unset, _ => False

theorem prefixStop_eq (q : Bytes) :
    prefixStop q = Lexicographic.stopBehind 0xff (· + 1) q := by
  induction q with
  | nil => rfl
  | cons c q ih =>
    have hc : c < 0xff ↔ c ≠ 0xff := by
      rw [UInt8.lt_iff_toNat_lt, ne_eq, ← UInt8.toNat_inj]
      have hlt := c.toNat_lt
      simp only [UInt8.reduceToNat]
      omega
    unfold prefixStop Lexicographic.stopBehind
    split_ifs with hlt
    · simp [hc.mp hlt]
    · rw [ih, not_not.mp (mt hc.mpr hlt)]
      simp [Lexicographic.stopBehind]

theorem contains_prefixRange_iff (p key : Bytes) :
    (prefixRange p).contains key = true ↔ p <+: key := by
  simp only [KeyRange.contains, prefixRange, prefixStop_eq, Bool.and_eq_true, Bool.or_eq_true,
    decide_eq_true_eq, reverse_eq_nil_iff]
  exact (Lexicographic.bytes_isPrefix_iff_between p key).symm

/-- Deleting the families of a row one by one. -/
theorem replay_deleteFromFamilies (fams : Families) (g : Granularity) (names : List Bytes)
    (r : Row) :
    replay fams g r (names.map (fun name => Mutation.plain (.deleteFromFamily name))) =
      .ok { r with families := names.foldl (fun fams name => fams.erase name) r.families } := by
  induction names generalizing r with
  | nil => rfl
  | cons name names ih =>
    have hfirst : replay fams g r [Mutation.plain (.deleteFromFamily name)] =
        .ok { r with families := r.families.erase name } := rfl
    exact (replay_append hfirst _).trans (ih _)

/-- The record of a removed row stands for its removal. -/
theorem replay_dropCommit (fams : Families) (g : Granularity) (r : Row) :
    replay fams g r (dropCommit r).userChanges = .ok (newRow r.key) := by
  have hnames : (dropCommit r).userChanges =
      (r.sortedFamilies.map Prod.fst).map (fun name => Mutation.plain (.deleteFromFamily name)) := by
    rw [map_map]
    rfl
  have hnone : (r.sortedFamilies.map Prod.fst).foldl (fun fams name => fams.erase name)
      r.families = ∅ := by
    refine Std.ExtTreeMap.ext_getElem? (fun fam => ?_)
    rw [foldl_map, foldl_erase_getElem?]
    split_ifs with hmem
    · simp
    · cases hf : r.families[fam]? with
      | none => simp
      | some f => exact absurd (mem_map.mpr ⟨(fam, f), mem_sortedFamilies.mpr hf, rfl⟩) hmem
  rw [hnames, replay_deleteFromFamilies, hnone]
  rfl

/-- The range of a prefix holds the keys with the prefix.  A successful `DropRowRange` leaves
the rows that the request does not name, and if the change stream is enabled it appends one
record for each row that it names, in the order of the keys; replayed on the row, the record
yields the empty row. -/
theorem dropRowRange_exact (tbl : Table) (db : Store)
    (hkeys : ∀ (key : Bytes) (r : Row), db.rows[key]? = some r → r.key = key) :
    (∀ p key : Bytes, (prefixRange p).contains key = true ↔ p <+: key) ∧
    ∀ tx target db', dropRowRange tbl tx target db = (.ok (), db') →
      (∀ key : Bytes, (target.Hits key → db'.rows[key]? = none) ∧
        (¬ target.Hits key → db'.rows[key]? = db.rows[key]?)) ∧
      ∃ removed : List Row,
        (∀ r, r ∈ removed ↔ db.rows[r.key]? = some r ∧ target.Hits r.key) ∧
        removed.Pairwise (fun a b => a.key < b.key) ∧
        db'.changeLog = db.changeLog ++
          (if tbl.changeStreamEnabled then removed.map (dropRecord tx) else []) ∧
        ∀ r ∈ removed, (dropRecord tx r).rowKey = r.key ∧ (dropRecord tx r).changeType = .user ∧
          replay tbl.families tbl.granularity r (dropRecord tx r).mutations =
            .ok (newRow r.key) := by
  refine ⟨contains_prefixRange_iff, fun tx target db' h => ?_⟩
  obtain ⟨rows, hrows, rfl⟩ := dropRowRange_eq_ok h
  have hhits : ∀ key, target.range.contains key = true ↔ target.Hits key := by
    intro key
    rcases hrows with ⟨rfl, _⟩ | ⟨⟨pre, rfl, _⟩, _⟩
    · simp [DropTarget.range, DropTarget.Hits, KeyRange.contains]
    · exact contains_prefixRange_iff pre key
  have hmem := fun r => (mem_scan hkeys false r).trans
    (and_congr_right' (hhits r.key))
  have hleft : ∀ key : Bytes, (target.Hits key → rows[key]? = none) ∧
      (¬ target.Hits key → rows[key]? = db.rows[key]?) := by
    intro key
    rcases hrows with ⟨rfl, rfl⟩ | ⟨_, rfl⟩
    · exact ⟨fun _ => by simp, fun hnot => absurd trivial hnot⟩
    rw [foldl_erase_getElem?]
    split_ifs with hin
    · obtain ⟨r, hr, rfl⟩ := mem_map.mp hin
      exact ⟨fun _ => rfl, fun hnot => absurd ((hmem r).mp hr).2 hnot⟩
    refine ⟨fun hit => ?_, fun _ => rfl⟩
    by_contra hsome
    obtain ⟨r, hr⟩ := Option.ne_none_iff_exists'.mp hsome
    obtain rfl := hkeys key r hr
    exact hin (mem_map.mpr ⟨r, (hmem r).mpr ⟨hr, hit⟩, rfl⟩)
  refine ⟨?_, _, hmem, scan_pairwise hkeys false, ?_,
    fun r _ => ⟨rfl, rfl, replay_dropCommit _ _ r⟩⟩
  · split_ifs
    · exact hleft
    · exact hleft
  · split_ifs
    · rfl
    · exact (append_nil _).symm

/-- Of two rows, the one without the prefix stays. -/
theorem dropRowRange_exact_two_rows :
    ∃ db', dropRowRange (tableWithFamily none ⟨false⟩ true) ⟨7, fun _ => 7, none⟩
        (.rowKeyPrefix [0xff])
        ⟨((∅ : SqlRows).insert [1] (newRow [1])).insert [0xff, 1] (newRow [0xff, 1]), ∅, []⟩ =
        (.ok (), db') ∧
      db'.rows[([0xff, 1] : Bytes)]? = none ∧ db'.rows[([1] : Bytes)]? = some (newRow [1]) := by
  have hrows := ((dropRowRange_exact (tableWithFamily none ⟨false⟩ true)
    ⟨_, ∅, []⟩ (forall_insert (k := [0xff, 1]) (v := newRow [0xff, 1]) rfl
      (forall_insert (m := (∅ : SqlRows)) (k := [1]) (v := newRow [1]) rfl nofun))).2
    ⟨7, fun _ => 7, none⟩ (.rowKeyPrefix [0xff]) _ rfl).1
  refine ⟨_, rfl, (hrows _).1 (show [0xff] <+: [0xff, 1] by decide),
    ((hrows _).2 (show ¬ [0xff] <+: [1] by decide)).trans ?_⟩
  refine (getElem?_insert_eq _ _ _ _).trans ?_
  rw [if_neg (by decide), Std.ExtTreeMap.getElem?_insert_self]

end Ranges

end Bttest
end LittleBigtable
