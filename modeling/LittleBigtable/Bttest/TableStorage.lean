import LittleBigtable.Bttest.TableCalls

/-!
# What is stored for a table

The rows of a table, and its authorized views and schema bundles, are found by the
parent and the storage ID of the table.  For the tables of one instance these places
are disjoint: the name of a child determines the storage ID of its table.

Every row and every child belongs to a live table or to a tombstone.  So what is
stored for a new storage ID is empty, and a deletion or undeletion moves everything
to an empty place.
-/

namespace LittleBigtable
namespace Bttest

open Transaction List FiniteMap Std

section Names

theorem ChildKind.segment_cons (kind : ChildKind) :
    ∃ rest, kind.segment = 47 :: rest := by
  cases kind with
  | view => exact ⟨utf8 "authorizedViews/", rfl⟩
  | bundle => exact ⟨utf8 "schemaBundles/", rfl⟩

/-- The name of a view or bundle of a table. -/
def childName (kind : ChildKind) (k : StorageKey) (id : Bytes) : Bytes :=
  tableName k.1 k.2 ++ kind.segment ++ id

variable {parent a b : Bytes}

theorem storageId_of_childName (ha : Slashless a) (hb : Slashless b) {kind : ChildKind} {id : Bytes}
    (h : tableName parent a ++ kind.segment <+: childName kind (parent, b) id) :
    a = b := by
  obtain ⟨rest, hrest⟩ := kind.segment_cons
  unfold childName tableName at h
  rw [hrest] at h
  simp only [append_assoc, prefix_append_right_inj, cons_append] at h
  exact (Segments.cut_prefix ha hb h).1

theorem childName_starts (kind : ChildKind) (parent a id : Bytes) :
    tableName parent a ++ kind.segment <+: childName kind (parent, a) id :=
  List.prefix_append _ _

theorem childName_injective (ha : Slashless a) (hb : Slashless b) {kind : ChildKind}
    {id id' : Bytes} (h : childName kind (parent, a) id = childName kind (parent, b) id') :
    a = b ∧ id = id' := by
  have hstarts := childName_starts kind parent a id
  rw [h] at hstarts
  have hab := storageId_of_childName ha hb hstarts
  subst hab
  exact ⟨rfl, append_cancel_left h⟩

end Names

section Moves

/-- Views and bundles are stored under their names. -/
def NamesAgree (store : GoMap Child) : Prop :=
  ∀ (key : Bytes) (c : Child), store[key]? = some c → c.name = key

variable {store : GoMap Child} {parent a b : Bytes} {kind : ChildKind}

theorem mem_listPrefix (pre : Bytes) (c : Child) :
    c ∈ listPrefix store pre ↔ ∃ key : Bytes, store[key]? = some c ∧ pre <+: key := by
  unfold listPrefix
  simp only [mem_map, mem_filter, decide_eq_true_eq, Prod.exists,
    ExtTreeMap.mem_toList_iff_getElem?_eq_some, exists_eq_right]

theorem listPrefix_pairwise (hnames : NamesAgree store) (pre : Bytes) :
    (listPrefix store pre).Pairwise (fun c c' => c.name ≠ c'.name) := by
  unfold listPrefix
  rw [pairwise_map]
  refine List.Pairwise.filter _ ?_
  refine (ExtTreeMap.distinct_keys_toList (t := store)).imp_of_mem ?_
  intro kv kv' hkv hkv' hne heq
  have hname := hnames _ _ (ExtTreeMap.mem_toList_iff_getElem?_eq_some.mp hkv)
  have hname' := hnames _ _ (ExtTreeMap.mem_toList_iff_getElem?_eq_some.mp hkv')
  rw [hname, hname'] at heq
  exact hne (Std.compare_eq_iff_eq.mpr heq)

theorem trimPrefix_append (pre rest : Bytes) :
    trimPrefix pre (pre ++ rest) = rest := by
  unfold trimPrefix
  rw [if_pos (prefix_append pre rest), drop_left]

theorem moveChildren_eq_rekey (segment src dst : Bytes) (store : GoMap Child) :
    moveChildren segment src dst store =
      (listPrefix store (src ++ segment)).foldl
        (FiniteMap.rekey Child.name (fun c => dst ++ trimPrefix src c.name)
          (fun c => { c with name := dst ++ trimPrefix src c.name })) store :=
  rfl

theorem listPrefix_childName (hnames : NamesAgree store) {c : Child}
    (hc : c ∈ listPrefix store (tableName parent a ++ kind.segment)) :
    ∃ id, c.name = childName kind (parent, a) id ∧
      store[childName kind (parent, a) id]? = some c ∧
      tableName parent b ++ trimPrefix (tableName parent a) c.name =
        childName kind (parent, b) id := by
  obtain ⟨key, hkey, id, rfl⟩ := (mem_listPrefix _ c).mp hc
  have hname := hnames _ c hkey
  refine ⟨id, hname, hkey, ?_⟩
  rw [hname, append_assoc, trimPrefix_append, ← append_assoc]
  rfl

/-- The children of the source are found at the destination under the same IDs. -/
theorem moveChildren_dst (hnames : NamesAgree store) (ha : Slashless a) (hb : Slashless b)
    (hne : a ≠ b) (id : Bytes) :
    (moveChildren kind.segment (tableName parent a) (tableName parent b) store)[
        childName kind (parent, b) id]? =
      (store[childName kind (parent, a) id]?.map (fun c =>
        { c with name := childName kind (parent, b) id })).or
        store[childName kind (parent, b) id]? := by
  have hold : ∀ c ∈ listPrefix store (tableName parent a ++ kind.segment),
      c.name ≠ childName kind (parent, b) id := by
    intro c hc heq
    obtain ⟨id', hname, _, _⟩ := listPrefix_childName (b := b) hnames hc
    rw [hname] at heq
    exact hne (childName_injective ha hb heq).1
  rw [moveChildren_eq_rekey]
  cases hc : store[childName kind (parent, a) id]? with
  | some c =>
    have hmem : c ∈ listPrefix store (tableName parent a ++ kind.segment) :=
      (mem_listPrefix _ c).mpr ⟨_, hc, prefix_append _ _⟩
    have hnew : tableName parent b ++ trimPrefix (tableName parent a) c.name =
        childName kind (parent, b) id := by
      rw [hnames _ c hc]
      unfold childName
      rw [append_assoc, trimPrefix_append, ← append_assoc]
    have hlookup := getElem?_foldl_rekey_of_mem Child.name
      (fun c => tableName parent b ++ trimPrefix (tableName parent a) c.name)
      (fun c =>
        { c with name := tableName parent b ++ trimPrefix (tableName parent a) c.name })
      (listPrefix store (tableName parent a ++ kind.segment)) store hmem ?_ (fun c' hc' => hnew ▸ hold c' hc')
    · simpa [hnew] using hlookup
    refine (listPrefix_pairwise hnames _).imp_of_mem ?_
    intro c₁ c₂ hc₁ hc₂ hnames₁₂ heq
    obtain ⟨id₁, hname₁, _, hnew₁⟩ := listPrefix_childName (b := b) hnames hc₁
    obtain ⟨id₂, hname₂, _, hnew₂⟩ := listPrefix_childName (b := b) hnames hc₂
    rw [hnew₁, hnew₂] at heq
    rw [hname₁, hname₂, (childName_injective hb hb heq).2] at hnames₁₂
    exact hnames₁₂ rfl
  | none =>
    rw [getElem?_foldl_rekey, if_neg]
    · rfl
    · rintro ⟨c, hmem, heq⟩
      exact hold c hmem heq
    intro c hmem heq
    obtain ⟨id', _, hat, hnew⟩ := listPrefix_childName (b := b) hnames hmem
    rw [hnew] at heq
    rw [(childName_injective hb hb heq).2, hc] at hat
    cases hat

/-- Elsewhere, the children of the source are gone and the others are as before. -/
theorem moveChildren_other (hnames : NamesAgree store) {key : Bytes}
    (hkey : ∀ id, key ≠ childName kind (parent, b) id) :
    (moveChildren kind.segment (tableName parent a) (tableName parent b) store)[key]? =
      if tableName parent a ++ kind.segment <+: key then none else store[key]? := by
  rw [moveChildren_eq_rekey, getElem?_foldl_rekey]
  · by_cases hpre : tableName parent a ++ kind.segment <+: key
    · rw [if_pos hpre]
      cases hc : store[key]? with
      | none => split_ifs <;> rfl
      | some c =>
        rw [if_pos]
        exact ⟨c, (mem_listPrefix _ c).mpr ⟨key, hc, hpre⟩, hnames key c hc⟩
    · rw [if_neg hpre, if_neg]
      rintro ⟨c, hmem, heq⟩
      obtain ⟨key', hkey', hpre'⟩ := (mem_listPrefix _ c).mp hmem
      rw [hnames key' c hkey'] at heq
      exact hpre (heq ▸ hpre')
  · intro c hmem heq
    obtain ⟨id, _, _, hnew⟩ := listPrefix_childName (b := b) hnames hmem
    exact hkey id (heq ▸ hnew)

end Moves

section Stored

/-- The rows under a storage key, and the views and bundles by their IDs. -/
structure Stored where
  rows : SqlRows
  child : ChildKind → Bytes → Option (Bool × Bytes)

def Stored.empty : Stored :=
  ⟨∅, fun _ _ => none⟩

def Database.stored (db : Database) (k : StorageKey) : Stored where
  rows := db.rows k
  child kind id := (db.children kind)[childName kind k id]?.map (fun c =>
    (c.deletionProtection, c.content))

theorem stored_congr {db db' : Database} {k : StorageKey} (hrows : db'.rows k = db.rows k)
    (hchildren : ∀ kind id, (db'.children kind)[childName kind k id]? =
      (db.children kind)[childName kind k id]?) :
    db'.stored k = db.stored k := by
  unfold Database.stored
  simp only [hrows, hchildren]

theorem putChild_stored (db : Database) {c : Child} {kind : ChildKind} {parent a b id : Bytes}
    (ha : Slashless a) (hb : Slashless b) (hne : a ≠ b)
    (hname : c.name = childName kind (parent, a) id) :
    (db.putChild c kind).stored (parent, b) = db.stored (parent, b) := by
  refine stored_congr (by rw [putChild_rows]) (fun kind' id' => ?_)
  rw [putChild_children]
  split_ifs with hkind
  · subst hkind
    rw [getElem?_insert_eq, if_neg]
    intro heq
    rw [hname] at heq
    exact hne (childName_injective ha hb heq).1
  · rfl

/-- Everything stored under one key is now under another one. -/
structure Moved (db db' : Database) (parent a b : Bytes) : Prop where
  dst : db'.stored (parent, b) = db.stored (parent, a)
  src : db'.stored (parent, a) = Stored.empty
  other : ∀ c, Slashless c → c ≠ a → c ≠ b → db'.stored (parent, c) = db.stored (parent, c)
  rows : ∀ k, k ≠ (parent, a) → k ≠ (parent, b) → db'.rows k = db.rows k
  names : ∀ kind, NamesAgree (db'.children kind)
  children : ∀ (kind : ChildKind) (key : Bytes) (c : Child),
    (db'.children kind)[key]? = some c →
    (∃ id, key = childName kind (parent, b) id) ∨
      ((db.children kind)[key]? = some c ∧ ¬ tableName parent a ++ kind.segment <+: key)

theorem moved_of_eq {db db' : Database} {parent a b : Bytes}
    (hnames : ∀ kind, NamesAgree (db.children kind)) (ha : Slashless a) (hb : Slashless b)
    (hne : a ≠ b) (hempty : db.stored (parent, b) = Stored.empty)
    (hrows : db'.rows = Function.update (Function.update db.rows (parent, b)
      (db.rows (parent, b) ∪ db.rows (parent, a))) (parent, a) ∅)
    (hchildren : ∀ kind, db'.children kind = moveChildren kind.segment
      (tableName parent a) (tableName parent b) (db.children kind)) :
    Moved db db' parent a b := by
  have hkeys : ((parent, a) : StorageKey) ≠ (parent, b) := fun heq => hne (Prod.mk.inj heq).2
  have hrowsEmpty : db.rows (parent, b) = ∅ := congrArg Stored.rows hempty
  have hchildEmpty : ∀ kind id, (db.children kind)[childName kind (parent, b) id]? =
      none := by
    intro kind id
    have hnone := congrFun (congrFun (congrArg Stored.child hempty) kind) id
    simpa [Database.stored, Stored.empty] using hnone
  have hother : ∀ (kind : ChildKind) (c id : Bytes), Slashless c → c ≠ b →
      (db'.children kind)[childName kind (parent, c) id]? =
        if c = a then none else (db.children kind)[childName kind (parent, c) id]? := by
    intro kind c id hc hcb
    rw [hchildren, moveChildren_other (hnames kind)
      (fun id' heq => hcb (childName_injective hc hb heq).1)]
    by_cases hca : c = a
    · subst hca
      rw [if_pos rfl, if_pos (childName_starts kind parent c id)]
    · rw [if_neg hca, if_neg (fun hpre => hca (storageId_of_childName ha hc hpre).symm)]
  refine ⟨?_, ?_, fun c hc hca hcb => ?_, fun k hka hkb => ?_, fun kind key c hc => ?_,
    fun kind key c hc => ?_⟩
  · unfold Database.stored
    congr 1
    · rw [hrows, Function.update_of_ne hkeys.symm, Function.update_self, hrowsEmpty]
      exact ExtTreeMap.ext_getElem? (fun k => by simp [ExtTreeMap.getElem?_union])
    funext kind id
    rw [hchildren, moveChildren_dst (hnames kind) ha hb hne, hchildEmpty, Option.or_none,
      Option.map_map]
    rfl
  · unfold Database.stored Stored.empty
    congr 1
    · rw [hrows, Function.update_self]
    · funext kind id
      rw [hother kind a id ha hne, if_pos rfl]
      rfl
  · refine stored_congr ?_ (fun kind id => ?_)
    · rw [hrows, Function.update_of_ne, Function.update_of_ne]
      · exact fun heq => hcb (Prod.mk.inj heq).2
      · exact fun heq => hca (Prod.mk.inj heq).2
    · rw [hother kind c id hc hcb, if_neg hca]
  · rw [hrows, Function.update_of_ne hka, Function.update_of_ne hkb]
  · by_cases hkey : ∃ id, key = childName kind (parent, b) id
    · obtain ⟨id, rfl⟩ := hkey
      rw [hchildren, moveChildren_dst (hnames kind) ha hb hne, hchildEmpty, Option.or_none] at hc
      obtain ⟨c', _, rfl⟩ := Option.map_eq_some_iff.mp hc
      rfl
    · rw [hchildren, moveChildren_other (hnames kind) (fun id heq => hkey ⟨id, heq⟩)] at hc
      split_ifs at hc
      exact hnames kind key c hc
  · by_cases hkey : ∃ id, key = childName kind (parent, b) id
    · exact .inl hkey
    · rw [hchildren, moveChildren_other (hnames kind) (fun id heq => hkey ⟨id, heq⟩)] at hc
      split_ifs at hc with hpre
      exact .inr ⟨hc, hpre⟩

end Stored

section Ownership

variable {s s' : Server} {parent : Bytes}

variable {t : TableObject}

theorem Server.WellShaped.slashless (hs : s.WellShaped) (ht : t ∈ s.objects) :
    Slashless t.storageId := by
  rcases ht with ⟨name, ht⟩ | ⟨key, ht⟩
  · exact (hs.live name t ht).2.slashless
  · obtain ⟨_, d, hdead⟩ := hs.dead key t ht
    exact hdead.slashless

theorem Server.WellShaped.rows (hs : s.WellShaped) (ht : t ∈ s.objects) :
    t.rows = t.storageKey := by
  rcases ht with ⟨name, ht⟩ | ⟨key, ht⟩
  · exact (hs.live name t ht).2.rows
  · obtain ⟨_, d, hdead⟩ := hs.dead key t ht
    exact hdead.rows

/-- All tables are of one instance, and every row, view and bundle belongs to a live
table or to a tombstone. -/
structure Server.Owned (s : Server) (parent : Bytes) : Prop where
  shape : s.WellShaped
  parent : ∀ t ∈ s.objects, t.parent = parent
  rows : ∀ k, s.db.rows k ≠ ∅ → ∃ t ∈ s.objects, t.storageKey = k
  names : ∀ kind, NamesAgree (s.db.children kind)
  children : ∀ (kind : ChildKind) (key : Bytes) (c : Child),
    (s.db.children kind)[key]? = some c →
    ∃ t ∈ s.objects, ∃ id, key = childName kind t.storageKey id

theorem Server.Owned.storageKey (hs : s.Owned parent) (ht : t ∈ s.objects) :
    t.storageKey = (parent, t.storageId) := by
  unfold TableObject.storageKey
  rw [hs.parent t ht]

/-- Nothing is stored under a key that no table has. -/
theorem Server.Owned.stored_empty (hs : s.Owned parent) {id : Bytes} (hid : Slashless id)
    (hfree : ∀ t ∈ s.objects, t.storageKey ≠ (parent, id)) :
    s.db.stored (parent, id) = Stored.empty := by
  unfold Database.stored Stored.empty
  congr 1
  · by_contra hne
    obtain ⟨t, ht, hkey⟩ := hs.rows _ hne
    exact hfree t ht hkey
  funext kind child
  cases hc : (s.db.children kind)[childName kind (parent, id) child]? with
  | none => rfl
  | some c =>
    obtain ⟨t, ht, child', hkey⟩ := hs.children kind _ c hc
    rw [hs.storageKey ht] at hkey
    obtain ⟨hsame, _⟩ := childName_injective hid (hs.shape.slashless ht) hkey
    exact absurd ((hs.storageKey ht).trans (by rw [hsame])) (hfree t ht)

/-- Everything stored for a table moves with it. -/
theorem owned_of_moved (hs : s.Owned parent) (hs' : s'.WellShaped) {a b : Bytes}
    (hreplaced : s.Replaced s' t (parent, a)) (ht : t.storageKey = (parent, b))
    (hmoved : Moved s.db s'.db parent a b) :
    s'.Owned parent := by
  have hmem : t ∈ s'.objects := (hreplaced t).mpr (.inl rfl)
  refine ⟨hs', fun t' ht' => ?_, fun k hk => ?_, hmoved.names, fun kind key c hc => ?_⟩
  · rcases (hreplaced t').mp ht' with rfl | ⟨hold, _, _⟩
    · exact (Prod.mk.inj ht).1
    · exact hs.parent t' hold
  · by_cases hkb : k = (parent, b)
    · exact ⟨t, hmem, ht.trans hkb.symm⟩
    · by_cases hka : k = (parent, a)
      · subst hka
        exact absurd (congrArg Stored.rows hmoved.src) hk
      · rw [hmoved.rows k hka hkb] at hk
        obtain ⟨t', ht', rfl⟩ := hs.rows k hk
        exact hreplaced.exists_storageKey ht' hka
  · rcases hmoved.children kind key c hc with ⟨id, rfl⟩ | ⟨hold, hstarts⟩
    · exact ⟨t, hmem, id, by rw [ht]⟩
    · obtain ⟨t', ht', id, rfl⟩ := hs.children kind key c hold
      have hne : t'.storageKey ≠ (parent, a) := by
        intro heq
        rw [heq] at hstarts
        exact hstarts (childName_starts kind parent a id)
      obtain ⟨t₁, ht₁, hkey⟩ := hreplaced.exists_storageKey ht' hne
      exact ⟨t₁, ht₁, id, by rw [hkey]⟩

/-- A table is put, and only its rows change. -/
theorem owned_of_replaced (hs : s.Owned parent) (hs' : s'.WellShaped)
    (hreplaced : s.Replaced s' t t.storageKey) (hparent : t.parent = parent)
    (hrows : ∀ k, k ≠ t.storageKey → s'.db.rows k = s.db.rows k)
    (hchildren : ∀ kind, s'.db.children kind = s.db.children kind) :
    s'.Owned parent := by
  have hmem : t ∈ s'.objects := (hreplaced t).mpr (.inl rfl)
  have hkept : ∀ t' ∈ s.objects, ∃ t₁ ∈ s'.objects, t₁.storageKey = t'.storageKey := by
    intro t' ht'
    by_cases hkey : t'.storageKey = t.storageKey
    · exact ⟨t, hmem, hkey.symm⟩
    · exact ⟨t', (hreplaced t').mpr (.inr ⟨ht', hkey, hkey⟩), rfl⟩
  refine ⟨hs', fun t' ht' => ?_, fun k hk => ?_, fun kind => ?_, fun kind key c hc => ?_⟩
  · rcases (hreplaced t').mp ht' with rfl | ⟨hold, _, _⟩
    · exact hparent
    · exact hs.parent t' hold
  · by_cases hkey : k = t.storageKey
    · exact ⟨t, hmem, hkey.symm⟩
    · rw [hrows k hkey] at hk
      obtain ⟨t', ht', rfl⟩ := hs.rows k hk
      exact hkept t' ht'
  · rw [hchildren]
    exact hs.names kind
  · rw [hchildren] at hc
    obtain ⟨t', ht', id, rfl⟩ := hs.children kind key c hc
    obtain ⟨t₁, ht₁, hkey⟩ := hkept t' ht'
    exact ⟨t₁, ht₁, id, by rw [hkey]⟩

theorem owned_of_childCreated (hs : s.Owned parent) {kind : ChildKind} {name id : Bytes} {c : Child}
    (ht : s.tables[name]? = some t) (hname : c.name = name ++ kind.segment ++ id) :
    Server.Owned { s with db := s.db.putChild c kind } parent := by
  have hchild : c.name = childName kind t.storageKey id := by
    obtain ⟨hkey, hlive⟩ := hs.shape.live name t ht
    rw [hname, hkey, ← hlive.storageName_eq]
    rfl
  refine ⟨⟨hs.shape.live, hs.shape.dead⟩, hs.parent, fun k hk => ?_,
    fun kind' key c' hc' => ?_, fun kind' key c' hc' => ?_⟩
  · rw [putChild_rows] at hk
    exact hs.rows k hk
  · rcases getElem?_putChild_eq_some hc' with ⟨_, hkey, rfl⟩ | hold
    · exact hkey
    · exact hs.names kind' key c' hold
  · rcases getElem?_putChild_eq_some hc' with ⟨rfl, hkey, _⟩ | hold
    · exact ⟨t, .inl ⟨name, ht⟩, id, hkey ▸ hchild⟩
    · exact hs.children kind' key c' hold

theorem owned_of_purged {now : Int} (hs : s.Owned parent) (hs' : s'.WellShaped)
    (hpurged : Purged now s s') :
    s'.Owned parent := by
  have hkept : ∀ t ∈ s.objects, t ∉ s'.objects →
      ∃ key : Bytes, s.deletedTables[key]? = some t ∧ t.Expired now := by
    intro t ht hnot
    by_contra hnone
    refine hnot ((hpurged.objects hs.shape t).mpr ⟨ht, fun key hkey hexp => ?_⟩)
    exact hnone ⟨key, hkey, hexp⟩
  have hchild : ∀ (kind : ChildKind) (key : Bytes) (c : Child),
      (s'.db.children kind)[key]? = some c → (s.db.children kind)[key]? = some c := by
    intro kind key c hc
    by_cases hstarts : ∃ (k : Bytes) (t : TableObject), s.deletedTables[k]? = some t ∧
        t.Expired now ∧ k ++ kind.segment <+: key
    · obtain ⟨k, t, ht, hexp, hstarts⟩ := hstarts
      rw [hpurged.child_purged kind k t key ht hexp hstarts] at hc
      cases hc
    · rw [← hpurged.child_kept kind key (fun k t ht hexp hpre =>
        hstarts ⟨k, t, ht, hexp, hpre⟩)]
      exact hc
  refine ⟨hs', fun t ht => ?_, fun k hk => ?_, fun kind key c hc => ?_, fun kind key c hc => ?_⟩
  · exact hs.parent t ((hpurged.objects hs.shape t).mp ht).1
  · by_cases hfree : ∃ (key : Bytes) (t : TableObject), s.deletedTables[key]? = some t ∧
        t.Expired now ∧ t.rows = k
    · obtain ⟨key, t, ht, hexp, rfl⟩ := hfree
      exact absurd (hpurged.rows_purged key t ht hexp) hk
    · rw [hpurged.rows_kept k (fun key t ht hexp heq =>
        hfree ⟨key, t, ht, hexp, heq⟩)] at hk
      obtain ⟨t, ht, rfl⟩ := hs.rows k hk
      by_contra hnone
      have hnot : t ∉ s'.objects := fun hmem => hnone ⟨t, hmem, rfl⟩
      obtain ⟨key, hkey, hexp⟩ := hkept t ht hnot
      exact hfree ⟨key, t, hkey, hexp, hs.shape.rows ht⟩
  · exact hs.names kind key c (hchild kind key c hc)
  · obtain ⟨t, ht, id, rfl⟩ := hs.children kind key c (hchild kind key c hc)
    by_contra hnone
    have hnot : t ∉ s'.objects := fun hmem => hnone ⟨t, hmem, id, rfl⟩
    obtain ⟨key, hkey, hexp⟩ := hkept t ht hnot
    have hstarts : key ++ kind.segment <+: childName kind t.storageKey id := by
      rw [(hs.shape.dead key t hkey).1]
      exact childName_starts kind t.parent t.storageId id
    rw [hpurged.child_purged kind key t _ hkey hexp hstarts] at hc
    cases hc

theorem owned_newServerState (strictAdmin : Bool) (instances : List Bytes) (parent : Bytes) :
    (newServerState strictAdmin instances).Owned parent := by
  have hobjects : ∀ t, t ∉ (newServerState strictAdmin instances).objects := by
    rintro t (⟨name, ht⟩ | ⟨key, ht⟩)
    · simp [newServerState] at ht
    · simp [newServerState] at ht
  have hchildren : ∀ (kind : ChildKind) (key : Bytes),
      ((newServerState strictAdmin instances).db.children kind)[key]? = none := by
    intro kind key
    cases kind <;> simp [newServerState, Database.children]
  refine ⟨⟨fun name t ht => ?_, fun key t ht => ?_⟩, fun t ht => ?_, fun k hk => ?_,
    fun kind key c hc => ?_, fun kind key c hc => ?_⟩
  · exact absurd (.inl ⟨name, ht⟩) (hobjects t)
  · exact absurd (.inr ⟨key, ht⟩) (hobjects t)
  · exact absurd ht (hobjects t)
  · exact absurd rfl hk
  · rw [hchildren] at hc
    cases hc
  · rw [hchildren] at hc
    cases hc

end Ownership

end Bttest
end LittleBigtable
