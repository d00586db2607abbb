import LittleBigtable.Bttest.MutationEngine

/-!
# Storage of a table

The rows, the idempotency tokens and the change log that the SQL store keeps
under one table name.  A transaction is a function on the whole store, so it is
applied completely or not at all; a failing statement or a failing commit leaves
the store as it was.
-/

namespace LittleBigtable
namespace Bttest

open List Std

/-- A half-open row-key interval.  An empty `stop` is unbounded; an empty `start`
is below every key. -/
structure KeyRange where
  start : Bytes
  stop : Bytes
deriving DecidableEq

def KeyRange.contains (r : KeyRange) (key : Bytes) : Bool :=
  decide (r.start ≤ key) && (decide (r.stop = []) || decide (key < r.stop))

def KeyRange.empty (r : KeyRange) : Bool :=
  decide (r.stop ≠ []) && decide (r.stop ≤ r.start)

/-- The rows of one table by row key. -/
abbrev SqlRows := GoMap Row

/-- `load` and `scan` answer an error when the storage fails. -/
def SqlRows.load (rows : SqlRows) (failure : Option Status)
    (key : Bytes) : Except Status (Option Row) :=
  match failure with
  | some st => .error st
  | none => .ok rows[key]?

/-- Upsert a row.  A row without cells is deleted, because there are no empty
rows. -/
def SqlRows.save (rows : SqlRows) (r : Row) : SqlRows :=
  if r.isEmpty then rows.erase r.key else rows.insert r.key r

/-- The stored row under a key, or a new one. -/
def storedRow (rows : SqlRows) (key : Bytes) : Row :=
  rows[key]?.getD (newRow key)

/-- A row as it is persisted: rows without cells are not stored. -/
def persistedRow (r : Row) : Option Row :=
  if r.isEmpty then none else some r

/-- The rows inside `rng` in key order, or in reverse key order. -/
def SqlRows.scan (rows : SqlRows) (rng : KeyRange) (reversed : Bool) : List Row :=
  if rng.empty then
    []
  else
    let found := (rows.toList.filter (fun kv => rng.contains kv.1)).map Prod.snd
    if reversed then found.reverse else found

/-- Microseconds of a time, rounded down. -/
def toUnixMicro (time : Int) : Int :=
  time / 1000

inductive ChangeType
  | user
  | garbageCollection
deriving DecidableEq

/-- One record of the change log. -/
structure ChangeRecord where
  rowKey : Bytes
  changeType : ChangeType
  commitMicros : Int
  mutations : List Mutation
deriving DecidableEq

/-- What is stored under one table name.  `tokens` holds the expiry time of each
row key and token. -/
structure Store where
  rows : SqlRows
  tokens : GoMap (GoMap Int)
  changeLog : List ChangeRecord
deriving DecidableEq

/-- The expiry time of a recorded token. -/
def Store.tokenExpiry (db : Store) (key token : Bytes) : Option Int :=
  db.tokens[key]?.bind (fun m => m[token]?)

/-- Upsert a token. -/
def Store.putToken (db : Store) (key token : Bytes) (expireMicros : Int) : Store :=
  { db with
    tokens := db.tokens.insert key
      ((db.tokens[key]?.getD ∅).insert token expireMicros) }

/-- Append a change record. -/
def Store.appendChange (db : Store) (record : ChangeRecord) : Store :=
  { db with changeLog := db.changeLog ++ [record] }

/-- A named, typed field of a row-key schema. -/
structure RowKeyField where
  fieldName : Bytes
  typed : Bool
deriving DecidableEq

/-- The metadata of a live table that data writes and family modifications
read. -/
structure Table where
  families : Families
  counter : Nat
  granularity : Granularity
  changeStreamEnabled : Bool
  rowKeySchema : Option (List RowKeyField)

/-- The GC rules of the families that have one. -/
def Table.gcRules (tbl : Table) : GoMap GcRule :=
  tbl.families.filterMap (fun _ cf => cf.gcRule)

theorem putToken_tokenExpiry (db : Store) (key token : Bytes) (expireMicros : Int)
    (key' token' : Bytes) :
    (db.putToken key token expireMicros).tokenExpiry key' token' =
      if key' = key ∧ token' = token then
        some expireMicros
      else
        db.tokenExpiry key' token' := by
  unfold Store.putToken Store.tokenExpiry
  simp only [ExtTreeMap.getElem?_insert, Std.compare_eq_iff_eq]
  by_cases hkey : key' = key
  · subst hkey
    by_cases htoken : token' = token
    · subst htoken
      simp
    · have htoken' : token ≠ token' := fun heq => htoken heq.symm
      cases db.tokens[key']? <;>
        simp [ExtTreeMap.getElem?_insert, htoken, htoken']
  · have hkey' : key ≠ key' := fun heq => hkey heq.symm
    simp [hkey, hkey']

theorem persistedRow_eq_some {r r' : Row} :
    persistedRow r = some r' ↔ r.isEmpty = false ∧ r' = r := by
  unfold persistedRow
  split_ifs with hempty
  · simp [hempty]
  · simp [hempty, eq_comm]

theorem save_getElem? (rows : SqlRows) (r : Row) (key : Bytes) :
    (rows.save r)[key]? =
      if key = r.key then persistedRow r else rows[key]? := by
  unfold SqlRows.save persistedRow
  by_cases hkey : key = r.key
  · subst hkey
    rw [if_pos rfl]
    split_ifs <;> simp
  · have hkey' : r.key ≠ key := fun heq => hkey heq.symm
    split_ifs <;>
      simp [ExtTreeMap.getElem?_insert, ExtTreeMap.getElem?_erase, hkey']

/-- Looking up a row after a loop that saves a changed version of each of several
rows with distinct keys. -/
theorem foldl_save_getElem? {α : Type} (keyOf : α → Bytes) (next : α → Row) {l : List α}
    (hkey : ∀ a ∈ l, (next a).key = keyOf a) (hdistinct : l.Pairwise (fun a b => keyOf a ≠ keyOf b))
    (rows : SqlRows) (k : Bytes) :
    (l.foldl (fun rows a => rows.save (next a)) rows)[k]? =
      match l.find? (fun a => keyOf a = k) with
      | none => rows[k]?
      | some a => persistedRow (next a) := by
  induction l generalizing rows with
  | nil => rfl
  | cons a l ih =>
    obtain ⟨hhead, htail⟩ := pairwise_cons.mp hdistinct
    have ha := hkey a (by simp)
    rw [foldl_cons, ih (fun b hb => hkey b (mem_cons_of_mem a hb)) htail, List.find?_cons]
    by_cases hk : keyOf a = k
    · have hnone : l.find? (fun b => keyOf b = k) = none := by
        rw [List.find?_eq_none]
        intro b hb hbk
        exact hhead b hb (hk.trans (of_decide_eq_true hbk).symm)
      simp only [hnone, hk, decide_true, save_getElem?, ha, if_true]
    · have hk' : k ≠ keyOf a := fun heq => hk heq.symm
      simp only [hk, decide_false, save_getElem?, ha, if_neg hk']

theorem scan_all (rows : SqlRows) :
    rows.scan ⟨[], []⟩ false = rows.toList.map Prod.snd := by
  have hall : rows.toList.filter (fun kv => (⟨[], []⟩ : KeyRange).contains kv.1) = rows.toList := by
    rw [filter_eq_self]
    intro kv _
    simp [KeyRange.contains]
  simp [SqlRows.scan, KeyRange.empty, hall]

theorem foldl_erase_getElem? {α β : Type} (keyOf : α → Bytes) (l : List α) (rows : GoMap β)
    (k : Bytes) :
    (l.foldl (fun rows a => rows.erase (keyOf a)) rows)[k]? =
      if k ∈ l.map keyOf then none else rows[k]? := by
  induction l generalizing rows with
  | nil => simp
  | cons a l ih =>
    rw [foldl_cons, ih, ExtTreeMap.getElem?_erase]
    simp only [Std.compare_eq_iff_eq, map_cons, mem_cons]
    by_cases hk : k = keyOf a
    · simp [hk]
    · have hk' : keyOf a ≠ k := fun heq => hk heq.symm
      simp [hk, hk']

end Bttest
end LittleBigtable
