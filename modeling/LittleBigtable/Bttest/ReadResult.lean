import LittleBigtable.Bttest.DataRead
import LittleBigtable.Bttest.TableAdmin
import LittleBigtable.Bttest.FilterSemantics

/-!
# What a read returns

The rows that `ReadRows` emits are the first rows, in key order, of those stored
rows that are requested and still hold cells after all reductions.  The plan of a
read loads the requested rows, each once and in order; the loop over them then
emits the ones that survive until the limit is reached.
-/

namespace LittleBigtable
namespace Bttest

open StableSort

section Requested

/-- The range holds the key.  An open end at the empty key is unbounded. -/
def RowRange.contains (rr : RowRange) (key : Bytes) : Bool :=
  (match rr.startKey with
    | .unset => true
    | .closed start => decide (start ≤ key)
    | .opened start => decide (start < key)) &&
  (match rr.endKey with
    | .unset => true
    | .closed stop => decide (key ≤ stop)
    | .opened stop => decide (stop = []) || decide (key < stop))

/-- The row set requests the key; a set without keys and ranges requests all. -/
def requests (rs : Option RowSet) (key : Bytes) : Bool :=
  match rs with
  | none => true
  | some rs =>
    (rs.rowKeys.isEmpty && rs.rowRanges.isEmpty) ||
      decide (key ∈ rs.rowKeys) || rs.rowRanges.any (fun rr => rr.contains key)

theorem zero_le_byte (b : UInt8) :
    (0 : UInt8) ≤ b :=
  UInt8.zero_le

/-- Normalizing a range keeps its keys. -/
theorem rowRangeToKeyRange_contains (rr : RowRange) (key : Bytes) :
    (rowRangeToKeyRange rr).contains key = rr.contains key := by
  obtain ⟨startKey, endKey⟩ := rr
  unfold KeyRange.contains RowRange.contains rowRangeToKeyRange
  congr 1
  · cases startKey with
    | unset => simp
    | closed start => rfl
    | opened start => simp only [Lexicographic.append_least_le_iff zero_le_byte]
  · cases endKey with
    | unset => simp
    | closed stop => simp [Lexicographic.lt_append_least_iff zero_le_byte]
    | opened stop => rfl

theorem contains_of_empty {rng : KeyRange} (h : rng.empty = true) (key : Bytes) :
    rng.contains key = false := by
  unfold KeyRange.empty at h
  unfold KeyRange.contains
  simp only [Bool.and_eq_true, decide_eq_true_eq] at h
  by_cases hstart : rng.start ≤ key
  · have hnot : ¬ key < rng.stop := not_lt.mpr (h.2.trans hstart)
    simp [h.1, hnot]
  · simp [hstart]

end Requested

section Loading

variable {rows : SqlRows}

/-- The order of rows in the requested direction. -/
def inDirection (reversed : Bool) (a b : Row) : Prop :=
  if reversed then b.key < a.key else a.key < b.key

theorem stored_under_key_iff {key : Bytes} {r : Row}
    (hkeys : ∀ (key : Bytes) (r : Row), rows[key]? = some r → r.key = key) :
    rows[r.key]? = some r ∧ r.key = key ↔ rows[key]? = some r := by
  constructor
  · rintro ⟨hr, rfl⟩
    exact hr
  · intro hr
    obtain rfl := hkeys key r hr
    exact ⟨hr, rfl⟩

theorem mem_scan (hkeys : ∀ (key : Bytes) (r : Row), rows[key]? = some r → r.key = key)
    {rng : KeyRange} (reversed : Bool) (r : Row) :
    r ∈ rows.scan rng reversed ↔ rows[r.key]? = some r ∧ rng.contains r.key = true := by
  unfold SqlRows.scan
  by_cases hempty : rng.empty = true
  · simp [hempty, contains_of_empty hempty]
  rw [if_neg hempty]
  have hmem : r ∈ (rows.toList.filter (fun kv => rng.contains kv.1)).map
      Prod.snd ↔ rows[r.key]? = some r ∧ rng.contains r.key = true := by
    simp only [List.mem_map, List.mem_filter]
    constructor
    · rintro ⟨⟨key, r'⟩, ⟨hr, hcontains⟩, rfl⟩
      rw [Std.ExtTreeMap.mem_toList_iff_getElem?_eq_some] at hr
      rw [hkeys key r' hr]
      exact ⟨hr, hcontains⟩
    · rintro ⟨hr, hcontains⟩
      exact ⟨(r.key, r), ⟨Std.ExtTreeMap.mem_toList_iff_getElem?_eq_some.mpr hr, hcontains⟩, rfl⟩
  cases reversed with
  | false => exact hmem
  | true =>
    simp only [if_true, List.mem_reverse]
    exact hmem

theorem scan_pairwise (hkeys : ∀ (key : Bytes) (r : Row), rows[key]? = some r → r.key = key)
    {rng : KeyRange} (reversed : Bool) :
    (rows.scan rng reversed).Pairwise (inDirection reversed) := by
  unfold SqlRows.scan
  by_cases hempty : rng.empty = true
  · rw [if_pos hempty]
    exact List.Pairwise.nil
  rw [if_neg hempty]
  have hsorted : ((rows.toList.filter (fun kv => rng.contains kv.1)).map
      Prod.snd).Pairwise (fun a b => a.key < b.key) := by
    rw [List.pairwise_map]
    refine List.Pairwise.imp_of_mem ?_ (Std.ExtTreeMap.ordered_keys_toList.filter _)
    intro a b ha hb hab
    have ha' := List.mem_of_mem_filter ha
    have hb' := List.mem_of_mem_filter hb
    rw [Std.ExtTreeMap.mem_toList_iff_getElem?_eq_some] at ha' hb'
    rw [hkeys _ _ ha', hkeys _ _ hb']
    exact (Lexicographic.compare_eq_lt_iff _ _).mp hab
  cases reversed with
  | false => exact hsorted
  | true => exact List.pairwise_reverse.mpr hsorted

/-- The loaded rows are the stored rows with the keys `p`. -/
def Loaded (rows seen : SqlRows) (p : Bytes → Prop) : Prop :=
  ∀ (key : Bytes) (r : Row), seen[key]? = some r ↔ rows[key]? = some r ∧ p key

variable {seen : SqlRows} {p : Bytes → Prop}

theorem Loaded.congr {q : Bytes → Prop} (h : Loaded rows seen p) (hpq : ∀ key, p key ↔ q key) :
    Loaded rows seen q := by
  intro key r
  rw [h key r, hpq]

theorem Loaded.insert (h : Loaded rows seen p) {key : Bytes} {r : Row} (hr : rows[key]? = some r) :
    Loaded rows (seen.insert key r) (fun k => p k ∨ k = key) := by
  intro k r'
  rw [Std.ExtTreeMap.getElem?_insert]
  simp only [Std.compare_eq_iff_eq]
  by_cases hk : key = k
  · subst hk
    simp [hr]
  · have hk' : k ≠ key := fun heq => hk heq.symm
    simp [hk, hk', h k r']

/-- A key that is not added changes nothing when it is there or not stored. -/
theorem Loaded.skip (h : Loaded rows seen p) {key : Bytes}
    (hkey : seen[key]?.isSome = true ∨ rows[key]? = none) :
    Loaded rows seen (fun k => p k ∨ k = key) := by
  intro k r
  rw [h k r]
  constructor
  · rintro ⟨hr, hp⟩
    exact ⟨hr, .inl hp⟩
  rintro ⟨hr, hp | rfl⟩
  · exact ⟨hr, hp⟩
  rcases hkey with hsome | hnone
  · obtain ⟨r', hr'⟩ := Option.isSome_iff_exists.mp hsome
    exact ⟨hr, ((h k r').mp hr').2⟩
  · rw [hnone] at hr
    cases hr

theorem Loaded.loadKey (h : Loaded rows seen p) (key : Bytes) :
    Loaded rows (Bttest.loadKey rows seen key) (fun k => p k ∨ k = key) := by
  unfold Bttest.loadKey
  split_ifs with hseen
  · exact h.skip (.inl hseen)
  · cases hr : rows[key]? with
    | none => exact h.skip (.inr hr)
    | some r => exact h.insert hr

theorem Loaded.foldl_loadKey (keys : List Bytes) (h : Loaded rows seen p) :
    Loaded rows (keys.foldl (Bttest.loadKey rows) seen) (fun k => p k ∨ k ∈ keys) := by
  induction keys generalizing seen p with
  | nil => simpa using h
  | cons key keys ih =>
    refine (ih (h.loadKey key)).congr (fun k => ?_)
    rw [List.mem_cons, or_assoc]

theorem Loaded.foldl_rememberRow (l : List Row) (hl : ∀ r ∈ l, rows[r.key]? = some r)
    (h : Loaded rows seen p) :
    Loaded rows (l.foldl rememberRow seen) (fun k => p k ∨ k ∈ l.map Row.key) := by
  induction l generalizing seen p with
  | nil => simpa using h
  | cons r l ih =>
    have hstep : Loaded rows (rememberRow seen r) (fun k => p k ∨ k = r.key) := by
      unfold rememberRow
      split_ifs with hseen
      · exact h.skip (.inl hseen)
      · exact h.insert (hl r (by simp))
    refine (ih (fun r' hr' => hl r' (List.mem_cons_of_mem _ hr')) hstep).congr (fun k => ?_)
    rw [List.map_cons, List.mem_cons, or_assoc]

theorem Loaded.foldl_loadRange
    (hkeys : ∀ (key : Bytes) (r : Row), rows[key]? = some r → r.key = key) (ranges : List KeyRange)
    (h : Loaded rows seen p) :
    Loaded rows (ranges.foldl (loadRange rows) seen)
      (fun k => p k ∨ ∃ rng ∈ ranges, rng.contains k = true) := by
  induction ranges generalizing seen p with
  | nil => simpa using h
  | cons rng ranges ih =>
    have hstep : Loaded rows (loadRange rows seen rng)
        (fun k => p k ∨ k ∈ (rows.scan rng false).map Row.key) :=
      h.foldl_rememberRow _ (fun r hr => ((mem_scan hkeys false r).mp hr).1)
    refine fun key r => (ih hstep key r).trans ?_
    -- among the stored keys, those of the scan are those of the range
    refine and_congr_right (fun hr => ?_)
    have hscan : key ∈ (rows.scan rng false).map Row.key ↔ rng.contains key = true := by
      rw [List.mem_map]
      constructor
      · rintro ⟨r', hr', rfl⟩
        exact ((mem_scan hkeys false r').mp hr').2
      intro hcontains
      have hkey := hkeys key r hr
      exact ⟨r, (mem_scan hkeys false r).mpr
        ⟨by rw [hkey]; exact hr, by rw [hkey]; exact hcontains⟩, hkey⟩
    simp only [hscan, or_assoc, List.mem_cons, exists_eq_or_imp]

theorem sort_pairwise_lt {α : Type} {κ : Type} [LinearOrder κ] (key : α → κ) {l : List α}
    (hne : l.Pairwise (fun a b => key a ≠ key b)) :
    (l.insertionSort (fun a b => key a ≤ key b)).Pairwise (fun a b => key a < key b) := by
  have htotal : Std.Total (fun a b : α => key a ≤ key b) := ⟨fun a b => le_total (key a) (key b)⟩
  have htrans : IsTrans α (fun a b : α => key a ≤ key b) := ⟨fun _ _ _ => le_trans⟩
  have hsorted := List.pairwise_insertionSort (fun a b : α => key a ≤ key b) l
  have hne' : (l.insertionSort (fun a b => key a ≤ key b)).Pairwise
      (fun a b => key a ≠ key b) :=
    (List.perm_insertionSort _ l).symm.pairwise hne (fun h => h.symm)
  exact (hsorted.and hne').imp (fun {a b} hab => lt_of_le_of_ne hab.1 hab.2)

/-- The rows of a plan are the requested ones, in the requested direction. -/
theorem load_newReadPlan (hkeys : ∀ (key : Bytes) (r : Row), rows[key]? = some r → r.key = key)
    {rs : Option RowSet} {reversed : Bool} :
    (∀ r, r ∈ (newReadPlan rs reversed).load rows ↔
      rows[r.key]? = some r ∧ requests rs r.key = true) ∧
    ((newReadPlan rs reversed).load rows).Pairwise (inDirection reversed) := by
  have hall : (∀ r, r ∈ rows.scan ⟨[], []⟩ reversed ↔
      rows[r.key]? = some r ∧ true = true) ∧
      (rows.scan ⟨[], []⟩ reversed).Pairwise (inDirection reversed) := by
    refine ⟨fun r => ?_, scan_pairwise hkeys _⟩
    rw [mem_scan hkeys]
    simp [KeyRange.contains]
  cases rs with
  | none => exact hall
  | some rs =>
    obtain ⟨keys, ranges⟩ := rs
    by_cases hzero : keys.length + ranges.length = 0
    · have hnil : keys = [] ∧ ranges = [] := by
        constructor <;> rw [← List.length_eq_zero_iff] <;> omega
      rw [hnil.1, hnil.2]
      exact hall
    have hsome : (keys.isEmpty && ranges.isEmpty) = false := by
      rw [Bool.and_eq_false_iff]
      by_contra hnot
      simp only [not_or, Bool.not_eq_false, List.isEmpty_iff] at hnot
      simp [hnot.1, hnot.2] at hzero
    unfold newReadPlan ReadPlan.load
    simp only [hzero, if_false, Bool.false_eq_true]
    have hloaded : Loaded rows
        ((ranges.map rowRangeToKeyRange).foldl (loadRange rows) (keys.foldl (loadKey rows) ∅))
        (fun key => requests (some ⟨keys, ranges⟩) key = true) := by
      have hempty : Loaded rows ∅ (fun _ => False) := by
        intro key r
        simp
      refine ((hempty.foldl_loadKey keys).foldl_loadRange hkeys
        (ranges.map rowRangeToKeyRange)).congr (fun key => ?_)
      unfold requests
      simp [hsome, rowRangeToKeyRange_contains]
    generalize (ranges.map rowRangeToKeyRange).foldl (loadRange rows)
      (keys.foldl (loadKey rows) ∅) = seen at hloaded
    have hseen : ∀ (key : Bytes) (r : Row), seen[key]? = some r →
        r.key = key :=
      fun key r hr => hkeys key r ((hloaded key r).mp hr).1
    have hmem : ∀ r, r ∈ seen.toList.map Prod.snd ↔
        rows[r.key]? = some r ∧ requests (some ⟨keys, ranges⟩) r.key = true := by
      intro r
      rw [← hloaded, List.mem_map]
      constructor
      · rintro ⟨⟨key, r'⟩, hr, rfl⟩
        rw [Std.ExtTreeMap.mem_toList_iff_getElem?_eq_some] at hr
        rw [hseen key r' hr]
        exact hr
      · intro hr
        exact ⟨(r.key, r), Std.ExtTreeMap.mem_toList_iff_getElem?_eq_some.mpr hr, rfl⟩
    have hne : (seen.toList.map Prod.snd).Pairwise (fun a b => a.key ≠ b.key) := by
      rw [List.pairwise_map]
      refine Std.ExtTreeMap.distinct_keys_toList.imp_of_mem ?_
      intro a b ha hb hab heq
      rw [Std.ExtTreeMap.mem_toList_iff_getElem?_eq_some] at ha hb
      rw [hseen _ _ ha, hseen _ _ hb] at heq
      exact hab (Std.compare_eq_iff_eq.mpr heq)
    cases reversed with
    | false =>
      simp only [Bool.false_eq_true, if_false]
      refine ⟨fun r => ?_, ?_⟩
      · rw [(List.perm_insertionSort _ _).mem_iff]
        exact hmem r
      · exact sort_pairwise_lt Row.key hne
    | true =>
      simp only [if_true]
      refine ⟨fun r => ?_, ?_⟩
      · rw [(List.perm_insertionSort _ _).mem_iff]
        exact hmem r
      · exact sort_pairwise_lt (fun r : Row => OrderDual.toDual r.key) hne

end Loading

section EmptyInput

mutual

/-- A filter passes nothing on when it gets nothing. -/
theorem denote_nil {compile : RegexpCompiler} {key : Bytes} {f : RowFilter} :
    denote compile key f [] = ([], []) := by
  cases f with
  | chain filters => exact denoteChain_nil
  | interleave filters =>
    simp only [denote, denoteBranches_nil]
    rfl
  | condition predicateFilter trueFilter falseFilter =>
    simp only [denote, denote_nil]
    split_ifs <;> rfl
  | rowKeyRegexFilter pat =>
    simp only [denote]
    split_ifs <;> rfl
  | cellsPerRowLimitFilter | cellsPerRowOffsetFilter => simp [denote]
  | _ => rfl

theorem denoteChain_nil {compile : RegexpCompiler} {key : Bytes} {filters : List RowFilter} :
    denoteChain compile key filters [] = ([], []) := by
  cases filters with
  | nil => rfl
  | cons sub filters =>
    simp only [denoteChain, denote_nil, denoteChain_nil]
    rfl

theorem denoteBranches_nil {compile : RegexpCompiler} {key : Bytes} {filters : List RowFilter} :
    denoteBranches compile key filters [] = ([], []) := by
  cases filters with
  | nil => rfl
  | cons sub filters =>
    simp only [denoteBranches, denote_nil, denoteBranches_nil]
    rfl

end

theorem filterListing_nil (compile : RegexpCompiler) (key : Bytes) (f : RowFilter) :
    filterListing compile key f [] = [] := by
  unfold filterListing
  rw [denote_nil]
  rfl

end EmptyInput

section Emitting

variable {compile : RegexpCompiler} {tbl : Table} {view : Option ViewPolicy} {env : ReadEnv}
variable {req : ReadRowsRequest}

/-- The row `r'` is emitted for the stored row: it has the visible cells that the
filter selects, and at least one. -/
structure EmittedFor (compile : RegexpCompiler) (tbl : Table) (view : Option ViewPolicy)
    (gcMicros : Int) (filter : RowFilter) (stored r' : Row) : Prop where
  key_eq : r'.key = stored.key
  normal : r'.Normal
  nonempty : r'.listing ≠ []
  listing_eq : ∃ r,
    visibleRow tbl view gcMicros stored = some r ∧
    r'.listing = filterListing compile stored.key filter r.listing

/-- The row that the loop emits for a stored row. -/
def emittedRow (compile : RegexpCompiler) (tbl : Table) (view : Option ViewPolicy) (env : ReadEnv)
    (req : ReadRowsRequest) (stored : Row) : Option Row :=
  match visibleRow tbl view (env.gcMicros stored.key) stored with
  | none => none
  | some r =>
    match filterRow compile (env.draw r.key) req.filter r with
    | .ok (true, r') => some r'
    | _ => none

theorem dropUnknownFamilies_normal (fams : Families) {r : Row} (h : r.Normal) :
    (dropUnknownFamilies fams r).Normal := by
  intro name f hf
  unfold dropUnknownFamilies at hf
  simp only [Std.ExtTreeMap.getElem?_filter'] at hf
  exact h name f (Option.filter_eq_some_iff.mp hf).1

theorem restrict_normal {p : ViewPolicy} {r : Row} :
    (p.restrict r).Normal := by
  unfold ViewPolicy.restrict
  split_ifs
  · exact normalize_normal _
  · exact newRow_normal _

theorem restrict_key (p : ViewPolicy) (r : Row) :
    (p.restrict r).key = r.key := by
  unfold ViewPolicy.restrict
  split_ifs <;> rfl

theorem visibleRow_normal {gcMicros : Int} {stored r : Row} (hstored : stored.Normal)
    (h : visibleRow tbl view gcMicros stored = some r) :
    r.Normal ∧ r.key = stored.key := by
  have hgc : ((dropUnknownFamilies tbl.families stored).gc tbl.gcRules
      gcMicros).Normal :=
    (dropUnknownFamilies_normal _ hstored).gcWithChanges _ _
  have hkey : ((dropUnknownFamilies tbl.families stored).gc tbl.gcRules
      gcMicros).key = stored.key :=
    gcWithChanges_key
  unfold visibleRow at h
  cases view with
  | none =>
    cases h
    exact ⟨hgc, hkey⟩
  | some p =>
    simp only at h
    split_ifs at h
    cases h
    exact ⟨restrict_normal, (restrict_key p _).trans hkey⟩

/-- An emitted row, from a stored one. -/
theorem emittedRow_eq_some (hfilter : validateFilter compile req.filter = none)
    (hsample : req.filter.sampleFree = true) {stored : Row} (hstored : stored.Normal) {r' : Row} :
    emittedRow compile tbl view env req stored = some r' ↔
      EmittedFor compile tbl view (env.gcMicros stored.key) req.filter stored
        r' := by
  unfold emittedRow
  cases hvis : visibleRow tbl view (env.gcMicros stored.key) stored with
  | none =>
    constructor
    · intro h
      cases h
    intro h
    obtain ⟨r, hr, _⟩ := h.listing_eq
    rw [hvis] at hr
    cases hr
  | some r =>
    obtain ⟨hnormal, hkey⟩ := visibleRow_normal hstored hvis
    obtain ⟨r₁, hrun, hnormal₁, hkey₁, hlisting⟩ :=
      filterRow_denotes hfilter hsample (env.draw r.key) hnormal
    simp only [hrun]
    rw [hkey] at hlisting
    constructor
    · intro h
      cases hempty : r₁.isEmpty with
      | true => simp [hempty] at h
      | false =>
        simp only [hempty, Bool.not_false] at h
        cases h
        refine ⟨hkey₁.trans hkey, hnormal₁, ?_, r, hvis, hlisting⟩
        rw [ne_eq, ← hnormal₁.isEmpty_iff_listing, hempty]
        simp
    intro h
    obtain ⟨r₂, hr₂, hlisting'⟩ := h.listing_eq
    rw [hvis] at hr₂
    cases hr₂
    have heq : r₁ = r' := by
      refine hnormal₁.eq_of_listing h.normal ?_ ?_
      · rw [hkey₁, hkey, h.key_eq]
      · rw [hlisting, hlisting']
    have hempty : r₁.isEmpty = false := by
      rw [← Bool.not_eq_true, hnormal₁.isEmpty_iff_listing, heq]
      exact h.nonempty
    simp only [hempty, Bool.not_false]
    rw [heq]

/-- The rows that a limit lets through, when some were returned before. -/
def limitRows (rowsLimit : Int) (returned : Nat) (rows : List Row) : List Row :=
  if rowsLimit = 0 then rows else rows.take (rowsLimit.toNat - returned)

/-- The loop emits the surviving rows until the limit is reached. -/
theorem readLoop_eq (hlimit : 0 ≤ req.rowsLimit)
    (hfilter : validateFilter compile req.filter = none) (hsample : req.filter.sampleFree = true)
    (rows : List Row) (hrows : ∀ r ∈ rows, r.Normal) (stats : ReadStats) :
    ∃ stats',
      readLoop compile tbl view env req rows stats =
        .ok (limitRows req.rowsLimit stats.rowsReturned
          (rows.filterMap (emittedRow compile tbl view env req)), stats') := by
  induction rows generalizing stats with
  | nil =>
    refine ⟨stats, ?_⟩
    unfold readLoop limitRows
    simp
  | cons stored rows ih =>
    have hrows' : ∀ r ∈ rows, r.Normal := fun r hr => hrows r (List.mem_cons_of_mem _ hr)
    unfold readLoop
    split_ifs with hdone
    · refine ⟨stats, ?_⟩
      have hzero : req.rowsLimit.toNat - stats.rowsReturned = 0 := by omega
      unfold limitRows
      rw [if_neg (by omega), hzero, List.take_zero]
    have hemitted : emittedRow compile tbl view env req stored =
        match visibleRow tbl view (env.gcMicros stored.key) stored with
        | none => none
        | some r =>
          match filterRow compile (env.draw r.key) req.filter r with
          | .ok (true, r') => some r'
          | _ => none :=
      rfl
    rw [List.filterMap_cons, hemitted]
    cases hvis : visibleRow tbl view (env.gcMicros stored.key) stored with
    | none => exact ih hrows' stats
    | some r =>
      obtain ⟨hnormal, _⟩ := visibleRow_normal (hrows stored (by simp)) hvis
      obtain ⟨r', hrun, hnormal', _, hlisting⟩ :=
        filterRow_denotes hfilter hsample (env.draw r.key) hnormal
      simp only [hrun]
      by_cases hempty : r.isEmpty = true
      · have hempty' : r'.isEmpty = true := by
          rw [hnormal.isEmpty_iff_listing] at hempty
          rw [hnormal'.isEmpty_iff_listing, hlisting, hempty, filterListing_nil]
        simp only [hempty, hempty', if_true, Bool.not_true]
        exact ih hrows' stats
      rw [if_neg hempty]
      cases hempty' : r'.isEmpty with
      | true =>
        simp only [if_true, Bool.not_true]
        exact ih hrows' _
      | false =>
        obtain ⟨stats', hrest⟩ := ih hrows'
          { rowsSeen := stats.rowsSeen + 1
            rowsReturned := stats.rowsReturned + 1
            cellsSeen := stats.cellsSeen + r.cellCount
            cellsReturned := stats.cellsReturned + r'.cellCount }
        refine ⟨stats', ?_⟩
        simp only [Bool.false_eq_true, if_false, Bool.not_false, hrest]
        unfold limitRows
        split_ifs with hzero
        · rfl
        have hsucc : req.rowsLimit.toNat - stats.rowsReturned =
            req.rowsLimit.toNat - (stats.rowsReturned + 1) + 1 := by
          omega
        rw [hsucc, List.take_succ_cons]
        rfl

theorem check_eq_none (h : req.check compile env = none) :
    0 ≤ req.rowsLimit ∧ validateFilter compile req.filter = none := by
  unfold ReadRowsRequest.check at h
  simp only [Option.or_eq_none_iff] at h
  obtain ⟨hlimit, _, _, _, hfilter, _⟩ := h
  refine ⟨?_, hfilter⟩
  by_contra hneg
  rw [if_pos (by omega)] at hlimit
  cases hlimit

variable (tbl view) in
/-- What a read that passes its checks emits. -/
theorem readRows_eq {db : Store}
    (hrows : ∀ (key : Bytes) (r : Row), db.rows[key]? = some r → r.key = key ∧ r.Normal)
    (hcheck : req.check compile env = none) (hsample : req.filter.sampleFree = true) :
    ∃ stats, readRows compile tbl view env req db =
      .ok (limitRows req.rowsLimit 0 (((newReadPlan req.rows req.reversed).load db.rows).filterMap
        (emittedRow compile tbl view env req)), stats) := by
  obtain ⟨hmem, _⟩ := load_newReadPlan (fun key r hr => (hrows key r hr).1)
  obtain ⟨hlimit, hfilter⟩ := check_eq_none hcheck
  unfold readRows
  rw [hcheck]
  exact readLoop_eq hlimit hfilter hsample _
    (fun r hr => (hrows r.key r ((hmem r).mp hr).1).2) ⟨0, 0, 0, 0⟩

/-- `ReadRows` of one key. -/
def singleKeyRead (key : Bytes) (filter : RowFilter) : ReadRowsRequest :=
  ⟨some ⟨[key], []⟩, filter, 0, false, .none⟩

/-- An ordered list of at most one row. -/
theorem eq_toList_of_mem_iff {found : Option Row} {reversed : Bool} {l : List Row}
    (hmem : ∀ r, r ∈ l ↔ found = some r) (hsorted : l.Pairwise (inDirection reversed)) :
    l = found.toList := by
  have hnodup : l.Nodup := by
    refine hsorted.imp (fun hab heq => ?_)
    rw [heq] at hab
    cases reversed <;> exact lt_irrefl _ hab
  have hperm : l.Perm found.toList :=
    (List.perm_ext_iff_of_nodup hnodup (by cases found <;> simp)).mpr (by simpa using hmem)
  cases found with
  | none => exact hperm.eq_nil
  | some stored => exact hperm.eq_singleton

variable (tbl view) in
/-- A read of one key emits what it makes of the row under the key. -/
theorem readRows_singleKeyRead (key : Bytes) {db : Store} {filter : RowFilter}
    (hrows : ∀ (key : Bytes) (r : Row), db.rows[key]? = some r → r.key = key ∧ r.Normal)
    (hload : env.loadError = none) (hfilter : validateFilter compile filter = none)
    (hsample : filter.sampleFree = true) :
    ∃ stats, readRows compile tbl view env (singleKeyRead key filter) db =
      .ok ((db.rows[key]?.bind (emittedRow compile tbl view env (singleKeyRead key filter))).toList,
        stats) := by
  have hcheck : (singleKeyRead key filter).check compile env = none := by
    simp [ReadRowsRequest.check, singleKeyRead, hload, hfilter, RequestStatsView.error,
      validateRowRanges, rowRangesError]
  obtain ⟨hmem, hsorted⟩ := load_newReadPlan (fun key r hr => (hrows key r hr).1)
  have hone : (newReadPlan (singleKeyRead key filter).rows
      (singleKeyRead key filter).reversed).load db.rows = db.rows[key]?.toList := by
    refine eq_toList_of_mem_iff (fun r => (hmem r).trans ?_) hsorted
    have hrequests : requests (singleKeyRead key filter).rows r.key = true ↔ r.key = key := by
      simp [requests, singleKeyRead]
    rw [hrequests]
    exact stored_under_key_iff (fun key r hr => (hrows key r hr).1)
  obtain ⟨stats, hread⟩ := readRows_eq tbl view hrows hcheck hsample
  refine ⟨stats, hread.trans ?_⟩
  rw [hone]
  cases db.rows[key]? with
  | none => rfl
  | some stored =>
    rw [Option.toList_some, Option.bind_some, List.filterMap_cons]
    cases emittedRow compile tbl view env (singleKeyRead key filter) stored with
    | none | some => rfl

/-- Two rows with a cell each. -/
def twoRows : SqlRows :=
  ((∅ : SqlRows).insert [97] (Row.normalize ⟨[97],
    (∅ : GoMap Family).insert [102]
      ⟨0, [], (∅ : GoMap (List Cell)).insert [113] [⟨1000, [1], []⟩]⟩⟩)).insert
    [98] (Row.normalize ⟨[98], (∅ : GoMap Family).insert [102]
      ⟨0, [], (∅ : GoMap (List Cell)).insert [113] [⟨1000, [2], []⟩]⟩⟩)

/-- A reversed read of all keys above `a` and of the key `b` twice, with a
limit. -/
def readAbove : ReadRowsRequest :=
  ⟨some ⟨[[98], [98]], [⟨.opened [97], .unset⟩]⟩, .passAllFilter true, 5, true, .none⟩

end Emitting

end Bttest
end LittleBigtable
