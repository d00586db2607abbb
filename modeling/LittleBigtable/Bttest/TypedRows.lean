import LittleBigtable.Bttest.Replay

/-!
# Stored rows are typed

The cells of an HLL family hold sketches, and those of the other aggregate families eight
bytes, in every table that was created and then changed by successful calls: only
aggregate mutations write such cells, a family never changes its value type, and the data
of a dropped family is deleted.  Mutations that pass validation therefore never fail on a
stored row.
-/

namespace LittleBigtable
namespace Bttest

open Gsql List

section Types

/-- The values of the cells of an aggregate family: eight bytes, or a sketch. -/
def AggregateKind.Admits : AggregateKind → Bytes → Prop
  | .none, _ => True
  | .hll, value => ∃ h, decodeHLL value = .ok h
  | _, value => value.length = 8

/-- Every cell holds a value of the type of its family. -/
def Row.Typed (fams : Families) (r : Row) : Prop :=
  ∀ (fam : Bytes) (cf : ColumnFamily), fams[fam]? = some cf →
    ∀ col, ∀ c ∈ r.column fam col, (familyAggregate cf).Admits c.value

variable {fams : Families} {r : Row}

theorem Row.Typed.wellTyped (h : r.Typed fams) :
    r.WellTyped fams := by
  intro fam cf hcf hhll col c hc
  have hvalue := h fam cf hcf col c hc
  rw [hhll] at hvalue
  exact hvalue

theorem Row.Typed.of_sublist (h : r.Typed fams) {r' : Row}
    (hsub : ∀ fam col, (r'.column fam col).Sublist (r.column fam col)) :
    r'.Typed fams := by
  intro fam cf hcf col c hc
  exact h fam cf hcf col c ((hsub fam col).subset hc)

theorem newRow_typed (key : Bytes) :
    (newRow key).Typed fams := by
  intro fam cf _ col c hc
  simp at hc

theorem storedSketch_consistent {existing : Option Bytes} {sketch : HLL}
    (h : storedSketch existing = .ok sketch) :
    sketch.Consistent := by
  cases existing with
  | none =>
    cases h
    exact newHLL_consistent
  | some b =>
    simp only [storedSketch] at h
    split at h
    · rename_i hdec
      cases h
      exact decodeHLL_consistent hdec
    · cases h

/-- Whatever the cell and the input hold, an aggregate value has its type. -/
theorem aggregateValue_admits {kind : AggregateKind} {existing : Option Bytes} {input : Value}
    {merge : Bool} {value : Bytes} (h : aggregateValue kind existing input merge = .ok value) :
    kind.Admits value := by
  unfold aggregateValue at h
  by_cases hhll : kind = .hll
  · subst hhll
    rw [if_pos rfl] at h
    split at h
    · cases h
    rename_i sketch hstored
    have hsketch := storedSketch_consistent hstored
    cases merge with
    | true =>
      rw [if_pos rfl] at h
      split at h
      · rename_i other hother
        cases h
        exact ⟨_, (hsketch.merge (decodeHLL_consistent hother)).decodeHLL_encode⟩
      · cases h
    | false =>
      cases h
      exact ⟨_, (hsketch.add _).decodeHLL_encode⟩
  · rw [if_neg hhll] at h
    have hlen : value.length = 8 := by
      cases existing with
      | none | some =>
        cases h
        exact length_encodeInt64 _
    cases kind with
    | none => trivial
    | hll => exact absurd rfl hhll
    | sum | min | max => exact hlen

end Types

section Mutations

variable {fams : Families} {g : Granularity} {r : Row}

theorem Row.Typed.setCell (hwt : r.Typed fams) {fam : Bytes} {cf : ColumnFamily}
    (hcf : fams[fam]? = some cf) (hnone : familyAggregate cf = .none) (order : Nat) (col : Bytes)
    (n : Cell) :
    (r.updateColumn fam order col (appendOrReplaceCell n)).Typed fams := by
  intro fam' cf' hcf' col' c hc
  rw [updateColumn_column] at hc
  split_ifs at hc with hpos
  · obtain ⟨rfl, rfl⟩ := hpos
    rw [hcf] at hcf'
    cases hcf'
    rw [hnone]
    trivial
  · exact hwt fam' cf' hcf' col' c hc

/-- An applicable aggregate mutation of a typed row succeeds, and leaves a typed row. -/
theorem applyAggregate_typed (hwf : r.WellFormed fams g) (hwt : r.Typed fams) {family : Bytes}
    (qualifier : Value) {timestamp input : Value} {origin : TimestampOrigin} {merge : Bool}
    (happ : AggregateApplicable fams g origin family timestamp input merge) :
    ∃ r',
      applyAggregate r (familyOf fams family) family qualifier timestamp input g
        origin merge = .ok r' ∧
      r'.Typed fams := by
  obtain ⟨r', cf, value, hr', hcf, hvalue, rfl, _, _⟩ :=
    applyAggregate_total hwf hwt.wellTyped qualifier happ
  refine ⟨_, hr', fun fam cf' hcf' col c hc => ?_⟩
  rw [updateColumn_column] at hc
  split_ifs at hc with hpos
  · obtain ⟨rfl, rfl⟩ := hpos
    rw [hcf] at hcf'
    cases hcf'
    rw [storeAggregate_eq] at hc
    rcases mem_appendOrReplaceCell (hwf.strict fam _) hc with rfl | hold
    · exact aggregateValue_admits hvalue
    · exact hwt fam cf hcf _ c hold
  · exact hwt fam cf' hcf' col c hc

/-- An applicable mutation of a typed row succeeds, and leaves a typed row. -/
theorem applyMutation_total (hwf : r.WellFormed fams g) (hwt : r.Typed fams) {now : Int}
    {m : Mutation} (happ : m.Applicable fams g now) :
    ∃ r' changes, applyMutation fams g now r m = .ok (r', changes) ∧ r'.Typed fams := by
  obtain ⟨kind, origin⟩ := m
  cases kind with
  | none => cases happ
  | some kind =>
    cases kind with
    | setCell fam col ts value =>
      obtain ⟨cf, hcf, hnone, _⟩ := happ
      exact ⟨_, _, rfl, hwt.setCell hcf hnone _ _ _⟩
    | deleteFromColumn fam col timeRange =>
      refine ⟨_, _, rfl, hwt.of_sublist (fun fam' col' => ?_)⟩
      rw [deleteFromColumn_column]
      split_ifs with hpos
      · rw [hpos.1, hpos.2]
        exact filter_sublist
      · exact List.Sublist.refl _
    | deleteFromFamily fam =>
      refine ⟨_, _, rfl, hwt.of_sublist (fun fam' col' => ?_)⟩
      rw [eraseFamily_column]
      split_ifs
      · exact nil_sublist _
      · exact List.Sublist.refl _
    | deleteFromRow =>
      refine ⟨_, _, rfl, ?_⟩
      intro fam cf _ col c hc
      simp [Row.column] at hc
    | addToCell fam qualifier timestamp input =>
      obtain ⟨r', hr', htyped⟩ := applyAggregate_typed hwf hwt qualifier happ
      exact ⟨r', [⟨some (.addToCell fam qualifier timestamp input), origin⟩],
        by simp only [applyMutation, hr', Except.map], htyped⟩
    | mergeToCell fam qualifier timestamp input =>
      obtain ⟨r', hr', htyped⟩ := applyAggregate_typed hwf hwt qualifier happ
      exact ⟨r', [⟨some (.mergeToCell fam qualifier timestamp input), origin⟩],
        by simp only [applyMutation, hr', Except.map], htyped⟩

theorem applyMutations_total (hwf : r.WellFormed fams g) (hwt : r.Typed fams) {now : Int}
    {muts : List Mutation} (happ : ∀ m ∈ muts, m.Applicable fams g now) :
    ∃ r' changes, applyMutations fams g now r muts = .ok (r', changes) ∧ r'.Typed fams := by
  induction muts generalizing r with
  | nil => exact ⟨r, [], rfl, hwt⟩
  | cons m muts ih =>
    have hm := happ m (by simp)
    obtain ⟨r₁, changes₁, hfirst, hwt₁⟩ := applyMutation_total hwf hwt hm
    obtain ⟨r₂, changes₂, hrest, hwt₂⟩ := ih (hwf.applyMutation hm hfirst) hwt₁
      (fun m' hm' => happ m' (mem_cons_of_mem m hm'))
    exact ⟨r₂, changes₁ ++ changes₂, by simp only [applyMutations, hfirst, hrest], hwt₂⟩

theorem Row.WellFormed.family_of_cell (hwf : r.WellFormed fams g) {fam col : Bytes} {c : Cell}
    (hc : c ∈ r.column fam col) :
    ∃ cf, fams[fam]? = some cf := by
  cases hfam : r.families[fam]? with
  | none => simp [Row.column, hfam] at hc
  | some f =>
    obtain ⟨cf, hcf, _⟩ := hwf.schema fam f hfam
    exact ⟨cf, hcf⟩

end Mutations

section Staging

variable {tbl : Table} {rows : SqlRows}

/-- Every stored row is typed. -/
def RowsTyped (tbl : Table) (rows : SqlRows) : Prop :=
  ∀ (key : Bytes) (r : Row), rows[key]? = some r → r.Typed tbl.families

/-- A change that keeps well-formed rows typed. -/
def KeepsTyped {α : Type} (tbl : Table)
    (mutate : Row → Except Status (Row × List Mutation × α)) : Prop :=
  ∀ (r candidate : Row) (changes : List Mutation) (result : α),
    r.WellFormed tbl.families tbl.granularity → r.Typed tbl.families →
    mutate r = .ok (candidate, changes, result) →
    candidate.Typed tbl.families

/-- A staged commit holds the next state of its row, well formed and typed. -/
structure CommitTyped (tbl : Table) (key : Bytes) (c : RowCommit) : Prop where
  key_eq : c.after.key = key
  wellFormed : c.after.WellFormed tbl.families tbl.granularity
  typed : c.after.Typed tbl.families

variable {staged : GoMap RowCommit}

theorem storedRow_typed (htyped : RowsTyped tbl rows) (key : Bytes) :
    (storedRow rows key).Typed tbl.families := by
  unfold storedRow
  cases hrow : rows[key]? with
  | none => exact newRow_typed key
  | some r => exact htyped key r hrow

/-- A staging starts from a row that is well formed and typed. -/
theorem stageBase_typed {env : EntryEnv} {key : Bytes} {base before : Option Row}
    (hrows : RowsWellFormed tbl rows) (htyped : RowsTyped tbl rows)
    (hstaged : ∀ (k : Bytes) (c : RowCommit), staged[k]? = some c → CommitTyped tbl k c)
    (h : stageBase rows env staged key = .ok (base, before)) :
    (base.getD (newRow key)).WellFormed tbl.families tbl.granularity ∧
      (base.getD (newRow key)).Typed tbl.families := by
  refine ⟨(stageBase_wellFormed hrows
    (fun k c hc => ⟨(hstaged k c hc).key_eq, (hstaged k c hc).wellFormed⟩) h).2, ?_⟩
  rcases stageBase_eq_ok h with ⟨prev, hprev, hbase⟩ | ⟨_, hbase⟩
  · rw [hbase]
    exact (hstaged key prev hprev).typed
  · rw [hbase]
    exact storedRow_typed htyped key

/-- The next state of a row is typed. -/
theorem stage_typed {α : Type} {env : EntryEnv} {key : Bytes}
    {mutate : Row → Except Status (Row × List Mutation × α)} {c : RowCommit} {result : α}
    (hrows : RowsWellFormed tbl rows) (htyped : RowsTyped tbl rows)
    (hstaged : ∀ (k : Bytes) (c : RowCommit), staged[k]? = some c → CommitTyped tbl k c)
    (hwf : KeepsWellFormed tbl mutate) (hwt : KeepsTyped tbl mutate)
    (h : stage tbl rows env staged key mutate = .ok (c, result)) :
    CommitTyped tbl key c := by
  obtain ⟨hkey, hafter⟩ := stage_wellFormed hrows
    (fun k c hc => ⟨(hstaged k c hc).key_eq, (hstaged k c hc).wellFormed⟩) hwf h
  refine ⟨hkey, hafter, ?_⟩
  obtain ⟨base, before, candidate, changes, hbase, hcand, rfl⟩ := stage_eq_ok h
  obtain ⟨hbaseWf, hbaseWt⟩ := stageBase_typed hrows htyped hstaged hbase
  obtain ⟨_, hcandWf⟩ := hwf _ _ _ _ hbaseWf hcand
  rw [finishStage_eq hcandWf]
  refine (hwt _ _ _ _ hbaseWf hbaseWt hcand).of_sublist (fun fam col => ?_)
  rw [gcWithChanges_column hcandWf.normal]
  exact keptCells_sublist _ _ _ _

theorem keepsTyped_mutateWith (nowNanos : Nat) {muts : List Mutation}
    (hvalid : validateMutations muts tbl.families tbl.granularity = none) :
    KeepsTyped tbl (mutateWith tbl (newTimestamp nowNanos) muts) := by
  intro r candidate changes result hwf hwt h
  obtain ⟨⟨r', changes'⟩, happly, heq⟩ := exceptMap_eq_ok h
  cases heq
  obtain ⟨r'', _, happly', hwt'⟩ := applyMutations_total hwf hwt
    (applicable_of_validateMutations (newTimestamp_storable nowNanos) hvalid)
  rw [happly] at happly'
  cases happly'
  exact hwt'

theorem keepsTyped_checkAndMutate {compile : RegexpCompiler} {draw : List Nat → ℚ}
    {view : Option ViewPolicy} {nowNanos : Nat} {gcMicros : Int} {req : CheckAndMutateRowRequest} :
    KeepsTyped tbl (checkAndMutate compile draw tbl view (newTimestamp nowNanos) gcMicros req) := by
  intro r candidate changes matched hwf hwt h
  obtain ⟨_, ⟨_, rfl, _⟩ | ⟨hvalid, happly⟩⟩ := checkAndMutate_eq_ok h
  · exact hwt
  obtain ⟨r', _, happly', hwt'⟩ := applyMutations_total hwf hwt
    (applicable_of_validateMutations (newTimestamp_storable nowNanos) hvalid)
  rw [happly] at happly'
  cases happly'
  exact hwt'

theorem keepsTyped_readModifyWrite (nowNanos : Nat → Nat) (visibleMicros : Int)
    {req : ReadModifyWriteRowRequest} (hvalid : validateRules tbl.families 0 req.rules = none) :
    KeepsTyped tbl (readModifyWrite tbl nowNanos visibleMicros req) := by
  intro r candidate changes result _ hwt h
  obtain ⟨s', hs', heq⟩ := exceptMap_eq_ok h
  cases heq
  refine applyRules_invariant (fun s => s.row.Typed tbl.families) hs' hwt
    (fun rule hmem i s s₁ hs hrule => ?_)
  obtain ⟨cf, hcf, hagg, _⟩ := validateRules_valid 0 hvalid hmem
  unfold applyRule at hrule
  simp only at hrule
  split at hrule
  · cases hrule
  · cases hrule
    exact hs.setCell hcf hagg _ _ _

/-- Saving typed commits keeps the stored rows typed. -/
theorem RowsTyped.foldl_save {commits : List RowCommit} (htyped : RowsTyped tbl rows)
    (h : ∀ c ∈ commits, c.after.Typed tbl.families) :
    RowsTyped tbl (commits.foldl (fun rows c => rows.save c.after) rows) := by
  induction commits generalizing rows with
  | nil => exact htyped
  | cons c commits ih =>
    refine ih ?_ (fun c' hc' => h c' (mem_cons_of_mem c hc'))
    intro key r hr
    rw [save_getElem?] at hr
    split_ifs at hr
    · obtain ⟨_, rfl⟩ := persistedRow_eq_some.mp hr
      exact h c (by simp)
    · exact htyped key r hr

end Staging

section Calls

variable {tbl : Table} {db : Store}

theorem RowChange.keepsTyped {α : Type} {view : Option ViewPolicy} {key : Bytes}
    {mutate : Row → Except Status (Row × List Mutation × α)} (h : RowChange tbl view key mutate) :
    KeepsTyped tbl mutate := by
  cases h with
  | mutations nowNanos _ hvalid => exact keepsTyped_mutateWith nowNanos hvalid
  | conditional compile draw nowNanos micros _ _ =>
    exact keepsTyped_checkAndMutate
  | rules nowNanos micros _ hcheck =>
    exact keepsTyped_readModifyWrite nowNanos micros (readModifyWriteRowCheck_eq_none hcheck).2

theorem Written.rowsTyped {view : Option ViewPolicy} {reading : Int → Prop} {db' : Store}
    (h : Written tbl view db reading db') (hrows : RowsWellFormed tbl db.rows)
    (htyped : RowsTyped tbl db.rows) :
    RowsTyped tbl db'.rows := by
  have hstaged : ∀ {key c}, StagedBy tbl view db.rows reading key c → CommitTyped tbl key c := by
    intro key c hc
    induction hc with
    | stage _ hchange _ hstage ih =>
      exact stage_typed hrows htyped ih hchange.keepsWellFormed hchange.keepsTyped hstage
  obtain ⟨tx, commits, extra, hcommits, hextra, _, hpers⟩ := h.persists
  rw [persistWith_rows hextra hpers]
  refine htyped.foldl_save (fun c hc => ?_)
  obtain ⟨key, hc⟩ := hcommits c hc
  exact (hstaged hc).typed

/-- A family keeps its value type, and the data of a dropped family goes. -/
theorem modifyColumnFamilies_rowsTyped {protoSize : GcRule → Nat} {txFailure : Option Status}
    {mods : List Modification} {tbl' : Table} {db' : Store} (hrows : RowsWellFormed tbl db.rows)
    (htyped : RowsTyped tbl db.rows)
    (h : modifyColumnFamilies protoSize txFailure mods tbl db = (.ok (), tbl', db')) :
    RowsTyped tbl' db'.rows := by
  obtain ⟨s, hmods, rfl, hsurvive⟩ := modifyColumnFamilies_eq_ok hrows h
  have hkeeps : DraftKeepsField ColumnFamily.valueType tbl.families s :=
    applyModifications_keepsField (fun hpaths => (applyUpdatePaths_keeps hpaths).2)
      (fun fam cf hcf _ => ⟨cf, hcf, rfl⟩) hmods
  intro key r hr fam cf hcf col c hc
  obtain ⟨_, r₀, hr₀, rfl⟩ := bind_survivingRow_eq_some ((hsurvive key).symm.trans hr)
  obtain ⟨_, _, hwf⟩ := hrows key r₀ hr₀
  rw [dropFamilies_column] at hc
  split_ifs at hc with hdropped
  · cases hc
  obtain ⟨cf₀, hcf₀⟩ := hwf.family_of_cell hc
  obtain ⟨cf', hcf', htype⟩ := hkeeps fam cf₀ hcf₀ hdropped
  rw [hcf'] at hcf
  cases hcf
  have hvalue := htyped key r₀ hr₀ fam cf₀ hcf₀ col c hc
  unfold familyAggregate at hvalue ⊢
  rw [htype]
  exact hvalue

/-- Every successful call keeps the stored rows typed. -/
theorem call_rowsTyped (s : TableState) (c : Call) (s' : TableState)
    (hrows : RowsWellFormed s.tbl s.db.rows) (htyped : RowsTyped s.tbl s.db.rows)
    (h : s.call c = some s') :
    RowsTyped s'.tbl s'.db.rows := by
  rcases call_cases h with ⟨view, reading, htbl, hwritten⟩ | ⟨tx, target, htbl, hdrop⟩ |
    ⟨_, protoSize, txFailure, mods, hmodify⟩
  · rw [htbl]
    exact hwritten.rowsTyped hrows htyped
  · rw [htbl]
    exact fun key r hr => htyped key r (dropRowRange_rows hdrop hr)
  · exact modifyColumnFamilies_rowsTyped hrows htyped hmodify

/-- The rows of a created table are well formed and typed after any sequence of
successful calls. -/
theorem run_rowsTyped {columnFamilies : GoMap (Option GcRule × Option ValueType)} {g : Granularity}
    {changeStreamEnabled : Bool} {rowKeySchema : Option (List RowKeyField)}
    {tokens : GoMap (GoMap Int)} {changeLog : List ChangeRecord} {calls : List Call}
    {s : TableState}
    (h : Transition.run TableState.call
      ⟨newTable columnFamilies g changeStreamEnabled rowKeySchema,
        ⟨∅, tokens, changeLog⟩⟩ calls = some s) :
    RowsWellFormed s.tbl s.db.rows ∧ RowsTyped s.tbl s.db.rows := by
  refine Transition.invariant
    (fun s => RowsWellFormed s.tbl s.db.rows ∧ RowsTyped s.tbl s.db.rows) ?_ ?_ h
  · intro s c s' hs hcall
    exact ⟨call_rowsWellFormed s c s' hs.1 hcall, call_rowsTyped s c s' hs.1 hs.2 hcall⟩
  · refine ⟨fun key r hr => ?_, fun key r hr => ?_⟩
    · simp at hr
    · simp at hr

/-- In every table that was created and then changed by successful calls, the cells of
sum, min and max families hold eight bytes and those of HLL families hold sketches.  So
mutations that pass validation are applied to a row of the table without an error. -/
theorem aggregateCells_typed (columnFamilies : GoMap (Option GcRule × Option ValueType))
    (g : Granularity) (changeStreamEnabled : Bool) (rowKeySchema : Option (List RowKeyField))
    (tokens : GoMap (GoMap Int)) (changeLog : List ChangeRecord) (calls : List Call)
    (s : TableState)
    (hrun : Transition.run TableState.call
      ⟨newTable columnFamilies g changeStreamEnabled rowKeySchema,
        ⟨∅, tokens, changeLog⟩⟩ calls = some s) :
    (∀ (key : Bytes) (r : Row), s.db.rows[key]? = some r →
      ∀ (fam : Bytes) (cf : ColumnFamily), s.tbl.families[fam]? = some cf →
      ∀ col, ∀ c ∈ r.column fam col,
        (familyAggregate cf = .sum ∨ familyAggregate cf = .min ∨
          familyAggregate cf = .max → c.value.length = 8) ∧
        (familyAggregate cf = .hll → ∃ h, decodeHLL c.value = .ok h)) ∧
    (∀ (key : Bytes) (nowNanos : Nat) (muts : List Mutation),
      validateMutations muts s.tbl.families s.tbl.granularity = none →
      ∃ r changes, applyMutations s.tbl.families s.tbl.granularity
        (newTimestamp nowNanos) (s.db.rows[key]?.getD (newRow key)) muts = .ok (r, changes)) := by
  obtain ⟨hrows, htyped⟩ := run_rowsTyped hrun
  refine ⟨fun key r hr fam cf hcf col c hc => ?_, fun key nowNanos muts hvalid => ?_⟩
  · have hvalue := htyped key r hr fam cf hcf col c hc
    refine ⟨fun hkind => ?_, fun hkind => ?_⟩
    · rcases hkind with hkind | hkind | hkind
      · rwa [hkind] at hvalue
      · rwa [hkind] at hvalue
      · rwa [hkind] at hvalue
    · rwa [hkind] at hvalue
  · obtain ⟨r, changes, happly, _⟩ := applyMutations_total (storedRow_wellFormed hrows).1
      (storedRow_typed htyped key)
      (applicable_of_validateMutations (newTimestamp_storable nowNanos) hvalid)
    exact ⟨r, changes, happly⟩

/-- A write to a family of counters. -/
def addOne : Mutation :=
  .plain (.addToCell [102] (.rawValue [113]) (.rawTimestampMicros 1000) (.intValue 1))

/-- A counter is written once; a second addition is applied without an error. -/
theorem aggregateCells_typed_counter :
    ∃ s r changes,
      Transition.run TableState.call
        ⟨newTable ((∅ : GoMap (Option GcRule × Option ValueType)).insert [102]
          (none, some (.aggregate .sum true []))) ⟨false⟩ false none, ⟨∅, ∅, []⟩⟩
        [.mutateRow none 0 ⟨0, 0, none, none, 0⟩ ⟨0, fun _ => 0, none⟩
          ⟨[107], [addOne], none⟩] = some s ∧
      (s.db.rows[([107] : Bytes)]?).isSome ∧
      applyMutations s.tbl.families s.tbl.granularity (newTimestamp 0)
        (s.db.rows[([107] : Bytes)]?.getD (newRow [107])) [addOne] = .ok (r, changes) := by
  obtain ⟨s, hrun, hrow, hvalid⟩ : ∃ s,
      Transition.run TableState.call
        ⟨newTable ((∅ : GoMap (Option GcRule × Option ValueType)).insert [102]
          (none, some (.aggregate .sum true []))) ⟨false⟩ false none, ⟨∅, ∅, []⟩⟩
        [.mutateRow none 0 ⟨0, 0, none, none, 0⟩ ⟨0, fun _ => 0, none⟩
          ⟨[107], [addOne], none⟩] = some s ∧
      (s.db.rows[([107] : Bytes)]?).isSome ∧
      validateMutations [addOne] s.tbl.families s.tbl.granularity = none :=
    ⟨_, rfl, by decide +kernel, rfl⟩
  obtain ⟨r, changes, happly⟩ :=
    (aggregateCells_typed _ _ _ _ _ _ _ s hrun).2 [107] 0 [addOne] hvalid
  exact ⟨s, r, changes, hrun, hrow, happly⟩

end Calls

end Bttest
end LittleBigtable
