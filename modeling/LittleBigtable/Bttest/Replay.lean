import LittleBigtable.Bttest.RowInvariant

/-!
# Replaying the change log

A consumer of a change stream applies the recorded mutations of a row, in log
order, to the row as it was before a request.  The recorded user mutations act on
each position (family, column, timestamp) by itself, so a replay agrees with the
persisted row at every position that was never garbage-collected.  What the
recorded deletions of the garbage collection do at the other positions decides
whether the replay yields the persisted row.
-/

namespace LittleBigtable
namespace Bttest

open Gsql
open StableSort
open StrictDescending

section Positions

variable {fams : Families} {g : Granularity} {r : Row}

theorem Row.WellFormed.ext {r₁ r₂ : Row} (h₁ : r₁.WellFormed fams g) (h₂ : r₂.WellFormed fams g)
    (hkey : r₁.key = r₂.key) (h : ∀ fam col ts, r₁.cellAt fam col ts = r₂.cellAt fam col ts) :
    r₁ = r₂ := by
  refine Row.Normal.ext h₁.normal h₂.normal hkey ?_ ?_
  · intro fam col
    exact (h₁.strict fam col).ext (h₂.strict fam col) (h fam col)
  intro fam f₁ f₂ hf₁ hf₂
  obtain ⟨cf₁, hcf₁, horder₁⟩ := h₁.schema fam f₁ hf₁
  obtain ⟨cf₂, hcf₂, horder₂⟩ := h₂.schema fam f₂ hf₂
  rw [hcf₁] at hcf₂
  cases hcf₂
  exact horder₁.trans horder₂.symm

theorem Row.WellFormed.addCell_cellAt (h : r.WellFormed fams g) {fam col : Bytes} (order : Nat)
    {change : List Cell → List Cell} {n : Cell}
    (hchange : change (r.column fam col) = appendOrReplaceCell n (r.column fam col))
    (fam' col' : Bytes)
    (ts : Int) :
    (r.updateColumn fam order col change).cellAt fam' col' ts =
      if (fam' = fam ∧ col' = col) ∧ n.ts = ts then
        some n
      else
        r.cellAt fam' col' ts := by
  unfold Row.cellAt
  rw [updateColumn_column]
  by_cases hpos : fam' = fam ∧ col' = col
  · obtain ⟨rfl, rfl⟩ := hpos
    simp only [true_and, if_true, hchange]
    exact lookup_appendOrReplaceCell (h.strict fam' col') n ts
  · simp [hpos]

/-- What a deletion does at a position. -/
def Mutation.deletesAt (m : Mutation) (fam col : Bytes) (ts : Int) : Bool :=
  match m.mutation with
  | some (.deleteFromColumn f c timeRange) => decide (f = fam ∧ c = col) && withinRange timeRange ts
  | some (.deleteFromFamily f) => decide (f = fam)
  | _ => false

/-- The mutation deletes from a column or a family. -/
def Mutation.IsDeletion (m : Mutation) : Prop :=
  match m.mutation with
  | some (.deleteFromColumn _ _ _) => True
  | some (.deleteFromFamily _) => True
  | _ => False

theorem Row.WellFormed.deleteFromColumn_cellAt (h : r.WellFormed fams g) (fam col : Bytes)
    (timeRange : Option TimestampRange) (fam' col' : Bytes) (ts : Int) :
    (Bttest.deleteFromColumn r fam col timeRange).cellAt fam' col' ts =
      if (fam = fam' ∧ col = col') ∧ withinRange timeRange ts = true then
        none
      else
        r.cellAt fam' col' ts := by
  unfold Row.cellAt
  rw [deleteFromColumn_column]
  by_cases hpos : fam' = fam ∧ col' = col
  · obtain ⟨rfl, rfl⟩ := hpos
    simp only [true_and, if_true]
    rw [(h.strict fam' col').lookup_filter]
    cases hcell : lookup Cell.ts ts (r.column fam' col') with
    | none => simp
    | some c =>
      have hts := ((h.strict fam' col').lookup_eq_some_iff.mp hcell).2
      simp only [Option.filter_some, outsideRange, hts]
      by_cases hin : withinRange timeRange ts = true
      · simp [hin]
      · simp [hin]
  · have hpos' : ¬ (fam = fam' ∧ col = col') := fun heq => hpos ⟨heq.1.symm, heq.2.symm⟩
    simp [hpos, hpos']

theorem eraseFamily_cellAt (r : Row) (fam fam' col : Bytes) (ts : Int) :
    ({ r with families := r.families.erase fam } : Row).cellAt fam' col ts =
      if fam = fam' then none else r.cellAt fam' col ts := by
  unfold Row.cellAt
  rw [eraseFamily_column]
  by_cases h : fam' = fam
  · subst h
    simp [lookup]
  · have h' : fam ≠ fam' := fun heq => h heq.symm
    simp [h, h']

/-- Applying a deletion deletes at the positions it names. -/
theorem applyMutation_deletion (h : r.WellFormed fams g) (now : Int) {m : Mutation}
    (hm : m.IsDeletion) :
    ∃ r',
      applyMutation fams g now r m = .ok (r', [m]) ∧
      r'.WellFormed fams g ∧
      r'.key = r.key ∧
      (∀ fam col, (r'.column fam col).Sublist (r.column fam col)) ∧
      ∀ fam col ts, r'.cellAt fam col ts =
        if m.deletesAt fam col ts then none else r.cellAt fam col ts := by
  obtain ⟨kind, origin⟩ := m
  cases kind with
  | none => cases hm
  | some kind =>
    cases kind with
    | deleteFromColumn fam col timeRange =>
      refine ⟨_, rfl, h.deleteFromColumn fam col timeRange,
        deleteFromColumn_key r fam col timeRange, ?_, ?_⟩
      · intro fam' col'
        rw [deleteFromColumn_column]
        split_ifs with hpos
        · obtain ⟨rfl, rfl⟩ := hpos
          exact List.filter_sublist
        · exact List.Sublist.refl _
      · intro fam' col' ts
        rw [h.deleteFromColumn_cellAt]
        simp [Mutation.deletesAt]
    | deleteFromFamily fam =>
      refine ⟨_, rfl, h.eraseFamily fam, rfl, ?_, ?_⟩
      · intro fam' col'
        rw [eraseFamily_column]
        split_ifs
        · exact List.nil_sublist _
        · exact List.Sublist.refl _
      · intro fam' col' ts
        rw [eraseFamily_cellAt]
        simp [Mutation.deletesAt]
    | setCell | deleteFromRow | addToCell | mergeToCell => cases hm

/-- Applying a list of deletions deletes at the positions they name. -/
theorem applyMutations_deletions (h : r.WellFormed fams g) (now : Int) (ms : List Mutation)
    (hms : ∀ m ∈ ms, m.IsDeletion) :
    ∃ r',
      applyMutations fams g now r ms = .ok (r', ms) ∧
      r'.WellFormed fams g ∧
      r'.key = r.key ∧
      (∀ fam col, (r'.column fam col).Sublist (r.column fam col)) ∧
      ∀ fam col ts, r'.cellAt fam col ts =
        if ms.any (fun m => m.deletesAt fam col ts) then
          none
        else
          r.cellAt fam col ts := by
  induction ms generalizing r with
  | nil => exact ⟨r, rfl, h, rfl, fun _ _ => List.Sublist.refl _, by simp⟩
  | cons m ms ih =>
    obtain ⟨r₁, hm, hwf₁, hkey₁, hsub₁, hcell₁⟩ := applyMutation_deletion h now (hms m (by simp))
    obtain ⟨r₂, hms', hwf₂, hkey₂, hsub₂, hcell₂⟩ :=
      ih hwf₁ (fun m' hm' => hms m' (List.mem_cons_of_mem m hm'))
    refine ⟨r₂, ?_, hwf₂, hkey₂.trans hkey₁, ?_, ?_⟩
    · simp [applyMutations, hm, hms']
    · exact fun fam col => (hsub₂ fam col).trans (hsub₁ fam col)
    intro fam col ts
    rw [hcell₂, hcell₁, List.any_cons]
    by_cases hdel : m.deletesAt fam col ts = true
    · simp [hdel]
    · simp [hdel]

end Positions

section Typed

variable {fams : Families} {g : Granularity} {r : Row}

/-- Every cell of an HLL family holds a sketch. -/
def Row.WellTyped (fams : Families) (r : Row) : Prop :=
  ∀ (fam : Bytes) (cf : ColumnFamily), fams[fam]? = some cf →
    familyAggregate cf = .hll →
    ∀ col, ∀ c ∈ r.column fam col, ∃ h, decodeHLL c.value = .ok h

theorem Row.WellTyped.of_sublist (h : r.WellTyped fams) {r' : Row}
    (hsub : ∀ fam col, (r'.column fam col).Sublist (r.column fam col)) :
    r'.WellTyped fams := by
  intro fam cf hcf hhll col c hc
  exact h fam cf hcf hhll col c ((hsub fam col).subset hc)

theorem newRow_wellTyped (key : Bytes) :
    (newRow key).WellTyped fams := by
  intro fam cf _ _ col c hc
  simp at hc

/-- An aggregate value can be computed from typed data, and is typed. -/
theorem aggregateValue_total {kind : AggregateKind} (existing : Option Bytes) (input : Value)
    (merge : Bool) (hexisting : ∀ b, existing = some b → kind = .hll → ∃ h, decodeHLL b = .ok h)
    (hinput : kind = .hll → merge = true → ∃ h, decodeHLL (rawBytesValue input) = .ok h) :
    ∃ value,
      aggregateValue kind existing input merge = .ok value ∧
      (kind = .hll → ∃ h, decodeHLL value = .ok h) := by
  unfold aggregateValue
  by_cases hhll : kind = .hll
  · subst hhll
    obtain ⟨sketch, hsketch, hcons⟩ : ∃ sketch,
        storedSketch existing = .ok sketch ∧ sketch.Consistent := by
      cases existing with
      | none => exact ⟨newHLL, rfl, newHLL_consistent⟩
      | some b =>
        obtain ⟨h, hdec⟩ := hexisting b rfl rfl
        exact ⟨h, by simp [storedSketch, hdec], decodeHLL_consistent hdec⟩
    simp only [if_true, hsketch]
    cases merge with
    | true =>
      obtain ⟨other, hother⟩ := hinput rfl rfl
      simp only [if_true, hother]
      exact ⟨_, rfl, fun _ => ⟨_, (hcons.merge (decodeHLL_consistent hother)).decodeHLL_encode⟩⟩
    | false => exact ⟨_, rfl, fun _ => ⟨_, (hcons.add _).decodeHLL_encode⟩⟩
  · simp only [hhll, if_false, false_implies]
    cases existing with
    | none | some => exact ⟨_, rfl, trivial⟩

/-- An applicable aggregate mutation of a typed row succeeds; it adds one cell,
whose value depends on the cell at its position only. -/
theorem applyAggregate_total (hwf : r.WellFormed fams g) (hwt : r.WellTyped fams) {family : Bytes}
    (qualifier : Value) {timestamp input : Value} {origin : TimestampOrigin} {merge : Bool}
    (happ : AggregateApplicable fams g origin family timestamp input merge) :
    ∃ r' cf value,
      applyAggregate r (familyOf fams family) family qualifier timestamp input g
        origin merge = .ok r' ∧
      fams[family]? = some cf ∧
      aggregateValue (familyAggregate cf)
        ((r.cellAt family ((valueQualifier qualifier).getD [])
          (g.resolve ((valueTimestamp timestamp).getD 0) origin 0).1).map
            Cell.value) input merge = .ok value ∧
      r' = r.updateColumn family cf.order ((valueQualifier qualifier).getD [])
        (storeAggregate (g.resolve ((valueTimestamp timestamp).getD 0) origin 0).1 value) ∧
      r'.WellFormed fams g ∧
      r'.WellTyped fams := by
  obtain ⟨cf, hcf, hstorable, hinput⟩ := happ
  generalize hcol : (valueQualifier qualifier).getD [] = col
  generalize hts : (g.resolve ((valueTimestamp timestamp).getD 0) origin 0).1 = ts at hstorable
  obtain ⟨value, hvalue, htyped⟩ := aggregateValue_total
    ((r.cellAt family col ts).map Cell.value) input merge
    (fun b hb hhll => by
      obtain ⟨c, hc, rfl⟩ := Option.map_eq_some_iff.mp hb
      exact hwt family cf hcf hhll col c ((hwf.strict family col).lookup_eq_some_iff.mp hc).1)
    hinput
  have happly : applyAggregate r (familyOf fams family) family qualifier
      timestamp input g origin merge =
        .ok (r.updateColumn family cf.order col (storeAggregate ts value)) := by
    unfold applyAggregate
    unfold Row.cellAt lookup at hvalue
    simp only [hcol, hts, familyOf_eq hcf, hvalue]
  refine ⟨_, cf, value, happly, hcf, hvalue, rfl, ?_, ?_⟩
  · exact hwf.addCell hcf col (storeAggregate_eq) hstorable
  intro fam cf' hcf' hhll col' c hc
  rw [updateColumn_column] at hc
  split_ifs at hc with hpos
  · obtain ⟨rfl, rfl⟩ := hpos
    rw [hcf] at hcf'
    cases hcf'
    rw [storeAggregate_eq] at hc
    rcases mem_appendOrReplaceCell (hwf.strict fam col') hc with rfl | hold
    · exact htyped hhll
    · exact hwt fam cf hcf hhll col' c hold
  · exact hwt fam cf' hcf' hhll col' c hc

theorem Row.WellTyped.setCell (hwt : r.WellTyped fams) {fam : Bytes} {cf : ColumnFamily}
    (hcf : fams[fam]? = some cf) (hnone : familyAggregate cf = .none) (order : Nat) (col : Bytes)
    (n : Cell) :
    (r.updateColumn fam order col (appendOrReplaceCell n)).WellTyped fams := by
  intro fam' cf' hcf' hhll col' c hc
  rw [updateColumn_column] at hc
  split_ifs at hc with hpos
  · obtain ⟨rfl, rfl⟩ := hpos
    rw [hcf] at hcf'
    cases hcf'
    rw [hnone] at hhll
    cases hhll
  · exact hwt fam' cf' hcf' hhll col' c hc

end Typed

section Locality

variable {fams : Families} {g : Granularity}

/-- Apply recorded mutations to a row.  Recorded timestamps are resolved, so the
clock does not matter. -/
def replay (fams : Families) (g : Granularity) (r : Row) (ms : List Mutation) : Except Status Row :=
  (applyMutations fams g 0 r ms).map Prod.fst

variable {ms changes : List Mutation} {agree : Bytes → Bytes → Int → Prop} {u base base' : Row}

theorem replay_eq_ok {r r' : Row} (h : applyMutations fams g 0 r ms = .ok (r', changes)) :
    replay fams g r ms = .ok r' := by
  simp [replay, h, Except.map]

/-- A replay continues from where a part of it ends. -/
theorem replay_append {r r' : Row} (h : replay fams g r ms = .ok r') (ms' : List Mutation) :
    replay fams g r (ms ++ ms') = replay fams g r' ms' := by
  induction ms generalizing r with
  | nil =>
    cases h
    rfl
  | cons m ms ih =>
    unfold replay applyMutations at h
    cases hm : applyMutation fams g 0 r m with
    | error st => simp [hm, Except.map] at h
    | ok x =>
      obtain ⟨r₁, changes₁⟩ := x
      have hrest : replay fams g r₁ ms = .ok r' := by
        unfold replay
        cases hms : applyMutations fams g 0 r₁ ms with
        | error st => simp [hm, hms, Except.map] at h
        | ok y =>
          obtain ⟨r₂, changes₂⟩ := y
          simpa [hm, hms, Except.map] using h
      rw [← ih hrest]
      unfold replay
      rw [List.cons_append, applyMutations, hm]
      simp only
      cases applyMutations fams g 0 r₁ (ms ++ ms') <;> rfl

/-- The rows agree at every position in `agree`. -/
def AgreeOn (agree : Bytes → Bytes → Int → Prop) (r₁ r₂ : Row) : Prop :=
  ∀ fam col ts, agree fam col ts → r₁.cellAt fam col ts = r₂.cellAt fam col ts

/-- `u` is a well-formed, typed row that agrees with `base` on `agree`: a replay
that is in step with the row of a request at these positions. -/
structure InStep (fams : Families) (g : Granularity) (agree : Bytes → Bytes → Int → Prop)
    (u base : Row) : Prop where
  wellFormed : u.WellFormed fams g
  wellTyped : u.WellTyped fams
  key : u.key = base.key
  agrees : AgreeOn agree u base

/-- An aggregate mutation acts on its position only. -/
theorem InStep.applyAggregate (h : InStep fams g agree u base) (hwf : base.WellFormed fams g)
    {family : Bytes} {qualifier timestamp input : Value} {origin : TimestampOrigin} {merge : Bool}
    (happ : AggregateApplicable fams g origin family timestamp input merge)
    (hbase : Bttest.applyAggregate base (familyOf fams family) family qualifier
      timestamp input g origin merge = .ok base') :
    ∃ u',
      Bttest.applyAggregate u (familyOf fams family) family qualifier timestamp
        input g origin merge = .ok u' ∧
      InStep fams g agree u' base' := by
  obtain ⟨u', cf, value, happly, hcf, hvalue, hu', hwfu', hwtu'⟩ :=
    applyAggregate_total h.wellFormed h.wellTyped qualifier happ
  obtain ⟨value', hvalue', hbase'⟩ := applyAggregate_eq_ok hbase
  rw [familyOf_eq hcf] at hvalue' hbase'
  refine ⟨u', happly, hwfu', hwtu', ?_, ?_⟩
  · rw [hu', hbase']
    exact h.key
  intro fam col ts hagree
  have hsame := h.agrees fam col ts hagree
  rw [hu', hbase', h.wellFormed.addCell_cellAt _ (storeAggregate_eq),
    hwf.addCell_cellAt _ (storeAggregate_eq)]
  split_ifs with hpos
  · -- at the position of the mutation both rows hold the same cell before
    obtain ⟨⟨rfl, rfl⟩, rfl⟩ := hpos
    rw [hsame] at hvalue
    rw [hvalue] at hvalue'
    cases hvalue'
    unfold Row.cellAt at hsame
    rw [hsame]
  · exact hsame

/-- The changes that a mutation records act on a replay as the mutation acts on
the row of the request. -/
theorem InStep.applyMutation (h : InStep fams g agree u base) (hwf : base.WellFormed fams g)
    {now : Int} {m : Mutation} (happ : m.Applicable fams g now)
    (hbase : Bttest.applyMutation fams g now base m = .ok (base', changes)) :
    ∃ u',
      replay fams g u changes = .ok u' ∧
      InStep fams g agree u' base' := by
  obtain ⟨kind, origin⟩ := m
  cases kind with
  | none => cases happ
  | some kind =>
    cases kind with
    | setCell fam col ts value =>
      obtain ⟨cf, hcf, hnone, hstorable⟩ := happ
      cases hbase
      generalize hts : (g.resolve ts origin now).1 = ts' at hstorable
      -- the recorded timestamp is resolved, so it is not resolved again
      have hresolve : (g.resolve ts' .unspecified 0).1 = ts' := by
        unfold Granularity.resolve
        rw [if_neg (by have := hstorable.1; omega)]
        simp
      refine ⟨u.updateColumn fam (familyOf fams fam).order col
        (appendOrReplaceCell ⟨ts', value, []⟩), ?_, ?_, ?_, h.key, ?_⟩
      · simp [replay, applyMutations, Bttest.applyMutation, Mutation.plain, hresolve, Except.map]
      · rw [familyOf_eq hcf]
        exact h.wellFormed.addCell hcf col rfl hstorable
      · exact h.wellTyped.setCell hcf hnone _ _ _
      · intro fam' col' t hagree
        rw [h.wellFormed.addCell_cellAt _ rfl, hwf.addCell_cellAt _ rfl,
          h.agrees fam' col' t hagree]
    | deleteFromColumn fam col timeRange =>
      cases hbase
      obtain ⟨u', hu', hwfu', hkey, hsub, hcell⟩ :=
        applyMutations_deletions h.wellFormed 0
          [⟨some (.deleteFromColumn fam col timeRange), origin⟩]
          (by simp [Mutation.IsDeletion])
      refine ⟨u', replay_eq_ok hu', hwfu', h.wellTyped.of_sublist hsub, ?_, ?_⟩
      · rw [hkey, h.key, deleteFromColumn_key]
      · intro fam' col' t hagree
        rw [hcell, hwf.deleteFromColumn_cellAt, h.agrees fam' col' t hagree]
        simp [Mutation.deletesAt]
    | deleteFromFamily fam =>
      cases hbase
      obtain ⟨u', hu', hwfu', hkey, hsub, hcell⟩ :=
        applyMutations_deletions h.wellFormed 0
          [⟨some (.deleteFromFamily fam), origin⟩]
          (by simp [Mutation.IsDeletion])
      refine ⟨u', replay_eq_ok hu', hwfu', h.wellTyped.of_sublist hsub, ?_, ?_⟩
      · rw [hkey, h.key]
      · intro fam' col' t hagree
        rw [hcell, eraseFamily_cellAt, h.agrees fam' col' t hagree]
        simp [Mutation.deletesAt]
    | deleteFromRow =>
      cases hbase
      obtain ⟨u', hu', hwfu', hkey, hsub, hcell⟩ :=
        applyMutations_deletions h.wellFormed 0
          (base.sortedFamilies.map (fun fam => Mutation.plain (.deleteFromFamily fam.1)))
          (by
            intro m hm
            obtain ⟨fam, _, rfl⟩ := List.mem_map.mp hm
            trivial)
      refine ⟨u', replay_eq_ok hu', hwfu', h.wellTyped.of_sublist hsub, ?_, ?_⟩
      · rw [hkey, h.key]
      intro fam' col' t hagree
      have hnil : ({ base with families := ∅ } : Row).cellAt fam' col' t =
          none := by
        simp [Row.cellAt, Row.column, lookup]
      rw [hcell, hnil]
      split_ifs with hany
      · rfl
      -- a family without recorded deletion holds nothing to delete
      rw [h.agrees fam' col' t hagree]
      cases hfam : base.families[fam']? with
      | none => simp [Row.cellAt, Row.column, hfam, lookup]
      | some f =>
        refine absurd ?_ hany
        rw [List.any_map, List.any_eq_true]
        exact ⟨(fam', f), mem_sortedFamilies.mpr hfam,
          by simp [Mutation.deletesAt, Mutation.plain]⟩
    | addToCell | mergeToCell =>
      obtain ⟨b, hb, heq⟩ := exceptMap_eq_ok hbase
      cases heq
      obtain ⟨u', hu', hstep⟩ := h.applyAggregate hwf happ hb
      refine ⟨u', ?_, hstep⟩
      simp [replay, applyMutations, Bttest.applyMutation, hu', Except.map]

/-- The recorded changes of a list of mutations act on a replay as the mutations
act on the row of the request. -/
theorem InStep.applyMutations (h : InStep fams g agree u base) (hwf : base.WellFormed fams g)
    {now : Int} (happ : ∀ m ∈ ms, m.Applicable fams g now)
    (hbase : Bttest.applyMutations fams g now base ms = .ok (base', changes)) :
    ∃ u',
      replay fams g u changes = .ok u' ∧
      InStep fams g agree u' base' := by
  induction ms generalizing u base changes with
  | nil =>
    cases hbase
    exact ⟨u, rfl, h⟩
  | cons m ms ih =>
    obtain ⟨base₁, changes₁, changes₂, hm, hms, rfl⟩ := applyMutations_cons_eq_ok hbase
    have happ₁ := happ m (by simp)
    obtain ⟨u₁, hu₁, hstep₁⟩ := h.applyMutation hwf happ₁ hm
    obtain ⟨u', hu', hstep'⟩ := ih hstep₁ (hwf.applyMutation happ₁ hm)
      (fun m' hm' => happ m' (List.mem_cons_of_mem m hm')) hms
    exact ⟨u', by rw [replay_append hu₁, hu'], hstep'⟩

end Locality

end Bttest
end LittleBigtable
