import LittleBigtable.Bttest.TypedRows
import LittleBigtable.Gsql.HllMerge

/-!
# The order of aggregate mutations

An aggregate mutation combines its input with the one cell at its position.  Sums, minima,
maxima and merges of sketches can be taken in any order, and mutations of different cells
do not see each other, so a list of aggregate mutations can be permuted.
-/

namespace LittleBigtable
namespace Bttest

open Gsql
open StrictDescending

section Values

/-- Integers of a message are `int64`. -/
def Value.InRange : Value → Prop
  | .intValue i => -2 ^ 63 ≤ i ∧ i < 2 ^ 63
  | _ => True

theorem decodeInt64_inRange (b : Bytes) :
    -2 ^ 63 ≤ decodeInt64 b ∧ decodeInt64 b < 2 ^ 63 := by
  unfold decodeInt64 wrap64
  omega

variable {input : Value} {x : Int} {merge : Bool}

theorem int64Input_inRange (h : input.InRange) :
    -2 ^ 63 ≤ (int64Input input).getD 0 ∧ (int64Input input).getD 0 < 2 ^ 63 := by
  cases input with
  | intValue i => exact h
  | rawValue b | bytesValue b =>
    simp only [int64Input]
    split_ifs
    · exact decodeInt64_inRange b
    · simp
  | _ => simp [int64Input]

/-- The operation of a family of numbers. -/
def AggregateKind.combine (kind : AggregateKind) (existing input : Int) : Int :=
  match kind with
  | .sum => wrap64 (existing + input)
  | .min => if input < existing then input else existing
  | .max => if input > existing then input else existing
  | _ => existing

/-- The number in a cell after one more input. -/
def AggregateKind.accumulate (kind : AggregateKind) (existing : Option Bytes) (input : Int) : Int :=
  match existing with
  | .none => input
  | .some b => kind.combine (if b.length = 8 then decodeInt64 b else 0) input

variable {kind : AggregateKind}

theorem aggregateValue_number (hkind : kind ≠ .hll) (existing : Option Bytes) (input : Value)
    (merge : Bool) :
    aggregateValue kind existing input merge =
      .ok (encodeInt64 (kind.accumulate existing ((int64Input input).getD 0))) := by
  unfold aggregateValue AggregateKind.accumulate AggregateKind.combine
  rw [if_neg hkind]
  cases existing with
  | none | some => rfl

theorem combine_inRange (kind : AggregateKind) {y : Int} (hx : -2 ^ 63 ≤ x ∧ x < 2 ^ 63)
    (hy : -2 ^ 63 ≤ y ∧ y < 2 ^ 63) :
    -2 ^ 63 ≤ kind.combine x y ∧ kind.combine x y < 2 ^ 63 := by
  cases kind with
  | sum =>
    simp only [AggregateKind.combine, wrap64]
    omega
  | min | max =>
    simp only [AggregateKind.combine]
    split_ifs
    · exact hy
    · exact hx
  | _ => exact hx

theorem combine_comm (hkind : kind = .sum ∨ kind = .min ∨ kind = .max) (x y : Int) :
    kind.combine x y = kind.combine y x := by
  rcases hkind with rfl | rfl | rfl
  · simp only [AggregateKind.combine, Int.add_comm]
  · simp only [AggregateKind.combine]
    split_ifs <;> omega
  · simp only [AggregateKind.combine]
    split_ifs <;> omega

theorem combine_right_comm (hkind : kind = .sum ∨ kind = .min ∨ kind = .max) (x y z : Int) :
    kind.combine (kind.combine x y) z = kind.combine (kind.combine x z) y := by
  rcases hkind with rfl | rfl | rfl
  · simp only [AggregateKind.combine, wrap64]
    omega
  · simp only [AggregateKind.combine]
    split_ifs <;> omega
  · simp only [AggregateKind.combine]
    split_ifs <;> omega

theorem accumulate_inRange {kind : AggregateKind} {existing : Option Bytes}
    (hx : -2 ^ 63 ≤ x ∧ x < 2 ^ 63) :
    -2 ^ 63 ≤ kind.accumulate existing x ∧ kind.accumulate existing x < 2 ^ 63 := by
  cases existing with
  | none => exact hx
  | some b =>
    refine combine_inRange kind ?_ hx
    split_ifs
    · exact decodeInt64_inRange b
    · simp

theorem accumulate_encodeInt64 {v : Int} (hlo : -2 ^ 63 ≤ v) (hhi : v < 2 ^ 63) (x : Int) :
    kind.accumulate (some (encodeInt64 v)) x = kind.combine v x := by
  simp only [AggregateKind.accumulate, length_encodeInt64, if_true, decodeInt64_encodeInt64 hlo hhi]

theorem accumulate_swap (hkind : kind = .sum ∨ kind = .min ∨ kind = .max) (existing : Option Bytes)
    {y : Int} (hx : -2 ^ 63 ≤ x ∧ x < 2 ^ 63) (hy : -2 ^ 63 ≤ y ∧ y < 2 ^ 63) :
    kind.accumulate (some (encodeInt64 (kind.accumulate existing x))) y =
      kind.accumulate (some (encodeInt64 (kind.accumulate existing y))) x := by
  obtain ⟨hxlo, hxhi⟩ := accumulate_inRange hx
  obtain ⟨hylo, hyhi⟩ := accumulate_inRange hy
  rw [accumulate_encodeInt64 hxlo hxhi, accumulate_encodeInt64 hylo hyhi]
  cases existing with
  | none => exact combine_comm hkind x y
  | some b => exact combine_right_comm hkind _ x y

/-- The sketch that a mutation of an HLL family merges. -/
def inputSketch (input : Value) (merge : Bool) : Except String HLL :=
  if merge then
    decodeHLL (rawBytesValue input)
  else
    .ok (sketchOf (hllHash ((hllInputBytes input).getD [])))

theorem inputSketch_consistent {o : HLL} (h : inputSketch input merge = .ok o) :
    o.Consistent := by
  cases merge with
  | true => exact decodeHLL_consistent h
  | false =>
    cases h
    exact sketchOf_consistent _

/-- An HLL cell after one more input. -/
theorem aggregateValue_hll_eq_ok_iff {existing : Option Bytes} {value : Bytes} :
    aggregateValue .hll existing input merge = .ok value ↔
      ∃ sketch o, storedSketch existing = .ok sketch ∧ inputSketch input merge = .ok o ∧
        value = (sketch.merge o).encode := by
  unfold aggregateValue inputSketch
  rw [if_pos rfl]
  cases hstored : storedSketch existing with
  | error st => simp
  | ok sketch =>
    cases merge with
    | true =>
      cases decodeHLL (rawBytesValue input) with
      | error e => simp
      | ok o => simp [eq_comm]
    | false => simp [HLL.add_eq_merge (storedSketch_consistent hstored), eq_comm]

/-- Two inputs of one cell can be exchanged. -/
theorem aggregateValue_swap (hkind : kind ≠ .none) {existing : Option Bytes} {input' : Value}
    (hinput : input.InRange) (hinput' : input'.InRange) {merge' : Bool} {v v' : Bytes}
    (h : aggregateValue kind existing input merge = .ok v)
    (h' : aggregateValue kind (some v) input' merge' = .ok v') :
    ∃ w, aggregateValue kind existing input' merge' = .ok w ∧
      aggregateValue kind (some w) input merge = .ok v' := by
  by_cases hhll : kind = .hll
  · subst hhll
    obtain ⟨sketch, o, hstored, ho, rfl⟩ := aggregateValue_hll_eq_ok_iff.mp h
    obtain ⟨sketch₁, o', hstored₁, ho', rfl⟩ := aggregateValue_hll_eq_ok_iff.mp h'
    have hsketch := storedSketch_consistent hstored
    have hread : ∀ o : HLL, o.Consistent →
        storedSketch (some (sketch.merge o).encode) = .ok (sketch.merge o) := by
      intro o hcons
      simp only [storedSketch, (hsketch.merge hcons).decodeHLL_encode]
    rw [hread o (inputSketch_consistent ho)] at hstored₁
    cases hstored₁
    refine ⟨(sketch.merge o').encode, aggregateValue_hll_eq_ok_iff.mpr
      ⟨sketch, o', hstored, ho', rfl⟩, aggregateValue_hll_eq_ok_iff.mpr
      ⟨sketch.merge o', o, hread o' (inputSketch_consistent ho'), ho, ?_⟩⟩
    rw [HLL.merge_right_comm hsketch (inputSketch_consistent ho) (inputSketch_consistent ho')]
  · have hnumber : kind = .sum ∨ kind = .min ∨ kind = .max := by
      cases kind with
      | none => exact absurd rfl hkind
      | hll => exact absurd rfl hhll
      | sum => exact .inl rfl
      | min => exact .inr (.inl rfl)
      | max => exact .inr (.inr rfl)
    rw [aggregateValue_number hhll] at h h'
    cases h
    cases h'
    refine ⟨_, aggregateValue_number hhll _ _ _, ?_⟩
    rw [aggregateValue_number hhll, accumulate_swap hnumber existing
      (int64Input_inRange hinput') (int64Input_inRange hinput)]

end Values

section Rows

variable {fams : Families} {g : Granularity} {r r₁ r₂ : Row}

/-- The position of a mutation of an aggregate family, and its input. -/
structure AggregateInput where
  family : Bytes
  column : Bytes
  ts : Int
  input : Value
  merge : Bool

/-- What an `AddToCell` or a `MergeToCell` does, and where. -/
def Mutation.aggregateInput (g : Granularity) (m : Mutation) : Option AggregateInput :=
  match m.mutation with
  | some (.addToCell fam qualifier timestamp input) =>
    some ⟨fam, (valueQualifier qualifier).getD [],
      (g.resolve ((valueTimestamp timestamp).getD 0) m.timestampOrigin 0).1, input, false⟩
  | some (.mergeToCell fam qualifier timestamp input) =>
    some ⟨fam, (valueQualifier qualifier).getD [],
      (g.resolve ((valueTimestamp timestamp).getD 0) m.timestampOrigin 0).1, input, true⟩
  | _ => none

/-- An input for an aggregate family of the schema. -/
structure AggregateInput.Valid (fams : Families) (g : Granularity) (a : AggregateInput) : Prop where
  family : ∃ cf, fams[a.family]? = some cf ∧ familyAggregate cf ≠ .none
  storable : g.Storable a.ts
  inRange : a.input.InRange

/-- The row with a value stored at the position of the input. -/
def Row.storeValue (fams : Families) (r : Row) (a : AggregateInput) (value : Bytes) : Row :=
  r.updateColumn a.family (familyOf fams a.family).order a.column (storeAggregate a.ts value)

/-- The row after one input. -/
def Row.Combines (fams : Families) (r : Row) (a : AggregateInput) (r' : Row) : Prop :=
  ∃ value,
    aggregateValue (familyAggregate (familyOf fams a.family))
      ((r.cellAt a.family a.column a.ts).map Cell.value) a.input a.merge = .ok value ∧
    r' = r.storeValue fams a value

theorem applyAggregate_eq_ok_iff {cf : ColumnFamily} {fam : Bytes}
    {qualifier timestamp input : Value} {origin : TimestampOrigin} {merge : Bool} {r' : Row} :
    applyAggregate r cf fam qualifier timestamp input g origin merge = .ok r' ↔
      ∃ value,
        aggregateValue (familyAggregate cf)
          ((r.cellAt fam ((valueQualifier qualifier).getD [])
            (g.resolve ((valueTimestamp timestamp).getD 0) origin 0).1).map
              Cell.value) input merge = .ok value ∧
        r' = r.updateColumn fam cf.order ((valueQualifier qualifier).getD [])
          (storeAggregate (g.resolve ((valueTimestamp timestamp).getD 0) origin 0).1 value) := by
  refine ⟨applyAggregate_eq_ok, ?_⟩
  rintro ⟨value, hvalue, rfl⟩
  unfold applyAggregate
  unfold Row.cellAt lookup at hvalue
  simp only [hvalue]

theorem applyMutation_eq_ok_iff_combines {now : Int} {m : Mutation} {a : AggregateInput}
    (ha : m.aggregateInput g = some a) {r' : Row} :
    (∃ changes, applyMutation fams g now r m = .ok (r', changes)) ↔
      r.Combines fams a r' := by
  obtain ⟨kind, origin⟩ := m
  unfold Mutation.aggregateInput at ha
  split at ha
  · rename_i fam qualifier timestamp input hkind
    cases ha
    dsimp only at hkind
    subst hkind
    refine Iff.trans ?_ applyAggregate_eq_ok_iff
    simp only [applyMutation]
    cases applyAggregate r (familyOf fams fam) fam qualifier timestamp input g origin false
      <;> simp [Except.map]
  · rename_i fam qualifier timestamp input hkind
    cases ha
    dsimp only at hkind
    subst hkind
    refine Iff.trans ?_ applyAggregate_eq_ok_iff
    simp only [applyMutation]
    cases applyAggregate r (familyOf fams fam) fam qualifier timestamp input g origin true
      <;> simp [Except.map]
  · cases ha

variable {a b : AggregateInput}

theorem Row.WellFormed.storeValue (hwf : r.WellFormed fams g) (ha : a.Valid fams g)
    (value : Bytes) :
    (r.storeValue fams a value).WellFormed fams g := by
  obtain ⟨cf, hcf, _⟩ := ha.family
  unfold Row.storeValue
  rw [familyOf_eq hcf]
  exact hwf.addCell hcf _ (storeAggregate_eq) ha.storable

theorem Row.WellFormed.storeValue_cellAt (hwf : r.WellFormed fams g) (a : AggregateInput)
    (value fam col : Bytes) (ts : Int) :
    (r.storeValue fams a value).cellAt fam col ts =
      if (fam = a.family ∧ col = a.column) ∧ a.ts = ts then
        some ⟨a.ts, value, ((r.cellAt a.family a.column a.ts).map Cell.labels).getD []⟩
      else
        r.cellAt fam col ts :=
  hwf.addCell_cellAt _ (storeAggregate_eq) fam col ts

/-- The inputs are for the same cell. -/
def AggregateInput.SameCell (a b : AggregateInput) : Prop :=
  (b.family = a.family ∧ b.column = a.column) ∧ a.ts = b.ts

/-- Of two values for one cell, the last one stays. -/
theorem Row.WellFormed.storeValue_storeValue (hwf : r.WellFormed fams g) (ha : a.Valid fams g)
    (hb : b.Valid fams g) (hsame : a.SameCell b) (v w last : Bytes) :
    (r.storeValue fams a v).storeValue fams b last =
      (r.storeValue fams b w).storeValue fams a last := by
  have hwfa := hwf.storeValue ha v
  have hwfb := hwf.storeValue hb w
  refine (hwfa.storeValue hb last).ext (hwfb.storeValue ha last) (by simp [Row.storeValue])
    fun fam col ts => ?_
  rw [hwfa.storeValue_cellAt, hwfb.storeValue_cellAt, hwf.storeValue_cellAt,
    hwf.storeValue_cellAt, hwf.storeValue_cellAt, hwf.storeValue_cellAt]
  obtain ⟨⟨hfam, hcol⟩, hts⟩ := hsame
  rw [hfam, hcol, ← hts]
  simp only [and_self, if_true, Option.map_some, Option.getD_some]
  split_ifs <;> rfl

/-- Values of different cells can be stored in any order. -/
theorem Row.WellFormed.storeValue_comm (hwf : r.WellFormed fams g) (ha : a.Valid fams g)
    (hb : b.Valid fams g) (hother : ¬ a.SameCell b) (v w : Bytes) :
    (r.storeValue fams a v).storeValue fams b w = (r.storeValue fams b w).storeValue fams a v := by
  have hwfa := hwf.storeValue ha v
  have hwfb := hwf.storeValue hb w
  have hother' : ¬ ((a.family = b.family ∧ a.column = b.column) ∧ b.ts = a.ts) := by
    rintro ⟨⟨hfam, hcol⟩, hts⟩
    exact hother ⟨⟨hfam.symm, hcol.symm⟩, hts.symm⟩
  refine (hwfa.storeValue hb w).ext (hwfb.storeValue ha v) (by simp [Row.storeValue])
    fun fam col ts => ?_
  rw [hwfa.storeValue_cellAt, hwfb.storeValue_cellAt, hwf.storeValue_cellAt,
    hwf.storeValue_cellAt, hwf.storeValue_cellAt, hwf.storeValue_cellAt,
    if_neg (show ¬ ((b.family = a.family ∧ b.column = a.column) ∧ a.ts = b.ts) from hother),
    if_neg hother']
  split_ifs with hposb hposa
  · obtain ⟨⟨rfl, rfl⟩, rfl⟩ := hposb
    exact absurd hposa hother
  · rfl
  · rfl
  · rfl

/-- Two inputs can be exchanged. -/
theorem Row.Combines.swap (hwf : r.WellFormed fams g) (ha : a.Valid fams g) (hb : b.Valid fams g)
    (h : r.Combines fams a r₁) (h' : r₁.Combines fams b r₂) :
    ∃ r₁', r.Combines fams b r₁' ∧ r₁'.Combines fams a r₂ := by
  obtain ⟨v, hv, rfl⟩ := h
  obtain ⟨v', hv', rfl⟩ := h'
  rw [hwf.storeValue_cellAt] at hv'
  by_cases hsame : a.SameCell b
  · obtain ⟨cf, hcf, hkind⟩ := ha.family
    rw [← familyOf_eq hcf] at hkind
    obtain ⟨⟨hfam, hcol⟩, hts⟩ := hsame
    rw [if_pos ⟨⟨hfam, hcol⟩, hts⟩, hfam] at hv'
    obtain ⟨w, hw, hw'⟩ := aggregateValue_swap hkind ha.inRange hb.inRange hv hv'
    refine ⟨r.storeValue fams b w, ⟨w, ?_, rfl⟩, ⟨v', ?_, ?_⟩⟩
    · rw [hfam, hcol, ← hts]
      exact hw
    · rw [hwf.storeValue_cellAt, if_pos ⟨⟨hfam.symm, hcol.symm⟩, hts.symm⟩]
      exact hw'
    · exact hwf.storeValue_storeValue ha hb ⟨⟨hfam, hcol⟩, hts⟩ v w v'
  · have hother : ¬ ((b.family = a.family ∧ b.column = a.column) ∧ a.ts = b.ts) := hsame
    rw [if_neg hother] at hv'
    refine ⟨r.storeValue fams b v', ⟨v', hv', rfl⟩, ⟨v, ?_, ?_⟩⟩
    · rw [hwf.storeValue_cellAt, if_neg]
      · exact hv
      · rintro ⟨⟨hfam, hcol⟩, hts⟩
        exact hsame ⟨⟨hfam.symm, hcol.symm⟩, hts.symm⟩
    · exact hwf.storeValue_comm ha hb hsame v v'

end Rows

section Lists

variable {fams : Families} {g : Granularity} {r : Row}

/-- An `AddToCell` or `MergeToCell` that passes validation, with an `int64` where it
carries an integer. -/
structure Mutation.ValidAggregate (fams : Families) (g : Granularity) (m : Mutation) : Prop where
  aggregate : (∃ fam qualifier timestamp input,
      m.mutation = some (.addToCell fam qualifier timestamp input) ∧ input.InRange) ∨
    ∃ fam qualifier timestamp input,
      m.mutation = some (.mergeToCell fam qualifier timestamp input) ∧ input.InRange
  valid : validateMutation m fams g = none

theorem validateAggregateMutation_kind {family : Bytes} {qualifier timestamp input : Value}
    {origin : TimestampOrigin} {merge : Bool}
    (h : validateAggregateMutation family qualifier timestamp input fams g origin merge = none) :
    ∃ cf, fams[family]? = some cf ∧ familyAggregate cf ≠ .none := by
  unfold validateAggregateMutation at h
  cases hcf : fams[family]? with
  | none => simp [hcf] at h
  | some cf =>
    simp only [hcf] at h
    refine ⟨cf, rfl, fun hnone => ?_⟩
    rw [if_pos hnone] at h
    cases h

variable {m : Mutation}

/-- A valid aggregate mutation is an input for one cell. -/
theorem Mutation.ValidAggregate.exists_input (h : m.ValidAggregate fams g) :
    ∃ a, m.aggregateInput g = some a ∧ a.Valid fams g := by
  obtain ⟨kind, origin⟩ := m
  obtain ⟨⟨fam, qualifier, timestamp, input, hkind, hrange⟩ |
    ⟨fam, qualifier, timestamp, input, hkind, hrange⟩, hvalid⟩ := h
  · dsimp only at hkind
    subst hkind
    obtain ⟨_, _, hstorable, _⟩ := aggregateApplicable_of_validate hvalid
    exact ⟨_, rfl, validateAggregateMutation_kind hvalid, hstorable, hrange⟩
  · dsimp only at hkind
    subst hkind
    obtain ⟨_, _, hstorable, _⟩ := aggregateApplicable_of_validate hvalid
    exact ⟨_, rfl, validateAggregateMutation_kind hvalid, hstorable, hrange⟩

theorem Mutation.ValidAggregate.applicable (h : m.ValidAggregate fams g) (now : Int) :
    m.Applicable fams g now := by
  obtain ⟨kind, origin⟩ := m
  obtain ⟨⟨fam, qualifier, timestamp, input, hkind, _⟩ |
    ⟨fam, qualifier, timestamp, input, hkind, _⟩, hvalid⟩ := h
  · dsimp only at hkind
    subst hkind
    exact aggregateApplicable_of_validate hvalid
  · dsimp only at hkind
    subst hkind
    exact aggregateApplicable_of_validate hvalid

/-- The row that a list of mutations leaves. -/
def Row.Reaches (fams : Families) (g : Granularity) (now : Int) (r : Row) (muts : List Mutation)
    (r' : Row) : Prop :=
  ∃ changes, applyMutations fams g now r muts = .ok (r', changes)

theorem Row.reaches_cons_iff {now : Int} {muts : List Mutation} {r' : Row} :
    r.Reaches fams g now (m :: muts) r' ↔
      ∃ r₁, (∃ changes, applyMutation fams g now r m = .ok (r₁, changes)) ∧
        r₁.Reaches fams g now muts r' := by
  constructor
  · rintro ⟨changes, h⟩
    obtain ⟨r₁, changes₁, changes₂, hfirst, hrest, _⟩ := applyMutations_cons_eq_ok h
    exact ⟨r₁, ⟨changes₁, hfirst⟩, changes₂, hrest⟩
  · rintro ⟨r₁, ⟨changes₁, hfirst⟩, changes₂, hrest⟩
    exact ⟨changes₁ ++ changes₂, by simp only [applyMutations, hfirst, hrest]⟩

theorem Row.Reaches.perm {now : Int} {muts muts' : List Mutation} (hperm : muts.Perm muts')
    (hmuts : ∀ m ∈ muts, m.ValidAggregate fams g) (hwf : r.WellFormed fams g) {r' : Row}
    (h : r.Reaches fams g now muts r') :
    r.Reaches fams g now muts' r' := by
  induction hperm generalizing r with
  | nil => exact h
  | cons m _ ih =>
    obtain ⟨r₁, hfirst, hrest⟩ := Row.reaches_cons_iff.mp h
    obtain ⟨a, ha, hvalid⟩ := (hmuts m List.mem_cons_self).exists_input
    obtain ⟨value, _, rfl⟩ := (applyMutation_eq_ok_iff_combines ha).mp hfirst
    exact Row.reaches_cons_iff.mpr ⟨_, hfirst,
      ih (fun m' hm' => hmuts m' (List.mem_cons_of_mem m hm')) (hwf.storeValue hvalid value) hrest⟩
  | swap m m' muts =>
    obtain ⟨r₁, hfirst, hrest⟩ := Row.reaches_cons_iff.mp h
    obtain ⟨r₂, hsecond, hrest⟩ := Row.reaches_cons_iff.mp hrest
    obtain ⟨a, ha, hvalid⟩ := (hmuts m' (by simp)).exists_input
    obtain ⟨b, hb, hvalid'⟩ := (hmuts m (by simp)).exists_input
    have hcombines := (applyMutation_eq_ok_iff_combines ha).mp hfirst
    have hcombines' := (applyMutation_eq_ok_iff_combines hb).mp hsecond
    obtain ⟨r₁', hswap, hswap'⟩ := hcombines.swap hwf hvalid hvalid' hcombines'
    exact Row.reaches_cons_iff.mpr ⟨r₁', (applyMutation_eq_ok_iff_combines hb).mpr hswap,
      Row.reaches_cons_iff.mpr ⟨r₂, (applyMutation_eq_ok_iff_combines ha).mpr hswap', hrest⟩⟩
  | trans hperm _ ih ih' =>
    exact ih' (fun m hm => hmuts m (hperm.mem_iff.mpr hm)) hwf (ih hmuts hwf h)

/-- A family of sums and a family of sketches. -/
def sumAndSketch : Families :=
  ((∅ : Families).insert [102] ⟨0, none, some (.aggregate .sum true [])⟩).insert [104]
    ⟨1, none, some (.aggregate .hllppUniqueCount false [])⟩

/-- An input for each of the two families. -/
def inputForBoth : List Mutation :=
  [.plain (.addToCell [102] (.rawValue [113]) (.rawTimestampMicros 1000) (.intValue 1)),
    .plain (.addToCell [104] (.rawValue [113]) (.rawTimestampMicros 1000) (.stringValue [120]))]

end Lists

end Bttest
end LittleBigtable
