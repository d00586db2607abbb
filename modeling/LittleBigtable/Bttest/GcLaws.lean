import LittleBigtable.Bttest.ViewRestriction
import LittleBigtable.Lib.Retention

/-!
# The laws of garbage collection

A rule decides about a cell by its position in the column and by its timestamp.  Both
kinds of rules, and all unions and intersections of them, are closed: what stands before a
retained cell is retained, and what is retained later is retained now.  So a collection
cuts off the end of a column, and a later collection does not see an earlier one.
-/

namespace LittleBigtable
namespace Bttest

open StableSort List

section Eligible

mutual

/-- The rule makes the cell with this timestamp at position `i` eligible. -/
def GcRule.eligible (nowMicros : Int) (i : Nat) (ts : Int) :
    GcRule → Bool
  | .unset => false
  | .maxNumVersions n => decide (n ≤ (i : Int))
  | .maxAge micros => decide (ts < nowMicros - micros)
  | .union rules => GcRule.eligibleAny nowMicros i ts rules
  | .intersection [] => false
  | .intersection (rule :: rules) =>
    GcRule.eligible nowMicros i ts rule && GcRule.eligibleAll nowMicros i ts rules

def GcRule.eligibleAny (nowMicros : Int) (i : Nat) (ts : Int) :
    List GcRule → Bool
  | [] => false
  | rule :: rules => GcRule.eligible nowMicros i ts rule || GcRule.eligibleAny nowMicros i ts rules

def GcRule.eligibleAll (nowMicros : Int) (i : Nat) (ts : Int) :
    List GcRule → Bool
  | [] => true
  | rule :: rules => GcRule.eligible nowMicros i ts rule && GcRule.eligibleAll nowMicros i ts rules

end

theorem map_eq_mapIdx (cells : List Cell) (f : Cell → Bool) :
    cells.map f = cells.mapIdx (fun _ c => f c) := by
  refine ext_getElem (by simp) fun i hi _ => ?_
  simp

theorem zipWith_mapIdx (cells : List Cell) (f g : Nat → Cell → Bool) (op : Bool → Bool → Bool) :
    List.zipWith op (cells.mapIdx f) (cells.mapIdx g) =
      cells.mapIdx (fun i c => op (f i c) (g i c)) := by
  refine ext_getElem (by simp) fun i hi _ => ?_
  simp

mutual

/-- The flags of a column are those of its cells. -/
theorem gcDeletes_eq {cells : List Cell} {nowMicros : Int} :
    ∀ rule : GcRule, gcDeletes cells nowMicros rule =
      cells.mapIdx (fun i c => rule.eligible nowMicros i c.ts)
  | .unset => by
    simp only [gcDeletes, GcRule.eligible, map_eq_mapIdx]
  | .maxNumVersions n => by
    refine List.ext_getElem (by simp [gcDeletes]) fun i hi _ => ?_
    simp only [gcDeletes, GcRule.eligible, List.getElem_map, List.getElem_range,
      List.getElem_mapIdx]
  | .maxAge micros => by
    simp only [gcDeletes, GcRule.eligible, map_eq_mapIdx]
  | .union rules => by
    rw [gcDeletes, map_eq_mapIdx, gcDeletesUnion_eq rules]
    simp only [GcRule.eligible, Bool.false_or]
  | .intersection [] => by
    simp only [gcDeletes, GcRule.eligible, map_eq_mapIdx]
  | .intersection (rule :: rules) => by
    rw [gcDeletes, map_eq_mapIdx, gcDeletesIntersection_eq (rule :: rules)]
    simp only [GcRule.eligible, GcRule.eligibleAll, Bool.true_and]

theorem gcDeletesUnion_eq {cells : List Cell} {nowMicros : Int} :
    ∀ (rules : List GcRule) (f : Nat → Cell → Bool),
      gcDeletesUnion cells nowMicros (cells.mapIdx f) rules =
        cells.mapIdx (fun i c => f i c || GcRule.eligibleAny nowMicros i c.ts rules)
  | [], f => by
    simp only [gcDeletesUnion, GcRule.eligibleAny, Bool.or_false]
  | rule :: rules, f => by
    rw [gcDeletesUnion, gcDeletes_eq rule, zipWith_mapIdx,
      gcDeletesUnion_eq rules]
    simp only [GcRule.eligibleAny, Bool.or_assoc]

theorem gcDeletesIntersection_eq {cells : List Cell} {nowMicros : Int} :
    ∀ (rules : List GcRule) (f : Nat → Cell → Bool),
      gcDeletesIntersection cells nowMicros (cells.mapIdx f) rules =
        cells.mapIdx (fun i c => f i c && GcRule.eligibleAll nowMicros i c.ts rules)
  | [], f => by
    simp only [gcDeletesIntersection, GcRule.eligibleAll, Bool.and_true]
  | rule :: rules, f => by
    rw [gcDeletesIntersection, gcDeletes_eq rule, zipWith_mapIdx,
      gcDeletesIntersection_eq rules]
    simp only [GcRule.eligibleAll, Bool.and_assoc]

end

mutual

/-- What is eligible is eligible later, further back and with an earlier timestamp. -/
theorem eligible_mono {t₁ t₂ ts₁ ts₂ : Int} {i j : Nat} (ht : t₁ ≤ t₂) (hij : i ≤ j)
    (hts : ts₂ ≤ ts₁) :
    ∀ rule : GcRule, rule.eligible t₁ i ts₁ = true → rule.eligible t₂ j ts₂ = true
  | .unset => by
    simp only [GcRule.eligible, imp_self]
  | .maxNumVersions n => by
    simp only [GcRule.eligible, decide_eq_true_eq]
    omega
  | .maxAge micros => by
    simp only [GcRule.eligible, decide_eq_true_eq]
    omega
  | .union rules => by
    simp only [GcRule.eligible]
    exact eligibleAny_mono ht hij hts rules
  | .intersection [] => by
    simp only [GcRule.eligible, imp_self]
  | .intersection (rule :: rules) => by
    simp only [GcRule.eligible, Bool.and_eq_true]
    exact And.imp (eligible_mono ht hij hts rule) (eligibleAll_mono ht hij hts rules)

theorem eligibleAny_mono {t₁ t₂ ts₁ ts₂ : Int} {i j : Nat} (ht : t₁ ≤ t₂) (hij : i ≤ j)
    (hts : ts₂ ≤ ts₁) :
    ∀ rules : List GcRule, GcRule.eligibleAny t₁ i ts₁ rules = true →
      GcRule.eligibleAny t₂ j ts₂ rules = true
  | [] => by
    simp only [GcRule.eligibleAny, imp_self]
  | rule :: rules => by
    simp only [GcRule.eligibleAny, Bool.or_eq_true]
    exact Or.imp (eligible_mono ht hij hts rule) (eligibleAny_mono ht hij hts rules)

theorem eligibleAll_mono {t₁ t₂ ts₁ ts₂ : Int} {i j : Nat} (ht : t₁ ≤ t₂) (hij : i ≤ j)
    (hts : ts₂ ≤ ts₁) :
    ∀ rules : List GcRule, GcRule.eligibleAll t₁ i ts₁ rules = true →
      GcRule.eligibleAll t₂ j ts₂ rules = true
  | [] => by
    simp only [GcRule.eligibleAll, imp_self]
  | rule :: rules => by
    simp only [GcRule.eligibleAll, Bool.and_eq_true]
    exact And.imp (eligible_mono ht hij hts rule) (eligibleAll_mono ht hij hts rules)

end

end Eligible

section Columns

/-- The rule retains the cell at position `i`. -/
def GcRule.retains (rule : GcRule) (nowMicros : Int) (i : Nat) (c : Cell) : Bool :=
  !rule.eligible nowMicros i c.ts

theorem GcRule.retains_closed (rule : GcRule) (nowMicros : Int) :
    Retention.Closed (fun a b : Cell => b.ts ≤ a.ts) (rule.retains nowMicros) := by
  intro i j a b hij hts hb
  unfold GcRule.retains at hb ⊢
  rw [Bool.not_eq_true'] at hb ⊢
  by_contra ha
  rw [Bool.not_eq_false] at ha
  rw [eligible_mono le_rfl hij hts rule ha] at hb
  cases hb

theorem GcRule.retains_earlier (rule : GcRule) {t₁ t₂ : Int} (ht : t₁ ≤ t₂) (i : Nat) (c : Cell)
    (h : rule.retains t₂ i c = true) :
    rule.retains t₁ i c = true := by
  unfold GcRule.retains at h ⊢
  rw [Bool.not_eq_true'] at h ⊢
  by_contra hnow
  rw [Bool.not_eq_false] at hnow
  rw [eligible_mono ht le_rfl le_rfl rule hnow] at h
  cases h

theorem filter_zip_mapIdx (cells : List Cell) (p : Nat → Cell → Bool) (i : Nat) :
    ((cells.zip (cells.mapIdx (fun j c => !p (i + j) c))).filter
      (fun x => !x.2)).map Prod.fst = Retention.select p i cells := by
  induction cells generalizing i with
  | nil => rfl
  | cons c cells ih =>
    have hshift : (fun j c => !p (i + (j + 1)) c) = (fun j c => !p (i + 1 + j) c) := by
      funext j c
      rw [Nat.add_right_comm, Nat.add_assoc]
    rw [mapIdx_cons, zip_cons_cons, filter_cons, Retention.select,
      Nat.add_zero, Bool.not_not, hshift]
    split_ifs
    · rw [map_cons, ih (i + 1)]
    · exact ih (i + 1)

variable {cells : List Cell}

/-- A collection cuts the column. -/
theorem applyGCAt_fst_eq (hcells : Descending Cell.ts cells) (rule : GcRule) (nowMicros : Int) :
    (applyGCAt cells rule nowMicros).1 = Retention.cut (rule.retains nowMicros) 0 cells := by
  have hkept : ((cells.zip (gcDeletes cells nowMicros rule)).filter
      (fun x => !x.2)).map Prod.fst = Retention.cut (rule.retains nowMicros) 0 cells := by
    rw [← Retention.select_eq_cut (rule.retains_closed nowMicros) hcells,
      ← filter_zip_mapIdx, gcDeletes_eq]
    simp only [GcRule.retains, Bool.not_not, Nat.zero_add]
  rw [← hkept]
  unfold applyGCAt
  split_ifs with hnil
  · rw [hnil]
    rfl
  simp only
  split_ifs with hremoved
  · -- nothing is flagged, so the column is what is not flagged
    have hperm := perm_filter_zip cells (gcDeletes cells nowMicros rule)
      (length_gcDeletes rule)
    rw [hremoved, append_nil] at hperm
    exact ((map_fst_filter_zip_sublist _ _ _).eq_of_length hperm.length_eq).symm
  · rfl

theorem applyGCAt_snd_eq_nil {rule : GcRule} {nowMicros : Int}
    (h : (applyGCAt cells rule nowMicros).1 = cells) :
    (applyGCAt cells rule nowMicros).2 = [] := by
  have hlen := (applyGCAt_perm cells rule nowMicros).length_eq
  rw [h, length_append] at hlen
  exact length_eq_zero_iff.mp (by omega)

theorem applyGCAt_isPrefix (hcells : Descending Cell.ts cells) (rule : GcRule) (nowMicros : Int) :
    (applyGCAt cells rule nowMicros).1 <+: cells := by
  rw [applyGCAt_fst_eq hcells]
  exact Retention.cut_isPrefix 0 cells

theorem applyGCAt_applyGCAt (hcells : Descending Cell.ts cells) (rule : GcRule) {t₁ t₂ : Int}
    (ht : t₁ ≤ t₂) :
    (applyGCAt (applyGCAt cells rule t₁).1 rule t₂).1 = (applyGCAt cells rule t₂).1 := by
  have hkept : Descending Cell.ts (applyGCAt cells rule t₁).1 :=
    hcells.sublist (applyGCAt_fst_sublist cells rule t₁)
  rw [applyGCAt_fst_eq hkept, applyGCAt_fst_eq hcells, applyGCAt_fst_eq hcells]
  exact Retention.cut_cut (rule.retains_earlier ht) 0 cells

end Columns

section Rows

variable {r : Row}

/-- A row that is collected twice is collected once, at the later time. -/
theorem gc_gc (h : r.Normal) (rules : GoMap GcRule) {t₁ t₂ : Int} (ht : t₁ ≤ t₂) :
    (r.gc rules t₁).gc rules t₂ = r.gc rules t₂ := by
  have hnormal := gc_normal h rules t₁
  refine Row.Normal.ext (gc_normal hnormal rules t₂) (gc_normal h rules t₂) ?_ ?_ ?_
  · rw [gc_key, gc_key, gc_key]
  · intro fam col
    rw [gc_column hnormal, gc_column h, gc_column h]
    unfold keptCells
    cases rules[fam]? with
    | none => rfl
    | some rule => exact applyGCAt_applyGCAt (h.descending fam col) rule ht
  · intro fam f₁ f₂ hf₁ hf₂
    obtain ⟨f₃, hf₃, ho₁⟩ := gcWithChanges_order hf₁
    obtain ⟨f₄, hf₄, ho₂⟩ := gcWithChanges_order hf₃
    obtain ⟨f₅, hf₅, ho₃⟩ := gcWithChanges_order hf₂
    rw [hf₄] at hf₅
    cases hf₅
    rw [ho₁, ho₂, ho₃]

/-- For every rule, every column with descending timestamps and every time: the retained
cells are a prefix of the column, a second collection at the same time removes nothing,
and a collection at a later time retains what it retains of the whole column.  For every
row, the collection commutes with the restriction to a view. -/
theorem gc_laws (rule : GcRule) {cells : List Cell} (hcells : Descending Cell.ts cells)
    {t₁ t₂ : Int} (ht : t₁ ≤ t₂) (rules : GoMap GcRule) (p : ViewPolicy) (h : r.Normal) :
    (applyGCAt cells rule t₁).1 <+: cells ∧
      applyGCAt (applyGCAt cells rule t₁).1 rule t₁ = ((applyGCAt cells rule t₁).1, []) ∧
      (applyGCAt (applyGCAt cells rule t₁).1 rule t₂).1 = (applyGCAt cells rule t₂).1 ∧
      (r.gc rules t₁).gc rules t₂ = r.gc rules t₂ ∧
      (p.restrict r).gc rules t₁ = p.restrict (r.gc rules t₁) := by
  have hagain := applyGCAt_applyGCAt hcells rule (le_refl t₁)
  exact ⟨applyGCAt_isPrefix hcells rule t₁, Prod.ext hagain (applyGCAt_snd_eq_nil hagain),
    applyGCAt_applyGCAt hcells rule ht, gc_gc h rules ht, gc_restrict h rules t₁⟩

/-- One version, and no version older than five microseconds. -/
def youngAndSingle : GcRule :=
  .union [.maxNumVersions 1, .intersection [.maxAge 5]]

def twoVersions : List Cell :=
  [⟨2000, [1], []⟩, ⟨1000, [2], []⟩]

/-- Both versions in the only column of a row. -/
def twoVersionsRow : Row :=
  (⟨[1], (∅ : GoMap Family).insert [2]
    ⟨0, [], (∅ : GoMap (List Cell)).insert [3] twoVersions⟩⟩ : Row).normalize

/-- The first collection removes the older version, and the second one, later, the
other. -/
theorem gc_laws_two_versions :
    (applyGCAt twoVersions youngAndSingle 1000).1 = [⟨2000, [1], []⟩] ∧
      (applyGCAt (applyGCAt twoVersions youngAndSingle 1000).1 youngAndSingle 3000).1 = [] ∧
      ((twoVersionsRow.gc ((∅ : GoMap GcRule).insert [2] youngAndSingle) 1000).gc
        ((∅ : GoMap GcRule).insert [2] youngAndSingle) 3000).column [2] [3] = [] := by
  have hcells : Descending Cell.ts twoVersions := by
    unfold Descending
    decide
  have ht : (1000 : Int) ≤ 3000 := by decide
  have hnormal : twoVersionsRow.Normal := normalize_normal _
  have hlaws := gc_laws youngAndSingle hcells ht
    ((∅ : GoMap GcRule).insert [2] youngAndSingle) ⟨[1], [[]], ∅⟩ hnormal
  refine ⟨by decide, ?_, ?_⟩
  · rw [hlaws.2.2.1]
    decide
  · rw [hlaws.2.2.2.1]
    decide +kernel

/-- What a commit stores of a row shows at every later time what the row itself would show:
no read can tell that cells were collected when they were written. -/
theorem visibleRow_finishStage {tbl : Table} {env : EntryEnv} (h : r.Normal) {micros : Int}
    (ht : env.gcMicros ≤ micros) (view : Option ViewPolicy) (prev : Option RowCommit) (key : Bytes)
    (before : Option Row) (changes : List Mutation) :
    visibleRow tbl view micros (finishStage tbl env prev key before r changes).after =
      visibleRow tbl view micros r := by
  have hdrop := dropUnknownFamilies_normal tbl.families h
  have hafter : (finishStage tbl env prev key before r changes).after =
      (dropUnknownFamilies tbl.families r).gc tbl.gcRules env.gcMicros :=
    (gc_normal hdrop _ _).normalize_eq
  unfold visibleRow
  rw [hafter, dropUnknownFamilies_eq_self, gc_gc hdrop _ ht]
  -- the collection adds no family
  intro fam f hf
  obtain ⟨f₀, hf₀, _⟩ := gcWithChanges_order hf
  simp only [dropUnknownFamilies, Std.ExtTreeMap.getElem?_filter'] at hf₀
  exact (Option.filter_eq_some_iff.mp hf₀).2

/-- A table with the rule on the family of the row. -/
def youngAndSingleTable : Table :=
  newTable ((∅ : GoMap (Option GcRule × Option ValueType)).insert [2] (some youngAndSingle, none))
    ⟨false⟩ false none

theorem visibleRow_finishStage_two_versions :
    visibleRow youngAndSingleTable none 3000 (finishStage youngAndSingleTable
        ⟨0, 0, none, none, 1000⟩ none [1] none twoVersionsRow []).after =
      visibleRow youngAndSingleTable none 3000 twoVersionsRow :=
  visibleRow_finishStage (normalize_normal _) (by decide) none none [1] none []

end Rows

end Bttest
end LittleBigtable
