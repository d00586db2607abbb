import Mathlib.Data.List.Sort
import Mathlib.Order.Lattice

/-!
# Half-open ranges

A range has a start and may have an end, which it does not contain.  A list of ranges
stands for the union of its ranges.

`normalize` drops the empty ranges, sorts the others and merges those that touch.  It
keeps the union (`covers_normalize`), and its ranges lie apart in ascending order
(`apart_normalize`).  So the parts of a sorted list that lie in the ranges, taken range
by range, are the part that lies in the union, in order and without repetition
(`flatMap_part`).
-/

namespace HalfOpen

open List

universe u v

section Ranges

variable {α : Type u}

/-- The values from `start` on and below `stop`, if there is an end. -/
structure Range (α : Type u) where
  start : α
  stop : Option α
deriving DecidableEq

variable [LinearOrder α]

/-- The value is below the end. -/
def Below (k : α) : Option α → Prop
  | none => True
  | some e => k < e

instance (k : α) : (stop : Option α) → Decidable (Below k stop)
  | none => isTrue trivial
  | some e => inferInstanceAs (Decidable (k < e))

/-- The value is in the range. -/
def Range.Contains (r : Range α) (k : α) : Prop :=
  r.start ≤ k ∧ Below k r.stop

instance (r : Range α) (k : α) : Decidable (r.Contains k) :=
  inferInstanceAs (Decidable (_ ∧ _))

/-- The range has an end that is not above its start. -/
def Range.isEmpty (r : Range α) : Bool :=
  match r.stop with
  | none => false
  | some e => decide (e ≤ r.start)

/-- The comparison of two ends; no end is the greatest. -/
def compareStop : Option α → Option α → Ordering
  | none, none => .eq
  | none, some _ => .gt
  | some _, none => .lt
  | some a, some b => compare a b

/-- The value is in the union of the ranges. -/
def Covers (rs : List (Range α)) (k : α) : Prop :=
  ∃ r ∈ rs, r.Contains k

instance (rs : List (Range α)) (k : α) : Decidable (Covers rs k) :=
  inferInstanceAs (Decidable (∃ r ∈ rs, r.Contains k))

variable {k : α} {r : Range α}

@[simp] theorem covers_nil :
    ¬ Covers ([] : List (Range α)) k := by
  simp [Covers]

theorem covers_cons {rs : List (Range α)} :
    Covers (r :: rs) k ↔ r.Contains k ∨ Covers rs k := by
  simp [Covers]

theorem covers_singleton :
    Covers [r] k ↔ r.Contains k := by
  simp [Covers]

theorem covers_append {rs ts : List (Range α)} :
    Covers (rs ++ ts) k ↔ Covers rs k ∨ Covers ts k := by
  simp only [Covers, mem_append]
  constructor
  · rintro ⟨r, hr | hr, hk⟩
    · exact .inl ⟨r, hr, hk⟩
    · exact .inr ⟨r, hr, hk⟩
  · rintro (⟨r, hr, hk⟩ | ⟨r, hr, hk⟩)
    · exact ⟨r, .inl hr, hk⟩
    · exact ⟨r, .inr hr, hk⟩

theorem not_isEmpty_of_contains (h : r.Contains k) :
    r.isEmpty = false := by
  obtain ⟨hstart, hstop⟩ := h
  unfold Range.isEmpty
  cases hr : r.stop with
  | none => rfl
  | some e =>
    rw [hr] at hstop
    exact decide_eq_false (not_le.mpr (lt_of_le_of_lt hstart hstop))

/-- Below the greater of two ends is below one of them. -/
theorem below_or {a b : Option α} :
    Below k (if compareStop a b = .gt then a else b) ↔ Below k a ∨ Below k b := by
  cases a with
  | none => cases b <;> simp [compareStop, Below]
  | some a =>
    cases b with
    | none => simp [compareStop, Below]
    | some b =>
      simp only [compareStop, compare_gt_iff_gt]
      by_cases hab : a > b
      · rw [if_pos hab]
        exact ⟨.inl, fun h => h.elim id (fun hb => lt_trans hb hab)⟩
      · rw [if_neg hab]
        exact ⟨.inr, fun h => h.elim (fun ha => lt_of_lt_of_le ha (not_lt.mp hab)) id⟩

/-- Below the smaller of two ends is below both. -/
theorem below_and {a b : Option α} :
    Below k (if compareStop a b = .lt then a else b) ↔ Below k a ∧ Below k b := by
  cases a with
  | none => cases b <;> simp [compareStop, Below]
  | some a =>
    cases b with
    | none => simp [compareStop, Below]
    | some b =>
      simp only [compareStop, compare_lt_iff_lt]
      by_cases hab : a < b
      · rw [if_pos hab]
        exact ⟨fun h => ⟨h, lt_trans h hab⟩, fun h => h.1⟩
      · rw [if_neg hab]
        exact ⟨fun h => ⟨lt_of_lt_of_le h (not_lt.mp hab), h⟩, fun h => h.2⟩

end Ranges

section Normalize

variable {α : Type u} [LinearOrder α]

/-- The range starts inside or right behind the last one. -/
def touches (last r : Range α) : Bool :=
  match last.stop with
  | none => true
  | some e => decide (r.start ≤ e)

/-- The last range, extended by one that it touches. -/
def extend (last r : Range α) : Range α :=
  { last with stop := if compareStop r.stop last.stop = .gt then r.stop else last.stop }

/-- The ranges behind `last`, each merged into the last one if it touches it. -/
def mergeFrom (last : Range α) : List (Range α) → List (Range α)
  | [] => [last]
  | r :: rs =>
    if touches last r then
      mergeFrom (extend last r) rs
    else
      last :: mergeFrom r rs

def merge : List (Range α) → List (Range α)
  | [] => []
  | r :: rs => mergeFrom r rs

/-- The ranges that are not empty, sorted by their starts. -/
def sorted (rs : List (Range α)) : List (Range α) :=
  (rs.filter (fun r => !r.isEmpty)).insertionSort (fun a b => a.start ≤ b.start)

def normalize (rs : List (Range α)) : List (Range α) :=
  merge (sorted rs)

/-- The common part of two ranges. -/
def meet (x y : Range α) : Range α where
  start := if x.start < y.start then y.start else x.start
  stop := if compareStop y.stop x.stop = .lt then y.stop else x.stop

/-- The common parts of the ranges of two lists. -/
def intersect (xs ys : List (Range α)) : List (Range α) :=
  normalize (xs.flatMap (fun x => (ys.map (meet x)).filter (fun r => !r.isEmpty)))

variable (rs : List (Range α)) {k : α}

theorem pairwise_sorted :
    (sorted rs).Pairwise (fun a b => a.start ≤ b.start) := by
  have htotal : Std.Total (fun a b : Range α => a.start ≤ b.start) :=
    ⟨fun a b => le_total a.start b.start⟩
  have htrans : IsTrans (Range α) (fun a b => a.start ≤ b.start) := ⟨fun _ _ _ => le_trans⟩
  exact pairwise_insertionSort _ _

theorem covers_filter_isEmpty :
    Covers (rs.filter (fun r => !r.isEmpty)) k ↔ Covers rs k := by
  unfold Covers
  constructor
  · rintro ⟨r, hr, hk⟩
    exact ⟨r, mem_of_mem_filter hr, hk⟩
  rintro ⟨r, hr, hk⟩
  refine ⟨r, mem_filter.mpr ⟨hr, ?_⟩, hk⟩
  rw [not_isEmpty_of_contains hk]
  rfl

theorem covers_sorted :
    Covers (sorted rs) k ↔ Covers rs k := by
  rw [← covers_filter_isEmpty rs]
  unfold Covers sorted
  simp only [mem_insertionSort]

/-- Two ranges of which the second touches the first have one range as their union. -/
theorem contains_extend {last r : Range α} (hle : last.start ≤ r.start)
    (ht : touches last r = true) :
    (extend last r).Contains k ↔ last.Contains k ∨ r.Contains k := by
  unfold extend Range.Contains
  dsimp only
  rw [below_or]
  constructor
  · rintro ⟨hstart, hr | hlast⟩
    · by_cases hk : r.start ≤ k
      · exact .inr ⟨hk, hr⟩
      · refine .inl ⟨hstart, ?_⟩
        unfold touches at ht
        cases hstop : last.stop with
        | none => trivial
        | some e =>
          rw [hstop] at ht
          exact lt_of_lt_of_le (not_le.mp hk) (of_decide_eq_true ht)
    · exact .inl ⟨hstart, hlast⟩
  · rintro (⟨hstart, hlast⟩ | ⟨hstart, hr⟩)
    · exact ⟨hstart, .inr hlast⟩
    · exact ⟨le_trans hle hstart, .inl hr⟩

theorem covers_mergeFrom {last : Range α} {rs : List (Range α)}
    (hs : (last :: rs).Pairwise (fun a b => a.start ≤ b.start)) :
    Covers (mergeFrom last rs) k ↔ Covers (last :: rs) k := by
  induction rs generalizing last with
  | nil => rfl
  | cons r rs ih =>
    obtain ⟨hlast, hrs⟩ := pairwise_cons.mp hs
    have hr : last.start ≤ r.start := hlast r mem_cons_self
    unfold mergeFrom
    by_cases ht : touches last r = true
    · rw [if_pos ht, ih, covers_cons, covers_cons, covers_cons, contains_extend hr ht, or_assoc]
      exact pairwise_cons.mpr
        ⟨fun b hb => hlast b (mem_cons_of_mem r hb), (pairwise_cons.mp hrs).2⟩
    · rw [if_neg ht, covers_cons, ih hrs]
      exact covers_cons.symm

theorem covers_merge {rs : List (Range α)} (hs : rs.Pairwise (fun a b => a.start ≤ b.start)) :
    Covers (merge rs) k ↔ Covers rs k := by
  cases rs with
  | nil => rfl
  | cons r rs => exact covers_mergeFrom hs

/-- **The union stays.** -/
theorem covers_normalize {rs : List (Range α)} :
    Covers (normalize rs) k ↔ Covers rs k :=
  (covers_merge (pairwise_sorted rs)).trans (covers_sorted rs)

theorem contains_meet {x y : Range α} :
    (meet x y).Contains k ↔ x.Contains k ∧ y.Contains k := by
  unfold meet Range.Contains
  dsimp only
  rw [below_and]
  by_cases h : x.start < y.start
  · rw [if_pos h]
    constructor
    · rintro ⟨hy, hys, hxs⟩
      exact ⟨⟨le_trans h.le hy, hxs⟩, hy, hys⟩
    · rintro ⟨⟨_, hxs⟩, hy, hys⟩
      exact ⟨hy, hys, hxs⟩
  · rw [if_neg h]
    constructor
    · rintro ⟨hx, hys, hxs⟩
      exact ⟨⟨hx, hxs⟩, le_trans (not_lt.mp h) hx, hys⟩
    · rintro ⟨⟨hx, hxs⟩, _, hys⟩
      exact ⟨hx, hys, hxs⟩

/-- **The common parts make up the intersection of the unions.** -/
theorem covers_intersect {xs ys : List (Range α)} :
    Covers (intersect xs ys) k ↔ Covers xs k ∧ Covers ys k := by
  unfold intersect
  rw [covers_normalize]
  constructor
  · rintro ⟨r, hr, hk⟩
    obtain ⟨x, hx, hr⟩ := mem_flatMap.mp hr
    obtain ⟨y, hy, rfl⟩ := mem_map.mp (mem_of_mem_filter hr)
    obtain ⟨hxk, hyk⟩ := contains_meet.mp hk
    exact ⟨⟨x, hx, hxk⟩, y, hy, hyk⟩
  · rintro ⟨⟨x, hx, hxk⟩, y, hy, hyk⟩
    have hk : (meet x y).Contains k := contains_meet.mpr ⟨hxk, hyk⟩
    refine ⟨meet x y, mem_flatMap.mpr ⟨x, hx, mem_filter.mpr ⟨?_, ?_⟩⟩, hk⟩
    · exact mem_map_of_mem hy
    · rw [not_isEmpty_of_contains hk]
      rfl

end Normalize

section Apart

variable {α : Type u} [LinearOrder α]

/-- The first range ends before the second starts. -/
def Apart (a b : Range α) : Prop :=
  ∃ e, a.stop = some e ∧ e < b.start

theorem lt_of_apart {a b : Range α} (h : Apart a b) {i j : α} (hi : a.Contains i)
    (hj : b.Contains j) :
    i < j := by
  obtain ⟨e, he, hlt⟩ := h
  have hie := hi.2
  rw [he] at hie
  exact lt_trans hie (lt_of_lt_of_le hlt hj.1)

theorem start_le_of_mem_mergeFrom {last : Range α} {rs : List (Range α)}
    (hs : (last :: rs).Pairwise (fun a b => a.start ≤ b.start)) {r : Range α}
    (hr : r ∈ mergeFrom last rs) :
    last.start ≤ r.start := by
  induction rs generalizing last with
  | nil => rw [mem_singleton.mp hr]
  | cons x rs ih =>
    obtain ⟨hlast, hrs⟩ := pairwise_cons.mp hs
    unfold mergeFrom at hr
    by_cases ht : touches last x = true
    · rw [if_pos ht] at hr
      have hs : (extend last x :: rs).Pairwise (fun a b => a.start ≤ b.start) :=
        pairwise_cons.mpr ⟨fun b hb => hlast b (mem_cons_of_mem x hb),
          (pairwise_cons.mp hrs).2⟩
      have hstart : (extend last x).start ≤ r.start := ih hs hr
      exact hstart
    · rw [if_neg ht] at hr
      rcases mem_cons.mp hr with rfl | hr
      · exact le_refl _
      · exact le_trans (hlast x mem_cons_self) (ih hrs hr)

theorem apart_mergeFrom {last : Range α} {rs : List (Range α)}
    (hs : (last :: rs).Pairwise (fun a b => a.start ≤ b.start)) :
    (mergeFrom last rs).Pairwise Apart := by
  induction rs generalizing last with
  | nil => exact pairwise_singleton Apart last
  | cons x rs ih =>
    obtain ⟨hlast, hrs⟩ := pairwise_cons.mp hs
    unfold mergeFrom
    by_cases ht : touches last x = true
    · rw [if_pos ht]
      refine ih (pairwise_cons.mpr ⟨?_, (pairwise_cons.mp hrs).2⟩)
      exact fun b hb => hlast b (mem_cons_of_mem x hb)
    rw [if_neg ht]
    refine pairwise_cons.mpr ⟨?_, ih hrs⟩
    intro b hb
    -- a range that does not touch the last one starts behind its end
    unfold touches at ht
    cases hstop : last.stop with
    | none =>
      rw [hstop] at ht
      exact absurd rfl ht
    | some e =>
      rw [hstop] at ht
      have hlt : e < x.start := not_le.mp (fun h => ht (decide_eq_true h))
      exact ⟨e, hstop, lt_of_lt_of_le hlt (start_le_of_mem_mergeFrom hrs hb)⟩

theorem apart_merge {rs : List (Range α)} (hs : rs.Pairwise (fun a b => a.start ≤ b.start)) :
    (merge rs).Pairwise Apart := by
  cases rs with
  | nil => exact List.Pairwise.nil
  | cons r rs => exact apart_mergeFrom hs

/-- **Normalized ranges lie apart, in ascending order.** -/
theorem apart_normalize (rs : List (Range α)) :
    (normalize rs).Pairwise Apart :=
  apart_merge (pairwise_sorted rs)

theorem isEmpty_eq_false_iff {r : Range α} :
    r.isEmpty = false ↔ r.Contains r.start := by
  unfold Range.isEmpty Range.Contains
  cases r.stop <;> simp [Below]

/-- Merging leaves no empty range. -/
theorem contains_start_of_mem_mergeFrom {last : Range α} {rs : List (Range α)}
    (hrs : ∀ r ∈ last :: rs, r.Contains r.start) :
    ∀ r ∈ mergeFrom last rs, r.Contains r.start := by
  induction rs generalizing last with
  | nil => exact hrs
  | cons x rs ih =>
    obtain ⟨hlast, hrs⟩ := forall_mem_cons.mp hrs
    unfold mergeFrom
    split_ifs
    · have hextend : (extend last x).Contains last.start := ⟨le_rfl, below_or.mpr (.inr hlast.2)⟩
      exact ih (forall_mem_cons.mpr ⟨hextend, (forall_mem_cons.mp hrs).2⟩)
    · exact forall_mem_cons.mpr ⟨hlast, ih hrs⟩

/-- The ranges are not empty, they lie apart in ascending order, and they make up the set. -/
structure NormalForm (rs : List (Range α)) (keys : α → Prop) : Prop where
  nonempty : ∀ r ∈ rs, r.Contains r.start
  sorted : rs.Pairwise (fun a b => a.start < b.start)
  apart : rs.Pairwise Apart
  covers : ∀ k, Covers rs k ↔ keys k

/-- **Merging gives a normal form, in whatever order equal starts are sorted.** -/
theorem normalForm_merge {rs out : List (Range α)}
    (hperm : out.Perm (rs.filter (fun r => !r.isEmpty)))
    (hs : out.Pairwise (fun a b => a.start ≤ b.start)) :
    NormalForm (merge out) (Covers rs) := by
  have hout : ∀ r ∈ out, r.Contains r.start := by
    intro r hr
    rw [hperm.mem_iff, mem_filter, Bool.not_eq_true'] at hr
    exact isEmpty_eq_false_iff.mp hr.2
  have hnonempty : ∀ r ∈ merge out, r.Contains r.start := by
    cases out with
    | nil => exact hout
    | cons r out => exact contains_start_of_mem_mergeFrom hout
  refine ⟨hnonempty, ?_, apart_merge hs, fun k => (covers_merge hs).trans ?_⟩
  · refine (apart_merge hs).imp_of_mem fun {a b} ha _ ⟨e, he, hlt⟩ => ?_
    have hstart := (hnonempty a ha).2
    rw [he] at hstart
    exact lt_trans hstart hlt
  · rw [← covers_filter_isEmpty rs]
    unfold Covers
    simp only [hperm.mem_iff]

theorem normalForm_normalize (rs : List (Range α)) :
    NormalForm (normalize rs) (Covers rs) :=
  normalForm_merge (perm_insertionSort _ _) (pairwise_sorted rs)

end Apart

section Parts

variable {α : Type u} [LinearOrder α] {β : Type v} {key : β → α}

/-- Two parts of a sorted list of which the first lies before the second. -/
theorem filter_append_filter {p q : β → Bool} (hpq : ∀ a b, p a = true → q b = true → key a < key b)
    {l : List β} (hl : l.Pairwise (fun a b => key a < key b)) :
    l.filter p ++ l.filter q = l.filter (fun b => p b || q b) := by
  induction l with
  | nil => rfl
  | cons a l ih =>
    obtain ⟨ha, hl⟩ := pairwise_cons.mp hl
    simp only [filter_cons]
    by_cases hp : p a = true
    · have hq : q a = false := by
        by_contra h
        exact absurd (hpq a a hp (by simpa using h)) (lt_irrefl _)
      simp [hp, hq, ← ih hl]
    have hp : p a = false := by
      simpa using hp
    by_cases hq : q a = true
    · -- nothing of the first part comes behind an element of the second
      have hnil : l.filter p = [] := by
        rw [filter_eq_nil_iff]
        intro b hb hpb
        exact absurd (lt_trans (ha b hb) (hpq b a hpb hq)) (lt_irrefl _)
      simp [hp, hq, ← ih hl, hnil]
    · have hq : q a = false := by
        simpa using hq
      simp [hp, hq, ← ih hl]

/-- The part of the list that lies in the range. -/
def part (key : β → α) (l : List β) (r : Range α) : List β :=
  l.filter (fun b => decide (r.Contains (key b)))

/-- **The parts in ranges that lie apart are the part in their union, in order.** -/
theorem flatMap_part {rs : List (Range α)} (hrs : rs.Pairwise Apart) {l : List β}
    (hl : l.Pairwise (fun a b => key a < key b)) :
    rs.flatMap (part key l) = l.filter (fun b => decide (Covers rs (key b))) := by
  induction rs with
  | nil => simp
  | cons r rs ih =>
    obtain ⟨hr, hrs⟩ := pairwise_cons.mp hrs
    have hlt : ∀ a b, decide (r.Contains (key a)) = true →
        decide (Covers rs (key b)) = true → key a < key b := by
      intro a b ha hb
      obtain ⟨t, ht, hb⟩ := of_decide_eq_true hb
      exact lt_of_apart (hr t ht) (of_decide_eq_true ha) hb
    rw [flatMap_cons, ih hrs]
    unfold part
    rw [filter_append_filter hlt hl]
    refine filter_congr ?_
    intro b _
    rw [← Bool.decide_or]
    exact decide_eq_decide.mpr covers_cons.symm

end Parts

end HalfOpen
