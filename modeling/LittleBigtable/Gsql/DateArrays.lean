import LittleBigtable.Gsql.Dates
import LittleBigtable.Gsql.SumOverflow

/-!
# `DATE_ADD`, `DATE_DIFF` and `GENERATE_DATE_ARRAY`

`DATE_DIFF` counts back what `DATE_ADD` added.  The dates that are reached with growing
numbers are strictly monotone, so the loop of `GENERATE_DATE_ARRAY` may stop at the first
date that is behind the end or out of range.
-/

namespace LittleBigtable
namespace Gsql

open Bttest
open Gregorian

section Difference

variable {d n : Int}

theorem addDate_eq_ok {r : Int} {unit : DateUnit} (hd : DateInRange d)
    (h : addDate d n unit = .ok r) :
    r = unit.moved d n ∧ DateInRange r := by
  have hspec := answers_addDate (n := n) hd unit
  rw [h, answers_ok_iff] at hspec
  exact ⟨hspec.2, hspec.2 ▸ hspec.1⟩

/-- The part of `DATE_DIFF` that counts a unit. -/
def DateUnit.part : DateUnit → DatePart
  | .day => .day
  | .week => .week 0
  | .month => .month
  | .quarter => .quarter
  | .year => .year

theorem dateDiff_moved (unit : DateUnit) (hd : DateInRange d) (hr : DateInRange (unit.moved d n)) :
    dateDiff (unit.moved d n) d unit.part = n := by
  cases unit with
  | day => simp [dateDiff, DateUnit.part, DateUnit.moved]
  | week =>
    simp only [dateDiff, DateUnit.part]
    rw [truncDate_eq hr, truncDate_eq hd]
    have hseven : DatePart.first (.week 0) (DatePart.period (.week 0) (DateUnit.week.moved d n)) -
        DatePart.first (.week 0) (DatePart.period (.week 0) d) = 7 * n := by
      simp only [DatePart.first, DatePart.period, DateUnit.moved]
      omega
    rw [hseven, Int.mul_tdiv_cancel_left _ (by decide)]
  | month | quarter | year =>
    simp only [dateDiff, DateUnit.part, DateUnit.moved, civil, monthOf_moved]
    omega

end Difference

section Monotone

theorem movedMonths_strictMono (d : Int) :
    StrictMono (fun k => (movedMonths d k).days) := by
  intro k k' hk
  refine lt_of_lt_of_le (monthOf_lt_iff.mp ?_) (monthOf_spec (movedMonths d k').days).1
  rw [monthOf_moved, monthOf_moved]
  exact Int.add_lt_add_left hk _

theorem DateUnit.moved_strictMono (unit : DateUnit) (d : Int) :
    StrictMono (fun n => unit.moved d n) := by
  intro n n' hn
  cases unit with
  | day => exact Int.add_lt_add_left hn d
  | week =>
    simp only [moved]
    omega
  | month => exact movedMonths_strictMono d hn
  | quarter => exact movedMonths_strictMono d (show 3 * n < 3 * n' by omega)
  | year => exact movedMonths_strictMono d (show 12 * n < 12 * n' by omega)

theorem DateUnit.moved_zero (unit : DateUnit) (d : Int) :
    unit.moved d 0 = d := by
  have hmonths : (movedMonths d 0).days = d := by
    have hday := (civil_valid d).day.2
    dsimp only [civil] at hday
    simp only [movedMonths, add_zero, civil, min_eq_left hday]
    exact days_civil d
  cases unit <;> simp [moved, hmonths]

/-- Every further unit moves by a day at least. -/
theorem DateUnit.add_le_moved (unit : DateUnit) (d : Int) {n : Int} (hn : 0 ≤ n) :
    d + n ≤ unit.moved d n ∧ unit.moved d (-n) ≤ d - n := by
  have hmono : Monotone (fun n => unit.moved d n - n) := by
    refine monotone_int_of_le_succ (fun n => ?_)
    have hlt := unit.moved_strictMono d (Int.lt_succ n)
    dsimp only at hlt ⊢
    omega
  have hzero := unit.moved_zero d
  have hup := hmono hn
  have hdown := hmono (Int.neg_nonpos_of_nonneg hn)
  dsimp only at hup hdown
  omega

end Monotone

section Loop

variable {s e step : Int} {unit : DateUnit}

/-- Date number `i` is not behind the end. -/
def TermReaches (s e step : Int) (unit : DateUnit) (i : Nat) : Prop :=
  (0 < step → unit.moved s (step * i) ≤ e) ∧ (step < 0 → e ≤ unit.moved s (step * i))

/-- A date that is not behind the end lies `step * i` days from the start at most as far as
the end does. -/
theorem TermReaches.bounds {i : Nat} (h : TermReaches s e step unit i) (hstep : step ≠ 0) :
    (0 < step ∧ s + step * i ≤ unit.moved s (step * i) ∧ unit.moved s (step * i) ≤ e) ∨
      (step < 0 ∧ e ≤ unit.moved s (step * i) ∧ unit.moved s (step * i) ≤ s + step * i) := by
  rcases lt_or_gt_of_ne hstep with hneg | hpos
  · have hmul : 0 ≤ -(step * i) := by nlinarith
    have hle := (unit.add_le_moved s hmul).2
    rw [neg_neg] at hle
    exact .inr ⟨hneg, h.2 hneg, by omega⟩
  · exact .inl ⟨hpos, (unit.add_le_moved s (by positivity)).1, h.1 hpos⟩

theorem TermReaches.inRange {i : Nat} (h : TermReaches s e step unit i) (hstep : step ≠ 0)
    (hs : DateInRange s) (he : DateInRange e) :
    DateInRange (unit.moved s (step * i)) := by
  unfold DateInRange at hs he ⊢
  rcases h.bounds hstep with ⟨hpos, hlo, hhi⟩ | ⟨hneg, hlo, hhi⟩
  · have hmul : 0 ≤ step * i := by positivity
    omega
  · have hmul : step * i ≤ 0 := by nlinarith
    omega

theorem TermReaches.of_le {i j : Nat} (h : TermReaches s e step unit j) (hij : i ≤ j) :
    TermReaches s e step unit i := by
  have hcast : (i : Int) ≤ j := by exact_mod_cast hij
  have hmono := (unit.moved_strictMono s).monotone
  refine ⟨fun hpos => (hmono ?_).trans (h.1 hpos), fun hneg => (h.2 hneg).trans (hmono ?_)⟩
  · exact Int.mul_le_mul_of_nonneg_left hcast hpos.le
  · exact Int.mul_le_mul_of_nonpos_left hneg.le hcast

/-- The numbers of the dates that are not behind the end are an initial segment. -/
theorem exists_termReaches_iff (hstep : step ≠ 0) :
    ∃ k : Nat, ∀ i, i < k ↔ TermReaches s e step unit i := by
  classical
  have hfails : ∃ i, ¬ TermReaches s e step unit i := by
    refine ⟨(e - s).natAbs + 1, fun h => ?_⟩
    rcases h.bounds hstep with ⟨hpos, hlo, hhi⟩ | ⟨hneg, hlo, hhi⟩
    · have hmul : (((e - s).natAbs + 1 : Nat) : Int) ≤ step * ((e - s).natAbs + 1 : Nat) := by
        nlinarith
      omega
    · have hmul : step * ((e - s).natAbs + 1 : Nat) ≤ -(((e - s).natAbs + 1 : Nat) : Int) := by
        nlinarith
      omega
  refine ⟨Nat.find hfails, fun i => ⟨fun hi => not_not.mp (Nat.find_min hfails hi), fun hi => ?_⟩⟩
  by_contra hno
  exact Nat.find_spec hfails (hi.of_le (not_lt.mp hno))

theorem wrap64_eq_self {n : Int} (h : FitsInt64 n) :
    wrap64 n = n := by
  unfold FitsInt64 at h
  unfold wrap64
  omega

/-- The products that the loop computes do not wrap: the one before was in range. -/
theorem wrap64_mul {k i : Nat} (hs : DateInRange s) (he : DateInRange e) (hstep : step ≠ 0)
    (hfits : FitsInt64 step) (hk : ∀ i, i < k ↔ TermReaches s e step unit i) (hi : i ≤ k) :
    wrap64 (step * i) = step * i := by
  refine wrap64_eq_self ?_
  rcases i with _ | _ | i
  · simp [FitsInt64]
  · simpa using hfits
  have hbounds := ((hk (i + 1)).mp hi).bounds hstep
  unfold DateInRange minDateDays maxDateDays at hs he
  unfold FitsInt64
  push_cast at hbounds ⊢
  have hstep' : step * (i + 1) - step * i = step := by ring
  have hnext : step * (i + 1 + 1) = step * (i + 1) + step := by ring
  rcases hbounds with ⟨hpos, hlo, hhi⟩ | ⟨hneg, hlo, hhi⟩
  · have hmul : 0 ≤ step * i := by positivity
    omega
  · have hmul : step * i ≤ 0 := by nlinarith
    omega

/-- The dates from number `i` on that are not behind the end. -/
def reached (s step : Int) (unit : DateUnit) (i k : Nat) : List Int :=
  (List.range' i (k - i)).map (fun j : Nat => unit.moved s (step * j))

theorem nextDate_eq {k i : Nat} (hs : DateInRange s) (he : DateInRange e) (hstep : step ≠ 0)
    (hfits : FitsInt64 step) (hk : ∀ i, i < k ↔ TermReaches s e step unit i) (hi : i ≤ k) :
    nextDate s e step unit i = if i < k then some (unit.moved s (step * i), (i : Int) + 1) else none := by
  have hspec := answers_addDate (n := step * i) hs unit
  rw [nextDate, wrap64_mul hs he hstep hfits hk hi]
  split_ifs with hlt
  · have hreach := (hk i).mp hlt
    have hok := hspec.1 (hreach.inRange hstep hs he)
    unfold TermReaches at hreach
    rw [hok]
    exact if_neg (by omega)
  have hreach := (hk i).mpr.mt hlt
  by_cases hrange : DateInRange (unit.moved s (step * i))
  · unfold TermReaches at hreach
    rw [hspec.1 hrange]
    exact if_pos (by omega)
  · obtain ⟨st, hst⟩ := hspec.2 hrange
    rw [hst]

/-- **The loop.** -/
theorem generate_nextDate_eq {k : Nat} {st : Status} (hs : DateInRange s) (he : DateInRange e)
    (hstep : step ≠ 0) (hfits : FitsInt64 step) (hk : ∀ i, i < k ↔ TermReaches s e step unit i)
    (left i : Nat) (hi : i ≤ k) :
    generate st (nextDate s e step unit) left i =
      if k ≤ i + left then .ok (reached s step unit i k) else .error st := by
  have hnext := nextDate_eq hs he hstep hfits hk hi
  by_cases hlt : i < k
  · rw [if_pos hlt] at hnext
    cases left with
    | zero => rw [generate, hnext, if_neg (by omega)]
    | succ left =>
      have hrec : generate st (nextDate s e step unit) left (i + 1 : Nat) = _ :=
        generate_nextDate_eq hs he hstep hfits hk left (i + 1) hlt
      rw [Nat.cast_succ] at hrec
      have hreached : reached s step unit i k =
          unit.moved s (step * i) :: reached s step unit (i + 1) k := by
        rw [reached, reached, show k - i = k - (i + 1) + 1 by omega]
        rfl
      rw [generate, hnext, hreached]
      simp only [hrec, show i + 1 + left = i + (left + 1) by omega]
      split_ifs <;> rfl
  · obtain rfl : i = k := by omega
    have hnil : reached s step unit i i = [] := by simp [reached]
    rw [generate.eq_def, hnext, if_neg hlt, if_pos (by omega), hnil]
termination_by left

/-- The dates are strictly monotone, up with a positive step and down with a negative one. -/
theorem reached_monotone (s : Int) (unit : DateUnit) (k : Nat) (hstep : step ≠ 0) :
    (reached s step unit 0 k).Pairwise (fun a b => if 0 < step then a < b else b < a) := by
  rw [reached, List.pairwise_map]
  refine (List.pairwise_lt_range' 1 Nat.one_pos).imp (fun {i j} hij => ?_)
  have hcast : (i : Int) < j := by exact_mod_cast hij
  split_ifs with hpos
  · exact unit.moved_strictMono s (Int.mul_lt_mul_of_pos_left hcast hpos)
  · exact unit.moved_strictMono s (Int.mul_lt_mul_of_neg_left hcast (by omega))

/-- **Date arithmetic is exact.** -/
theorem date_arithmetic_exact {d n : Int} (hd : DateInRange d) (hn : FitsInt64 n)
    (unit : DateUnit) :
    Answers (addDate d n unit) (unit.moved d n) ∧
      (∀ r, addDate d n unit = .ok r → dateDiff r d unit.part = n) ∧
      ∀ e, DateInRange e →
        (n = 0 → generateDateArray d e n unit =
          .error (evalErrorf "GENERATE_DATE_ARRAY step cannot be 0" [])) ∧
        (n ≠ 0 → ∃ k : Nat,
          (∀ i : Nat, i < k ↔ TermReaches d e n unit i) ∧
          (∀ i : Nat, i < k → addDate d (n * i) unit = .ok (unit.moved d (n * i))) ∧
          (reached d n unit 0 k).Pairwise (fun a b => if 0 < n then a < b else b < a) ∧
          generateDateArray d e n unit =
            if k ≤ 1000000 then
              .ok (reached d n unit 0 k)
            else
              .error (evalErrorf "GENERATE_DATE_ARRAY produced too many elements" [])) := by
  refine ⟨answers_addDate hd unit, fun r hr => ?_, fun e he => ⟨fun h0 => if_pos h0, fun hstep => ?_⟩⟩
  · obtain ⟨rfl, hrange⟩ := addDate_eq_ok hd hr
    exact dateDiff_moved unit hd hrange
  obtain ⟨k, hk⟩ : ∃ k : Nat, ∀ i, i < k ↔ TermReaches d e n unit i := exists_termReaches_iff hstep
  refine ⟨k, hk, fun i hi => ?_, reached_monotone d unit k hstep, ?_⟩
  · exact (answers_addDate hd unit).1 (((hk i).mp hi).inRange hstep hd he)
  · rw [generateDateArray, if_neg hstep, ← Nat.zero_add 1000000]
    exact generate_nextDate_eq hd he hstep hn hk 1000000 0 (Nat.zero_le k)

theorem date_arithmetic_exact_march :
    Answers (addDate 59 12 .month) 424 ∧
      (∀ r, addDate 59 12 .month = .ok r → dateDiff r 59 .month = 12) :=
  have h := date_arithmetic_exact (d := 59) (n := 12) (by unfold DateInRange; decide) (by decide)
    .month
  ⟨h.1, h.2.1⟩

end Loop

end Gsql
end LittleBigtable
