import Mathlib.Data.Int.ConditionallyCompleteOrder
import Mathlib.Order.Monotone.Basic
import Mathlib.Tactic.IntervalCases

/-!
# The proleptic Gregorian calendar

Days are numbered from 1970-01-01 and months from January of the year 0, both over all
integers.  `firstDay` is the first day of a month and `monthOf` the month of a day.  Years
are counted from March on in between, so that the leap day is the last day of a year.
`firstDay_succ` says that months have the usual lengths.
-/

namespace Gregorian

section Months

def isLeap (y : Int) : Bool :=
  y % 4 = 0 ∧ (y % 100 ≠ 0 ∨ y % 400 = 0)

/-- The number of days of month `m` of year `y`. -/
def monthLength (y m : Int) : Int :=
  if m = 2 then
    if isLeap y then 29 else 28
  else if m = 4 ∨ m = 6 ∨ m = 9 ∨ m = 11 then
    30
  else
    31

/-- The first of March of a year. -/
def firstOfMarch (y : Int) : Int :=
  365 * y + y / 4 - y / 100 + y / 400 - 719468

/-- The first day of a month. -/
def firstDay (t : Int) : Int :=
  firstOfMarch ((t - 2) / 12) + (153 * ((t - 2) % 12) + 2) / 5

/-- The last year whose first of March is not behind a day. -/
def marchYear (n : Int) : Int :=
  let y := 400 * (n + 719468) / 146097
  if firstOfMarch (y + 1) ≤ n then y + 1 else y

/-- The month of a day. -/
def monthOf (n : Int) : Int :=
  12 * marchYear n + (5 * (n - firstOfMarch (marchYear n)) + 2) / 153 + 2

theorem marchYear_spec (n : Int) :
    firstOfMarch (marchYear n) ≤ n ∧ n < firstOfMarch (marchYear n + 1) := by
  unfold marchYear
  dsimp only
  split_ifs with h
  · exact ⟨h, by unfold firstOfMarch; omega⟩
  · exact ⟨by unfold firstOfMarch; omega, by omega⟩

/-- The months of a year, counted from March. -/
theorem firstDay_of_year {y : Int} {k : Int} (h0 : 0 ≤ k) (h12 : k < 12) :
    firstDay (12 * y + k + 2) = firstOfMarch y + (153 * k + 2) / 5 := by
  have hyear : (12 * y + k + 2 - 2) / 12 = y := by omega
  have hmonth : (12 * y + k + 2 - 2) % 12 = k := by omega
  rw [firstDay, hyear, hmonth]

/-- **Months have the usual lengths.** -/
theorem firstDay_succ (t : Int) :
    firstDay (t + 1) = firstDay t + monthLength (t / 12) (t % 12 + 1) := by
  have hmonth : 0 ≤ t % 12 ∧ t % 12 < 12 := by omega
  have ht := Int.mul_ediv_add_emod t 12
  generalize t % 12 = m at hmonth ht ⊢
  generalize t / 12 = y at ht ⊢
  subst ht
  obtain ⟨h0, h12⟩ := hmonth
  unfold monthLength
  by_cases hmarch : 2 ≤ m
  · rw [show 12 * y + m + 1 = 12 * y + (m - 1) + 2 by omega, firstDay_of_year (by omega) (by omega),
      show 12 * y + m = 12 * y + (m - 2) + 2 by omega, firstDay_of_year (by omega) (by omega)]
    interval_cases m <;> omega
  rw [show 12 * y + m = 12 * (y - 1) + (m + 10) + 2 by omega,
    firstDay_of_year (by omega) (by omega)]
  by_cases hjanuary : m = 0
  · subst hjanuary
    rw [show 12 * (y - 1) + (0 + 10) + 2 + 1 = 12 * (y - 1) + 11 + 2 by omega,
      firstDay_of_year (by omega) (by omega)]
    omega
  -- February ends with the year that is counted from March
  obtain rfl : m = 1 := by omega
  rw [show 12 * (y - 1) + (1 + 10) + 2 + 1 = 12 * y + 0 + 2 by omega,
    firstDay_of_year (by omega) (by omega)]
  simp only [firstOfMarch, isLeap, decide_eq_true_eq]
  split_ifs <;> omega

theorem one_le_monthLength (y m : Int) :
    1 ≤ monthLength y m := by
  unfold monthLength
  split_ifs <;> decide

theorem firstDay_strictMono : StrictMono firstDay := by
  refine strictMono_int_of_lt_succ (fun t => ?_)
  rw [firstDay_succ]
  exact Int.lt_add_of_pos_right _ (one_le_monthLength _ _)

/-- A day is in its month. -/
theorem monthOf_spec (n : Int) :
    firstDay (monthOf n) ≤ n ∧ n < firstDay (monthOf n + 1) := by
  obtain ⟨hlo, hhi⟩ := marchYear_spec n
  have hmonth : 0 ≤ (5 * (n - firstOfMarch (marchYear n)) + 2) / 153 ∧
      (5 * (n - firstOfMarch (marchYear n)) + 2) / 153 < 12 := by
    unfold firstOfMarch at hlo hhi ⊢
    omega
  have hyear : (monthOf n - 2) / 12 = marchYear n := by
    unfold monthOf
    omega
  have hrest : (monthOf n - 2) % 12 = (5 * (n - firstOfMarch (marchYear n)) + 2) / 153 := by
    unfold monthOf
    omega
  refine ⟨?_, ?_⟩
  · rw [firstDay, hyear, hrest]
    omega
  -- the next month is the following one of the year or the first one of the next year
  by_cases hlast : (5 * (n - firstOfMarch (marchYear n)) + 2) / 153 = 11
  · have hnext : (monthOf n + 1 - 2) / 12 = marchYear n + 1 ∧ (monthOf n + 1 - 2) % 12 = 0 := by
      omega
    rw [firstDay, hnext.1, hnext.2]
    omega
  have hnext : (monthOf n + 1 - 2) / 12 = marchYear n ∧ (monthOf n + 1 - 2) % 12 =
      (5 * (n - firstOfMarch (marchYear n)) + 2) / 153 + 1 := by
    omega
  rw [firstDay, hnext.1, hnext.2]
  omega

theorem monthOf_lt_iff {n t : Int} :
    monthOf n < t ↔ n < firstDay t := by
  obtain ⟨hlo, hhi⟩ := monthOf_spec n
  constructor
  · intro h
    exact hhi.trans_le (firstDay_strictMono.monotone h)
  · intro h
    exact firstDay_strictMono.lt_iff_lt.mp (hlo.trans_lt h)

@[simp] theorem monthOf_firstDay (t : Int) :
    monthOf (firstDay t) = t := by
  have hlt := (monthOf_lt_iff (n := firstDay t) (t := t + 1)).mpr
    (firstDay_strictMono (Int.lt_succ t))
  have hle := (monthOf_lt_iff (n := firstDay t) (t := t)).mp.mt (lt_irrefl _)
  omega

/-- The days of a period of `q` months. -/
theorem monthOf_ediv_iff {q j n : Int} (hq : 0 < q) :
    monthOf n / q = j ↔ firstDay (q * j) ≤ n ∧ n < firstDay (q * j + q) := by
  rw [← monthOf_lt_iff, ← not_lt, ← monthOf_lt_iff, not_lt, Int.ediv_eq_iff_of_pos hq, mul_comm j q]

end Months

section Dates

/-- A date by its year, month and day of the month. -/
@[ext] structure Civil where
  year : Int
  month : Int
  day : Int
deriving DecidableEq

/-- The day of a date; a month outside of 1 to 12 counts into other years. -/
def Civil.days (c : Civil) : Int :=
  firstDay (12 * c.year + c.month - 1) + c.day - 1

/-- The date of a day. -/
def civil (n : Int) : Civil :=
  ⟨monthOf n / 12, monthOf n % 12 + 1, n - firstDay (monthOf n) + 1⟩

structure Civil.Valid (c : Civil) : Prop where
  month : 1 ≤ c.month ∧ c.month ≤ 12
  day : 1 ≤ c.day ∧ c.day ≤ monthLength c.year c.month

@[simp] theorem days_civil (n : Int) :
    (civil n).days = n := by
  have hmonth : 12 * (monthOf n / 12) + (monthOf n % 12 + 1) - 1 = monthOf n := by
    omega
  dsimp only [Civil.days, civil]
  rw [hmonth]
  omega

theorem civil_valid (n : Int) :
    (civil n).Valid := by
  obtain ⟨hlo, hhi⟩ := monthOf_spec n
  rw [firstDay_succ] at hhi
  refine ⟨?_, ?_⟩
  · dsimp only [civil]
    omega
  · dsimp only [civil]
    omega

theorem Civil.Valid.monthOf_days {c : Civil} (h : c.Valid) :
    monthOf c.days = 12 * c.year + c.month - 1 := by
  obtain ⟨⟨hm, hm'⟩, hd, hd'⟩ := h
  have hparts : (12 * c.year + c.month - 1) / 12 = c.year ∧
      (12 * c.year + c.month - 1) % 12 + 1 = c.month := by
    omega
  have hsucc := firstDay_succ (12 * c.year + c.month - 1)
  rw [hparts.1, hparts.2] at hsucc
  have hiff := monthOf_ediv_iff (q := 1) (j := 12 * c.year + c.month - 1) (n := c.days) (by decide)
  rw [Int.ediv_one, one_mul] at hiff
  refine hiff.mpr ⟨?_, ?_⟩
  · unfold days
    omega
  · rw [hsucc]
    unfold days
    omega

theorem Civil.Valid.civil_days {c : Civil} (h : c.Valid) :
    civil c.days = c := by
  obtain ⟨y, m, d⟩ := c
  obtain ⟨hm, hm'⟩ := h.month
  dsimp only at hm hm'
  unfold civil
  rw [h.monthOf_days]
  simp only [Civil.mk.injEq]
  refine ⟨by omega, by omega, ?_⟩
  dsimp only [days]
  omega

end Dates

end Gregorian
