import LittleBigtable.Gsql.Pushdown
import LittleBigtable.Lib.Gregorian

/-!
# Dates

`DATE_ADD`, `DATE_DIFF`, `DATE_TRUNC`, `LAST_DAY` and `GENERATE_DATE_ARRAY` on dates, which
are days since 1970-01-01.  The `time` package of Go is the proleptic Gregorian calendar.
-/

namespace LittleBigtable
namespace Gsql

open Bttest
open Gregorian

section Code

def minDateDays : Int := -719162

def maxDateDays : Int := 2932896

/-- The date is one from 0001-01-01 to 9999-12-31. -/
def DateInRange (d : Int) : Prop :=
  minDateDays ≤ d ∧ d ≤ maxDateDays

def checkDate (days : Int) : Except Status Int :=
  if days < minDateDays ∨ days > maxDateDays then
    .error (evalErrorf "date value is out of the supported range" [])
  else
    .ok days

def dateFromYMD (y m d : Int) : Except Status Int :=
  checkDate (Civil.days ⟨y, m, d⟩)

/-- The date of a result whose error the code drops; it is 0 next to an error. -/
def dateOrZero : Except Status Int → Int
  | .ok d => d
  | .error _ => 0

/-- Division and remainder of Go round to zero. -/
def floorDiv (a b : Int) : Int :=
  if a.tmod b ≠ 0 ∧ (decide (a < 0) != decide (b < 0)) then a.tdiv b - 1 else a.tdiv b

def floorMod (a b : Int) : Int :=
  a - floorDiv a b * b

/-- `time.Time.Weekday`; Sunday is 0. -/
def weekday (d : Int) : Int :=
  (d + 4) % 7

/-- The year of `time.Time.ISOWeek`: that of the Thursday of the week. -/
def isoYear (d : Int) : Int :=
  (civil (d - (weekday d + 6) % 7 + 3)).year

/-- The last day of the month is the day before the first one of the next month. -/
def daysIn (m y : Int) : Int :=
  (civil (Civil.days ⟨y, m + 1, 0⟩)).day

inductive DateUnit
  | day
  | week
  | month
  | quarter
  | year
deriving DecidableEq

inductive DatePart
  | day
  | week (weekday : Fin 7)
  | isoWeek
  | month
  | quarter
  | year
  | isoYear
deriving DecidableEq

def checkDateI (d n : Int) : Except Status Int :=
  if n > 10 ^ 8 ∨ n < -10 ^ 8 then
    .error (evalErrorf "DATE value out of range" [])
  else
    checkDate (d + n)

/-- `addDate` with a part of `mult` months. -/
def addMonths (d n mult : Int) : Except Status Int :=
  if n > 10 ^ 6 ∨ n < -10 ^ 6 then
    .error (evalErrorf "DATE arithmetic overflow" [])
  else
    let total := (civil d).year * 12 + ((civil d).month - 1) + n * mult
    let ny := floorDiv total 12
    let nm := floorMod total 12 + 1
    if ny < 1 ∨ ny > 9999 then
      .error (evalErrorf "DATE value out of range" [])
    else
      dateFromYMD ny nm (min (civil d).day (daysIn nm ny))

def addDate (d n : Int) : DateUnit → Except Status Int
  | .day => checkDateI d n
  | .week =>
    if n > 10 ^ 7 ∨ n < -10 ^ 7 then
      .error (evalErrorf "DATE arithmetic overflow" [])
    else
      checkDateI d (n * 7)
  | .month => addMonths d n 1
  | .quarter => addMonths d n 3
  | .year => addMonths d n 12

def isoYearStart (iy : Int) : Int :=
  let jan4 := Civil.days ⟨iy, 1, 4⟩
  dateOrZero (checkDate (jan4 - (weekday jan4 + 6) % 7))

def truncDate (d : Int) : DatePart → Int
  | .day => d
  | .week w => d - (weekday d - w + 7) % 7
  | .isoWeek => d - (weekday d + 6) % 7
  | .month => dateOrZero (dateFromYMD (civil d).year (civil d).month 1)
  | .quarter => dateOrZero (dateFromYMD (civil d).year (((civil d).month - 1) / 3 * 3 + 1) 1)
  | .year => dateOrZero (dateFromYMD (civil d).year 1 1)
  | .isoYear => isoYearStart (isoYear d)

/-- `DATE_TRUNC` of a date. -/
def dateTrunc (d : Int) (dp : DatePart) : Except Status Int :=
  .ok (truncDate d dp)

/-- `LAST_DAY`; it is not called with the part `DAY`. -/
def lastDay (d : Int) (dp : DatePart) : Except Status Int :=
  let start := truncDate d dp
  match dp with
  | .week _ | .isoWeek => checkDate (start + 6)
  | .month => (addDate start 1 .month).map (fun n => n - 1)
  | .quarter => (addDate start 3 .month).map (fun n => n - 1)
  | .year => dateFromYMD (civil start).year 12 31
  | .isoYear | .day => .ok (isoYearStart (isoYear start + 1) - 1)

/-- `DATE_DIFF`. -/
def dateDiff (a b : Int) : DatePart → Int
  | .day => a - b
  | .week w => (truncDate a (.week w) - truncDate b (.week w)).tdiv 7
  | .isoWeek => (truncDate a .isoWeek - truncDate b .isoWeek).tdiv 7
  | .month => ((civil a).year * 12 + (civil a).month) - ((civil b).year * 12 + (civil b).month)
  | .quarter =>
    ((civil a).year * 4 + ((civil a).month - 1) / 3) -
      ((civil b).year * 4 + ((civil b).month - 1) / 3)
  | .year => (civil a).year - (civil b).year
  | .isoYear => isoYear a - isoYear b

/-- A loop that appends the elements that `next` gives, when it may append `left` more. -/
def generate {σ α : Type} (tooMany : Status) (next : σ → Option (α × σ)) (left : Nat) (s : σ) :
    Except Status (List α) :=
  match next s with
  | none => .ok []
  | some (a, s) =>
    match left with
    | 0 => .error tooMany
    | left + 1 => (generate tooMany next left s).map (a :: ·)

/-- The loop of `GENERATE_DATE_ARRAY` at number `i`. -/
def nextDate (s e step : Int) (unit : DateUnit) (i : Int) : Option (Int × Int) :=
  match addDate s (wrap64 (step * i)) unit with
  | .error _ => none
  | .ok d => if (step > 0 ∧ d > e) ∨ (step < 0 ∧ d < e) then none else some (d, i + 1)

/-- `GENERATE_DATE_ARRAY`. -/
def generateDateArray (s e step : Int) (unit : DateUnit) : Except Status (List Int) :=
  if step = 0 then
    .error (evalErrorf "GENERATE_DATE_ARRAY step cannot be 0" [])
  else
    generate (evalErrorf "GENERATE_DATE_ARRAY produced too many elements" [])
      (nextDate s e step unit) 1000000 0

end Code

section Calendar

theorem checkDate_eq_ok {days : Int} (h : DateInRange days) :
    checkDate days = .ok days := by
  unfold DateInRange at h
  unfold checkDate
  rw [if_neg (by omega)]

theorem checkDate_eq_error {days : Int} (h : ¬ DateInRange days) :
    ∃ st, checkDate days = .error st := by
  unfold DateInRange at h
  unfold checkDate
  rw [if_pos (by omega)]
  exact ⟨_, rfl⟩

theorem dateInRange_iff {d : Int} :
    DateInRange d ↔ 12 ≤ monthOf d ∧ monthOf d < 120000 := by
  have hfirst : firstDay 12 = minDateDays := by decide
  have hlast : firstDay 120000 = maxDateDays + 1 := by decide
  have hlo := monthOf_lt_iff (n := d) (t := 12)
  have hhi := monthOf_lt_iff (n := d) (t := 120000)
  unfold DateInRange
  omega

theorem firstDay_inRange_iff {t : Int} :
    DateInRange (firstDay t) ↔ 12 ≤ t ∧ t < 120000 := by
  rw [dateInRange_iff, monthOf_firstDay]

theorem floorDiv_eq (a : Int) {b : Int} (hb : 0 < b) :
    floorDiv a b = a / b := by
  have hsign : b.sign = 1 := Int.sign_eq_one_of_pos hb
  have hdvd : a.tmod b = 0 ↔ b ∣ a := Int.dvd_iff_tmod_eq_zero.symm
  unfold floorDiv
  rw [Int.tdiv_eq_ediv, hsign]
  by_cases ha : a < 0 <;> by_cases hd : b ∣ a <;>
    simp [ha, hd, hdvd, show ¬ b < 0 by omega, show a < 0 → ¬ 0 ≤ a by omega]

theorem floorMod_eq (a : Int) {b : Int} (hb : 0 < b) :
    floorMod a b = a % b := by
  rw [floorMod, floorDiv_eq a hb, Int.emod_def, Int.mul_comm]

end Calendar

section Arithmetic

variable {d n t : Int}

/-- The result is a date, or an error if the date is out of range. -/
def Answers (r : Except Status Int) (x : Int) : Prop :=
  (DateInRange x → r = .ok x) ∧ (¬ DateInRange x → ∃ st, r = .error st)

theorem answers_checkDate (x : Int) :
    Answers (checkDate x) x :=
  ⟨checkDate_eq_ok, checkDate_eq_error⟩

theorem answers_error {x : Int} (h : ¬ DateInRange x) (st : Status) :
    Answers (.error st) x :=
  ⟨fun hx => absurd hx h, fun _ => ⟨st, rfl⟩⟩

/-- The date `k` months on, with its day clamped to the length of the month. -/
def movedMonths (d k : Int) : Civil :=
  let y := (monthOf d + k) / 12
  let m := (monthOf d + k) % 12 + 1
  ⟨y, m, min (civil d).day (monthLength y m)⟩

/-- The date reached from `d`. -/
def DateUnit.moved (d n : Int) : DateUnit → Int
  | .day => d + n
  | .week => d + 7 * n
  | .month => (movedMonths d n).days
  | .quarter => (movedMonths d (3 * n)).days
  | .year => (movedMonths d (12 * n)).days

theorem movedMonths_valid (d k : Int) :
    (movedMonths d k).Valid := by
  obtain ⟨hday, -⟩ := (civil_valid d).day
  have hlen := one_le_monthLength ((monthOf d + k) / 12) ((monthOf d + k) % 12 + 1)
  refine ⟨?_, ?_⟩
  · dsimp only [movedMonths]
    omega
  · exact ⟨le_min hday hlen, min_le_right _ _⟩

theorem monthOf_moved (d k : Int) :
    monthOf (movedMonths d k).days = monthOf d + k := by
  rw [(movedMonths_valid d k).monthOf_days]
  dsimp only [movedMonths]
  omega

theorem moved_firstDay (t k : Int) :
    (movedMonths (firstDay t) k).days = firstDay (t + k) := by
  have hlen := one_le_monthLength ((t + k) / 12) ((t + k) % 12 + 1)
  have hday : (civil (firstDay t)).day = 1 := by
    simp [civil, monthOf_firstDay]
  rw [movedMonths, hday, monthOf_firstDay, min_eq_left hlen]
  simp only [Civil.days]
  rw [show 12 * ((t + k) / 12) + ((t + k) % 12 + 1) - 1 = t + k by omega]
  omega

theorem daysIn_eq {m y : Int} (hm : 1 ≤ m ∧ m ≤ 12) :
    daysIn m y = monthLength y m := by
  have hvalid : (Civil.mk y m (monthLength y m)).Valid := ⟨hm, one_le_monthLength y m, le_refl _⟩
  have hsucc := firstDay_succ (12 * y + m - 1)
  rw [show (12 * y + m - 1) / 12 = y by omega, show (12 * y + m - 1) % 12 + 1 = m by omega] at hsucc
  have hdays : Civil.days ⟨y, m + 1, 0⟩ = Civil.days ⟨y, m, monthLength y m⟩ := by
    simp only [Civil.days]
    rw [show 12 * y + (m + 1) - 1 = 12 * y + m - 1 + 1 by omega, hsucc]
    omega
  rw [daysIn, hdays, hvalid.civil_days]

/-- The bound on `n` rejects no date that is in range. -/
theorem answers_addMonths {mult : Int} (hd : DateInRange d)
    (hmult : mult = 1 ∨ mult = 3 ∨ mult = 12) :
    Answers (addMonths d n mult) (movedMonths d (mult * n)).days := by
  rw [dateInRange_iff] at hd
  have hrange := dateInRange_iff (d := (movedMonths d (mult * n)).days)
  rw [monthOf_moved] at hrange
  have hmonth : 12 * (monthOf d / 12) + monthOf d % 12 = monthOf d := by omega
  unfold addMonths
  split_ifs with hbig
  · exact answers_error (hrange.not.mpr (by rcases hmult with rfl | rfl | rfl <;> omega)) _
  have htotal : (civil d).year * 12 + ((civil d).month - 1) + n * mult =
      monthOf d + mult * n := by
    dsimp only [civil]
    rw [mul_comm n mult]
    omega
  simp only [htotal, floorDiv_eq _ (show (0 : Int) < 12 by decide),
    floorMod_eq _ (show (0 : Int) < 12 by decide)]
  split_ifs with hyear
  · exact answers_error (hrange.not.mpr (by omega)) _
  · rw [daysIn_eq (by omega)]
    exact answers_checkDate _

/-- **`DATE_ADD`.** -/
theorem answers_addDate (hd : DateInRange d) (unit : DateUnit) :
    Answers (addDate d n unit) (unit.moved d n) := by
  have hfar : ∀ {k : Int}, k > 10 ^ 7 ∨ k < -10 ^ 7 → ¬ DateInRange (d + k) := by
    intro k hk
    unfold DateInRange minDateDays maxDateDays at hd ⊢
    omega
  have hdays : ∀ k, Answers (checkDateI d k) (d + k) := by
    intro k
    unfold checkDateI
    split_ifs with hbig
    · exact answers_error (hfar (by omega)) _
    · exact answers_checkDate _
  cases unit with
  | day => exact hdays n
  | week =>
    simp only [addDate, DateUnit.moved]
    split_ifs with hbig
    · exact answers_error (hfar (by omega)) _
    · exact mul_comm n 7 ▸ hdays (n * 7)
  | month =>
    have hmonths := answers_addMonths (n := n) hd (.inl rfl)
    rwa [one_mul] at hmonths
  | quarter => exact answers_addMonths hd (.inr (.inl rfl))
  | year => exact answers_addMonths hd (.inr (.inr rfl))

end Arithmetic

section Periods

/-- The number of the calendar period of a date; a week is numbered from the one of
1970-01-01, and an ISO year is the year of the Thursday of the ISO week. -/
def DatePart.period : DatePart → Int → Int
  | .day, d => d
  | .week w, d => (d + 4 - w) / 7
  | .isoWeek, d => (d + 3) / 7
  | .month, d => monthOf d
  | .quarter, d => monthOf d / 3
  | .year, d => monthOf d / 12
  | .isoYear, d => monthOf (7 * ((d + 3) / 7)) / 12

/-- The first day of a period. -/
def DatePart.first : DatePart → Int → Int
  | .day, j => j
  | .week w, j => 7 * j + w - 4
  | .isoWeek, j => 7 * j - 3
  | .month, j => firstDay j
  | .quarter, j => firstDay (3 * j)
  | .year, j => firstDay (12 * j)
  | .isoYear, j => 7 * ((firstDay (12 * j) + 6) / 7) - 3

/-- A period ends where the next one starts. -/
theorem DatePart.period_eq_iff (dp : DatePart) {x j : Int} :
    dp.period x = j ↔ dp.first j ≤ x ∧ x < dp.first (j + 1) := by
  cases dp with
  | day | week | isoWeek =>
    simp only [period, first]
    omega
  | month => simpa [period, first] using monthOf_ediv_iff (q := 1) (j := j) (n := x) (by decide)
  | quarter =>
    simpa [period, first, mul_add] using monthOf_ediv_iff (q := 3) (j := j) (n := x) (by decide)
  | year =>
    simpa [period, first, mul_add] using monthOf_ediv_iff (q := 12) (j := j) (n := x) (by decide)
  | isoYear =>
    simp only [period, first]
    rw [monthOf_ediv_iff (by decide), show 12 * (j + 1) = 12 * j + 12 by omega]
    omega

/-- `f` and `l` are the first and the last day of the calendar period of `d`. -/
structure DatePart.Bounds (dp : DatePart) (d f l : Int) : Prop where
  first : IsLeast {x | dp.period x = dp.period d} f
  last : IsGreatest {x | dp.period x = dp.period d} l

theorem DatePart.exists_bounds (dp : DatePart) (d : Int) :
    ∃ f l, dp.Bounds d f l ∧ f = dp.first (dp.period d) ∧ l = dp.first (dp.period d + 1) - 1 := by
  have hd := dp.period_eq_iff.mp (rfl : dp.period d = _)
  refine ⟨_, _, ⟨⟨dp.period_eq_iff.mpr ⟨le_refl _, by omega⟩, fun x hx => ?_⟩,
    ⟨dp.period_eq_iff.mpr ⟨by omega, by omega⟩, fun x hx => ?_⟩⟩, rfl, rfl⟩
  · exact (dp.period_eq_iff.mp hx).1
  · have hlt := (dp.period_eq_iff.mp hx).2
    omega

variable {d : Int}

theorem isoYear_eq (d : Int) :
    isoYear d = DatePart.isoYear.period d := by
  have hthursday : d - (weekday d + 6) % 7 + 3 = 7 * ((d + 3) / 7) := by
    unfold weekday
    omega
  rw [isoYear, hthursday]
  rfl

theorem isoYearStart_eq (iy : Int) :
    isoYearStart iy = dateOrZero (checkDate (DatePart.isoYear.first iy)) := by
  have hjan4 : Civil.days ⟨iy, 1, 4⟩ = firstDay (12 * iy) + 3 := by
    simp only [Civil.days]
    rw [show 12 * iy + 1 - 1 = 12 * iy by omega]
    omega
  have hmonday : firstDay (12 * iy) + 3 - (weekday (firstDay (12 * iy) + 3) + 6) % 7 =
      DatePart.isoYear.first iy := by
    simp only [weekday, DatePart.first]
    omega
  rw [← hmonday, ← hjan4]
  rfl

theorem isoYear_first_inRange_iff {iy : Int} :
    DateInRange (DatePart.isoYear.first iy) ↔ 1 ≤ iy ∧ iy ≤ 9999 := by
  have hone : firstDay 12 = minDateDays := by decide
  have htop : firstDay 119988 = 2932532 := by decide
  have hover : firstDay 120000 = maxDateDays + 1 := by decide
  have hlo := firstDay_strictMono.le_iff_le (a := 12) (b := 12 * iy)
  have hhi := firstDay_strictMono.le_iff_le (a := 12 * iy) (b := 119988)
  have hbelow := firstDay_strictMono.le_iff_le (a := 12 * iy) (b := 0)
  have habove := firstDay_strictMono.le_iff_le (a := 120000) (b := 12 * iy)
  have hzero : firstDay 0 = -719528 := by decide
  simp only [DatePart.first, DateInRange, minDateDays, maxDateDays] at *
  omega

theorem isoYear_period_bounds (hd : DateInRange d) :
    1 ≤ DatePart.isoYear.period d ∧ DatePart.isoYear.period d ≤ 9999 := by
  have hthursday : DateInRange (7 * ((d + 3) / 7)) := by
    unfold DateInRange minDateDays maxDateDays at hd ⊢
    omega
  rw [dateInRange_iff] at hthursday
  dsimp only [DatePart.period]
  omega

/-- **The code finds the first day of every period of a date in range.** -/
theorem truncDate_eq (hd : DateInRange d) (dp : DatePart) :
    truncDate d dp = dp.first (dp.period d) := by
  have hmonth := dateInRange_iff.mp hd
  have hfirst : ∀ {y m t : Int}, 12 * y + m - 1 = t → 12 ≤ t → t < 120000 →
      dateOrZero (dateFromYMD y m 1) = firstDay t := by
    intro y m t ht hlo hhi
    have hdays : Civil.days ⟨y, m, 1⟩ = firstDay t := by
      simp [Civil.days, ht]
    rw [dateFromYMD, hdays, checkDate_eq_ok (firstDay_inRange_iff.mpr ⟨hlo, hhi⟩)]
    rfl
  cases dp with
  | day => rfl
  | week | isoWeek =>
    simp only [truncDate, weekday, DatePart.first, DatePart.period]
    omega
  | month => exact hfirst (by dsimp only [civil, DatePart.period]; omega) hmonth.1 hmonth.2
  | quarter | year =>
    dsimp only [truncDate, DatePart.first, DatePart.period, civil]
    exact hfirst (by omega) (by omega) (by omega)
  | isoYear =>
    rw [truncDate, isoYear_eq, isoYearStart_eq,
      checkDate_eq_ok (isoYear_first_inRange_iff.mpr (isoYear_period_bounds hd))]
    rfl

/-- The date is in none of the periods at the ends of the range that the code gets wrong: the
week of 0000-12-31, and the month, the quarter and the ISO year of 9999-12-31. -/
def DatePart.Inner (d : Int) : DatePart → Prop
  | .week w => (DatePart.week w).period d ≠ (DatePart.week w).period (minDateDays - 1)
  | .month => DatePart.month.period d ≠ DatePart.month.period maxDateDays
  | .quarter => DatePart.quarter.period d ≠ DatePart.quarter.period maxDateDays
  | .isoYear => DatePart.isoYear.period d ≠ DatePart.isoYear.period maxDateDays
  | _ => True

theorem answers_ok_iff {x y : Int} :
    Answers (.ok y) x ↔ DateInRange x ∧ y = x := by
  refine ⟨fun h => ?_, fun ⟨hx, h⟩ => ⟨fun _ => h ▸ rfl, absurd hx⟩⟩
  by_cases hx : DateInRange x
  · exact ⟨hx, Except.ok.inj (h.1 hx)⟩
  · obtain ⟨st, hst⟩ := h.2 hx
    cases hst

/-- A last day that is found as the day before the next period needs that period in range. -/
theorem answers_pred_iff {r : Except Status Int} {x : Int} (h : Answers r x)
    (hx : DateInRange (x - 1)) :
    Answers (r.map (fun n => n - 1)) (x - 1) ↔ DateInRange x := by
  by_cases hnext : DateInRange x
  · rw [h.1 hnext]
    exact iff_of_true (answers_ok_iff.mpr ⟨hx, rfl⟩) hnext
  · obtain ⟨st, hst⟩ := h.2 hnext
    rw [hst]
    exact iff_of_false (fun hno => nomatch hno.1 hx) hnext

/-- A last day by `addDate`, for a period of `k` months from `t` on. -/
theorem answers_lastDay_months {t k : Int} (ht : 12 ≤ t) (hk : 0 < k) (htop : t + k ≤ 120000) :
    Answers ((addDate (firstDay t) k .month).map (fun n => n - 1)) (firstDay (t + k) - 1) ↔
      t + k ≠ 120000 := by
  have hstart : DateInRange (firstDay t) := firstDay_inRange_iff.mpr ⟨ht, by omega⟩
  have hnext := answers_addDate (n := k) hstart .month
  rw [DateUnit.moved, moved_firstDay] at hnext
  have hend : DateInRange (firstDay (t + k) - 1) := by
    have hover : firstDay 120000 = maxDateDays + 1 := by decide
    have hlt := firstDay_strictMono (show t < t + k by omega)
    have hle := firstDay_strictMono.monotone htop
    unfold DateInRange at hstart ⊢
    omega
  rw [answers_pred_iff hnext hend, firstDay_inRange_iff]
  omega

/-- `LAST_DAY` of a year. -/
theorem answers_lastDay_year (y : Int) :
    Answers (dateFromYMD y 12 31) (firstDay (12 * (y + 1)) - 1) := by
  have hsucc := firstDay_succ (12 * y + 11)
  rw [show (12 * y + 11) % 12 + 1 = 12 by omega] at hsucc
  have hdays : Civil.days ⟨y, 12, 31⟩ = firstDay (12 * (y + 1)) - 1 := by
    simp only [Civil.days]
    rw [show 12 * (y + 1) = 12 * y + 11 + 1 by omega, hsucc,
      show 12 * y + 12 - 1 = 12 * y + 11 by omega]
    rfl
  exact hdays ▸ answers_checkDate _

/-- `LAST_DAY` of an ISO year takes the day before 1970-01-01 if the next ISO year starts out
of range. -/
theorem answers_lastDay_isoYear {j : Int} (hj : 1 ≤ j ∧ j ≤ 9999)
    (hlt : DatePart.isoYear.first j < DatePart.isoYear.first (j + 1)) :
    Answers (.ok (isoYearStart (isoYear (DatePart.isoYear.first j) + 1) - 1))
      (DatePart.isoYear.first (j + 1) - 1) ↔ j ≠ 9999 := by
  rw [isoYear_eq, DatePart.isoYear.period_eq_iff.mpr ⟨le_refl _, hlt⟩, isoYearStart_eq,
    answers_ok_iff]
  by_cases hend : j = 9999
  · subst hend
    exact iff_of_false (fun h => absurd h.1 (by unfold DateInRange; decide)) (by simp)
  have hnext := isoYear_first_inRange_iff.mpr (show 1 ≤ j + 1 ∧ j + 1 ≤ 9999 by omega)
  have hfirst := isoYear_first_inRange_iff.mpr hj
  refine iff_of_true ⟨?_, by rw [checkDate_eq_ok hnext]; rfl⟩ hend
  unfold DateInRange at hfirst hnext ⊢
  omega

/-- **The two functions find the period of a date exactly outside those at the ends.** -/
theorem period_bounds_iff_inner (hd : DateInRange d) {dp : DatePart} (hdp : dp ≠ .day) :
    ∃ f l, dp.Bounds d f l ∧
      ((Answers (dateTrunc d dp) f ∧ Answers (lastDay d dp) l ∧ f ≤ d ∧ d ≤ l) ↔ dp.Inner d) := by
  obtain ⟨f, l, hbounds, hf, hl⟩ := dp.exists_bounds d
  refine ⟨f, l, hbounds, ?_⟩
  have hfd : f ≤ d := hbounds.first.2 rfl
  have hdl : d ≤ l := hbounds.last.2 rfl
  obtain ⟨hmonth, hmonth'⟩ := dateInRange_iff.mp hd
  have htop : monthOf maxDateDays = 119999 := by decide
  have hweeks : minDateDays ≤ d ∧ d ≤ maxDateDays := hd
  simp only [dateTrunc, lastDay, truncDate_eq hd dp, answers_ok_iff, hfd, hdl, and_true, ← hf]
  -- a period of months starts in range, as the range is one of whole years
  have hstart : ∀ {t : Int}, f = firstDay t → 12 ≤ t → t < 120000 → DateInRange f :=
    fun h hlo hhi => h ▸ firstDay_inRange_iff.mpr ⟨hlo, hhi⟩
  cases dp with
  | day => exact absurd rfl hdp
  | week w =>
    have hlast : l = f + 6 := by
      simp only [hf, hl, DatePart.first]
      omega
    rw [hlast, and_iff_left (answers_checkDate _), hf]
    simp only [DatePart.Inner, DateInRange, DatePart.first, DatePart.period, minDateDays,
      maxDateDays] at hweeks ⊢
    omega
  | isoWeek =>
    have hlast : l = f + 6 := by
      simp only [hf, hl, DatePart.first]
      omega
    rw [hlast, and_iff_left (answers_checkDate _), hf]
    simp only [DatePart.Inner, iff_true, DateInRange, DatePart.first, DatePart.period, minDateDays,
      maxDateDays] at hweeks ⊢
    omega
  | month =>
    have hlast := answers_lastDay_months (k := 1) hmonth (by decide) (by omega)
    simp only [DatePart.Inner, DatePart.first, DatePart.period, htop] at hf hl ⊢
    rw [hl, hf, hlast, and_iff_right (hf ▸ hstart hf hmonth hmonth')]
    omega
  | quarter =>
    have hlast := answers_lastDay_months (t := 3 * (monthOf d / 3)) (k := 3) (by omega) (by decide)
      (by omega)
    simp only [DatePart.Inner, DatePart.first, DatePart.period, htop, mul_add] at hf hl ⊢
    rw [hl, hf, mul_one, hlast, and_iff_right (hf ▸ hstart hf (by omega) (by omega))]
    omega
  | year =>
    simp only [DatePart.Inner, DatePart.first, DatePart.period] at hf hl ⊢
    have hyear : (civil f).year = monthOf d / 12 := by
      rw [hf]
      simp only [civil, monthOf_firstDay]
      omega
    rw [hl, hyear]
    exact iff_of_true ⟨hstart hf (by omega) (by omega), answers_lastDay_year _⟩ trivial
  | isoYear =>
    have hj := isoYear_period_bounds hd
    have hmax : DatePart.isoYear.period maxDateDays = 9999 := by decide
    simp only [DatePart.Inner, hmax]
    rw [hl, hf, and_iff_right (isoYear_first_inRange_iff.mpr hj)]
    exact answers_lastDay_isoYear hj (by omega)

theorem period_bounds_iff_inner_leap : ∃ f l, DatePart.month.Bounds 59 f l ∧
    ((Answers (dateTrunc 59 .month) f ∧ Answers (lastDay 59 .month) l ∧ f ≤ 59 ∧ 59 ≤ l) ↔
      DatePart.month.Inner 59) :=
  period_bounds_iff_inner (by unfold DateInRange; decide) (by decide)

/-- `LAST_DAY` of 9999-12-31 is an error, and `DATE_TRUNC` of 0001-01-01 to the week from
Sunday on is 0000-12-31. -/
theorem period_bounds_wrong_at_ends :
    DateInRange maxDateDays ∧
      (∀ x, DatePart.month.period x = DatePart.month.period maxDateDays → x ≤ maxDateDays) ∧
      lastDay maxDateDays .month = .error (evalErrorf "DATE value out of range" []) ∧
      lastDay maxDateDays .isoYear = .ok (-1) ∧
      dateTrunc minDateDays (.week 0) = .ok (minDateDays - 1) ∧
      ¬ DateInRange (minDateDays - 1) := by
  refine ⟨by unfold DateInRange; decide, fun x hx => ?_, rfl, rfl, rfl, by unfold DateInRange; decide⟩
  have hlt := (DatePart.month.period_eq_iff.mp hx).2
  have hnext : DatePart.month.first (DatePart.month.period maxDateDays + 1) = maxDateDays + 1 := by
    decide
  omega

end Periods

end Gsql
end LittleBigtable
