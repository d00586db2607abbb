import LittleBigtable.Lib.Gregorian
import Mathlib.Order.Bounds.Basic
import Mathlib.Algebra.Order.Group.Unbundled.Int

/-!
# Civil times in a time zone

`civilToTime` finds the instant of a wall clock reading.  Instants are nanoseconds since
1970-01-01 in UTC.  A zone is the function that gives the offset of every instant in whole
seconds; `time.Date` in a zone other than UTC is an input.

The code reads the offset a day before and a day after the reading taken as UTC.  With one
change between, every instant with that reading has one of the two offsets.
-/

namespace LittleBigtable
namespace Gsql

open Gregorian

section Code

/-- A date with a time of the day; `nano` is below a second. -/
@[ext] structure CivilTime where
  date : Civil
  hour : Int
  minute : Int
  second : Int
  nano : Int
deriving DecidableEq

structure CivilTime.Valid (c : CivilTime) : Prop where
  date : c.date.Valid
  hour : 0 ≤ c.hour ∧ c.hour < 24
  minute : 0 ≤ c.minute ∧ c.minute < 60
  second : 0 ≤ c.second ∧ c.second < 60
  nano : 0 ≤ c.nano ∧ c.nano < 10 ^ 9

/-- A day in nanoseconds. -/
def dayNanos : Int :=
  86400 * 10 ^ 9

/-- `time.Date` in UTC. -/
def CivilTime.naive (c : CivilTime) : Int :=
  c.date.days * dayNanos + (c.hour * 3600 + c.minute * 60 + c.second) * 10 ^ 9 + c.nano

/-- The reading in UTC of an instant. -/
def readUTC (t : Int) : CivilTime where
  date := civil (t / dayNanos)
  hour := t % dayNanos / (3600 * 10 ^ 9)
  minute := t % dayNanos / (60 * 10 ^ 9) % 60
  second := t % dayNanos / 10 ^ 9 % 60
  nano := t % 10 ^ 9

/-- A `time.Location`. -/
structure Zone where
  isUTC : Bool
  offset : Int → Int
  /-- `time.Date` in the zone. -/
  date : CivilTime → Int
  offset_eq_zero : isUTC = true → ∀ t, offset t = 0

/-- The wall clock of the zone. -/
def Zone.wall (z : Zone) (t : Int) : CivilTime :=
  readUTC (t + z.offset t * 10 ^ 9)

/-- The clock shows the civil time, up to its nanoseconds. -/
def Zone.shows (z : Zone) (t : Int) (c : CivilTime) : Bool :=
  (z.wall t).date.year = c.date.year ∧ (z.wall t).date.month = c.date.month ∧
    (z.wall t).date.day = c.date.day ∧ (z.wall t).hour = c.hour ∧ (z.wall t).minute = c.minute ∧
    (z.wall t).second = c.second

/-- One round of the loop over the two offsets. -/
def Zone.tryOffset (z : Zone) (c : CivilTime) (best : Option Int) (off : Int) : Option Int :=
  let t := c.naive - off * 10 ^ 9
  if z.shows t c then
    match best with
    | none => some t
    | some b => if t < b then some t else some b
  else
    best

def civilToTime (z : Zone) (c : CivilTime) : Int :=
  if z.isUTC then
    c.naive
  else
    let before := z.offset (c.naive - dayNanos)
    let after := z.offset (c.naive + dayNanos)
    match [before, after].foldl (z.tryOffset c) none with
    | some best => best
    | none => if before = after then z.date c else c.naive - before * 10 ^ 9

end Code

section Readings

variable {c : CivilTime} {z : Zone}

theorem CivilTime.Valid.readUTC_naive (h : c.Valid) :
    readUTC c.naive = c := by
  obtain ⟨date, hour, minute, second, nano⟩ := c
  obtain ⟨hdate, hhour, hminute, hsecond, hnano⟩ := h
  dsimp only at hdate hhour hminute hsecond hnano
  have hday : CivilTime.naive ⟨date, hour, minute, second, nano⟩ / dayNanos = date.days := by
    simp only [CivilTime.naive, dayNanos]
    omega
  have hrest : CivilTime.naive ⟨date, hour, minute, second, nano⟩ % dayNanos =
      (hour * 3600 + minute * 60 + second) * 10 ^ 9 + nano := by
    simp only [CivilTime.naive, dayNanos]
    omega
  simp only [readUTC, hday, hdate.civil_days, hrest, CivilTime.mk.injEq, true_and]
  simp only [CivilTime.naive, dayNanos]
  omega

theorem naive_readUTC (t : Int) :
    (readUTC t).naive = t := by
  simp only [CivilTime.naive, readUTC, days_civil, dayNanos]
  omega

theorem wall_eq_iff (h : c.Valid) {t : Int} :
    z.wall t = c ↔ t = c.naive - z.offset t * 10 ^ 9 := by
  constructor
  · intro hwall
    have hnaive := naive_readUTC (t + z.offset t * 10 ^ 9)
    rw [Zone.wall] at hwall
    rw [hwall] at hnaive
    omega
  · intro ht
    rw [Zone.wall, show t + z.offset t * 10 ^ 9 = c.naive by omega, h.readUTC_naive]

/-- The nanoseconds need no test, as offsets are whole seconds. -/
theorem shows_iff (h : c.Valid) (off : Int) :
    z.shows (c.naive - off * 10 ^ 9) c = true ↔ z.offset (c.naive - off * 10 ^ 9) = off := by
  have hwall := wall_eq_iff (z := z) (t := c.naive - off * 10 ^ 9) h
  have hnano : (z.wall (c.naive - off * 10 ^ 9)).nano = c.nano := by
    have hc := congrArg CivilTime.nano h.readUTC_naive
    simp only [Zone.wall, readUTC] at hc ⊢
    omega
  have hshows : z.shows (c.naive - off * 10 ^ 9) c = true ↔ z.wall (c.naive - off * 10 ^ 9) = c := by
    simp only [Zone.shows, decide_eq_true_eq, CivilTime.ext_iff, Civil.ext_iff, hnano, and_true,
      and_assoc]
  rw [hshows, hwall]
  omega

end Readings

section Resolution

variable {c : CivilTime} {z : Zone} {change a b : Int}

/-- The offset is `a` before the change and `b` from it on, in the 48 hours around `t`. -/
def Zone.ChangesOnce (z : Zone) (t change a b : Int) : Prop :=
  ∀ u, t - dayNanos ≤ u → u ≤ t + dayNanos → z.offset u = if u < change then a else b

theorem Zone.ChangesOnce.offset_eq (h : z.ChangesOnce c.naive change a b) {t : Int}
    (ht : c.naive - dayNanos ≤ t ∧ t ≤ c.naive + dayNanos) :
    z.offset t = z.offset (c.naive - dayNanos) ∨ z.offset t = z.offset (c.naive + dayNanos) := by
  have hday : 0 ≤ dayNanos := by decide
  rw [h t ht.1 ht.2, h (c.naive - dayNanos) (by omega) (by omega),
    h (c.naive + dayNanos) (by omega) (by omega)]
  split_ifs <;> omega

/-- The loop over two offsets takes the earliest instant that shows the civil time. -/
theorem foldl_tryOffset (hc : c.Valid) (b₁ b₂ : Int) :
    [b₁, b₂].foldl (z.tryOffset c) none =
      if z.offset (c.naive - b₁ * 10 ^ 9) = b₁ then
        if z.offset (c.naive - b₂ * 10 ^ 9) = b₂ ∧ b₁ < b₂ then
          some (c.naive - b₂ * 10 ^ 9)
        else
          some (c.naive - b₁ * 10 ^ 9)
      else if z.offset (c.naive - b₂ * 10 ^ 9) = b₂ then
        some (c.naive - b₂ * 10 ^ 9)
      else
        none := by
  have hlt : c.naive - b₂ * 10 ^ 9 < c.naive - b₁ * 10 ^ 9 ↔ b₁ < b₂ := by omega
  simp only [List.foldl_cons, List.foldl_nil, Zone.tryOffset, shows_iff hc]
  split_ifs <;> simp_all

/-- **Civil times resolve to the earliest instant, or by the offset before the change.** -/
theorem civilToTime_resolves (hc : c.Valid) (hoff : ∀ t, |z.offset t| ≤ 15 * 3600)
    (h : z.ChangesOnce c.naive change a b) :
    ((∃ t, z.wall t = c) → IsLeast {t | z.wall t = c} (civilToTime z c)) ∧
      ((¬ ∃ t, z.wall t = c) → civilToTime z c = c.naive - a * 10 ^ 9) := by
  have hwall : ∀ {off}, z.offset (c.naive - off * 10 ^ 9) = off →
      z.wall (c.naive - off * 10 ^ 9) = c := fun hok => (wall_eq_iff hc).mpr (by rw [hok])
  have honly : ∀ t, z.wall t = c → ∃ off,
      (off = z.offset (c.naive - dayNanos) ∨ off = z.offset (c.naive + dayNanos)) ∧
        t = c.naive - off * 10 ^ 9 ∧ z.offset t = off := by
    intro t ht
    have ht' := (wall_eq_iff hc).mp ht
    have hbound := abs_le.mp (hoff t)
    exact ⟨z.offset t, h.offset_eq (by unfold dayNanos; omega), ht', rfl⟩
  unfold civilToTime
  by_cases hutc : z.isUTC = true
  · have hzero := z.offset_eq_zero hutc
    have hnaive : z.wall c.naive = c := (wall_eq_iff hc).mpr (by rw [hzero]; omega)
    rw [if_pos hutc]
    refine ⟨fun _ => ⟨hnaive, fun t ht => ?_⟩, fun hno => absurd ⟨_, hnaive⟩ hno⟩
    have ht' := (wall_eq_iff hc).mp ht
    rw [hzero] at ht'
    omega
  rw [if_neg hutc]
  dsimp only
  have hin : c.naive - dayNanos ≤ c.naive ∧ c.naive ≤ c.naive + dayNanos := by
    unfold dayNanos
    omega
  have hbefore := h (c.naive - dayNanos) (le_refl _) (by omega)
  have hafter := h (c.naive + dayNanos) (by omega) (le_refl _)
  have hconst : z.offset (c.naive - dayNanos) = z.offset (c.naive + dayNanos) →
      z.offset (c.naive - z.offset (c.naive - dayNanos) * 10 ^ 9) = z.offset (c.naive - dayNanos) := by
    intro heq
    have hbound := abs_le.mp (hoff (c.naive - dayNanos))
    have hmem := h.offset_eq (t := c.naive - z.offset (c.naive - dayNanos) * 10 ^ 9)
      (by unfold dayNanos at hbound ⊢; omega)
    omega
  rw [foldl_tryOffset hc]
  generalize z.offset (c.naive - dayNanos) = before at honly hbefore hconst
  generalize z.offset (c.naive + dayNanos) = after at honly hafter hconst
  by_cases hb : z.offset (c.naive - before * 10 ^ 9) = before
  · by_cases ha : z.offset (c.naive - after * 10 ^ 9) = after ∧ before < after
    · rw [if_pos hb, if_pos ha]
      refine ⟨fun _ => ⟨hwall ha.1, fun t ht => ?_⟩, fun hno => absurd ⟨_, hwall hb⟩ hno⟩
      obtain ⟨off, rfl | rfl, rfl, -⟩ := honly t ht <;> dsimp only <;> omega
    · rw [if_pos hb, if_neg ha]
      refine ⟨fun _ => ⟨hwall hb, fun t ht => ?_⟩, fun hno => absurd ⟨_, hwall hb⟩ hno⟩
      obtain ⟨off, rfl | rfl, rfl, hok⟩ := honly t ht <;> dsimp only <;> omega
  by_cases ha : z.offset (c.naive - after * 10 ^ 9) = after
  · rw [if_neg hb, if_pos ha]
    refine ⟨fun _ => ⟨hwall ha, fun t ht => ?_⟩, fun hno => absurd ⟨_, hwall ha⟩ hno⟩
    obtain ⟨off, rfl | rfl, rfl, hok⟩ := honly t ht
    · exact absurd hok hb
    · exact le_refl _
  rw [if_neg hb, if_neg ha]
  have hnone : ¬ ∃ t, z.wall t = c := by
    rintro ⟨t, ht⟩
    obtain ⟨off, rfl | rfl, rfl, hok⟩ := honly t ht
    · exact hb hok
    · exact ha hok
  -- the offsets differ, so the change is between the two instants
  have hne : before ≠ after := fun heq => hb (hconst heq)
  refine ⟨fun hsome => absurd hsome hnone, fun _ => ?_⟩
  dsimp only
  rw [if_neg hne]
  split_ifs at hbefore hafter <;> omega

/-- A zone whose clock is set one hour on at the instant 0. -/
def springZone : Zone where
  isUTC := false
  offset := fun t => if t < 0 then 0 else 3600
  date := fun _ => 0
  offset_eq_zero := nofun

theorem civilToTime_resolves_skipped :
    ((∃ t, springZone.wall t = ⟨⟨1970, 1, 1⟩, 0, 30, 0, 0⟩) →
      IsLeast {t | springZone.wall t = ⟨⟨1970, 1, 1⟩, 0, 30, 0, 0⟩}
        (civilToTime springZone ⟨⟨1970, 1, 1⟩, 0, 30, 0, 0⟩)) ∧
    ((¬ ∃ t, springZone.wall t = ⟨⟨1970, 1, 1⟩, 0, 30, 0, 0⟩) →
      civilToTime springZone ⟨⟨1970, 1, 1⟩, 0, 30, 0, 0⟩ = 1800 * 10 ^ 9) :=
  have hchanges : springZone.ChangesOnce (⟨⟨1970, 1, 1⟩, 0, 30, 0, 0⟩ : CivilTime).naive 0 0 3600 :=
    fun _ _ _ => rfl
  civilToTime_resolves ⟨⟨by decide, by decide⟩, by decide, by decide, by decide, by decide⟩
    (fun t => by simp only [springZone]; split_ifs <;> decide) hchanges

end Resolution

end Gsql
end LittleBigtable
