import LittleBigtable.Gsql.Sequences

/-!
# Checked arithmetic on `int64`

The helpers compute with 64 bits and find an overflow afterwards, by the signs of a sum or
difference and by dividing a product again.  `checked_arithmetic` says that they are exact,
and that `addTimestamp`, which is made of them, fails for no result in range.
-/

namespace LittleBigtable
namespace Gsql

open Bttest

section Operations

/-- `subInt64`; `none` is an overflow. -/
def subInt64 (a b : Int) : Option Int :=
  let x := BitVec.ofInt 64 a
  let y := BitVec.ofInt 64 b
  let c := x - y
  if ((x ^^^ y) &&& (x ^^^ c)).toInt < 0 then none else some c.toInt

variable {a b : Int}

theorem subInt64_eq (ha : FitsInt64 a) (hb : FitsInt64 b) :
    subInt64 a b = if FitsInt64 (a - b) then some (a - b) else none := by
  have hc : (BitVec.ofInt 64 a - BitVec.ofInt 64 b).toInt = (a - b).bmod (2 ^ 64) := by
    rw [BitVec.toInt_sub, toInt_ofInt ha, toInt_ofInt hb]
  unfold subInt64
  simp only [xor_and_xor_neg, toInt_ofInt ha, toInt_ofInt hb, hc, bne_iff_ne, ne_eq,
    decide_eq_decide]
  unfold FitsInt64 at ha hb
  rw [bmod_eq_of_fits (by omega)]
  by_cases hfits : FitsInt64 (a - b)
  · rw [if_pos hfits, if_pos hfits, if_neg]
    omega
  · rw [if_neg hfits, if_neg hfits, if_pos]
    unfold FitsInt64 at hfits
    split_ifs <;> omega

theorem wrap64_of_fits (ha : FitsInt64 a) :
    wrap64 a = a := by
  unfold FitsInt64 at ha
  unfold wrap64
  omega

/-- A product that passes the test of `mulInt64` fits. -/
theorem fits_of_tdiv (ha : FitsInt64 a) (hb : FitsInt64 b) (hb0 : b ≠ 0)
    (hdiv : wrap64 ((wrap64 (a * b)).tdiv b) = a) (hmin : ¬ (b = -1 ∧ a = -2 ^ 63)) :
    FitsInt64 (a * b) := by
  unfold FitsInt64 at *
  by_cases hunit : b = 1 ∨ b = -1
  · rcases hunit with rfl | rfl <;> omega
  -- the quotient is small, so it is the factor and the product is off by less than `2 ^ 64`
  have hc : -2 ^ 63 ≤ wrap64 (a * b) ∧ wrap64 (a * b) < 2 ^ 63 := by
    unfold wrap64
    omega
  have hquotient : ((wrap64 (a * b)).tdiv b).natAbs ≤ (wrap64 (a * b)).natAbs / 2 := by
    rw [Int.natAbs_tdiv]
    exact Nat.div_le_div_left (by omega) (by omega)
  rw [wrap64_of_fits ⟨by omega, by omega⟩] at hdiv
  have hrest := Int.mul_tdiv_add_tmod (wrap64 (a * b)) b
  have hsmall : ((wrap64 (a * b)).tmod b).natAbs < b.natAbs := by
    rw [Int.natAbs_tmod]
    exact Nat.mod_lt _ (by omega)
  rw [hdiv, Int.mul_comm] at hrest
  unfold wrap64 at *
  omega

theorem mulInt64_eq (ha : FitsInt64 a) (hb : FitsInt64 b) :
    mulInt64 a b = if FitsInt64 (a * b) then some (a * b) else none := by
  unfold mulInt64
  by_cases hzero : a = 0 ∨ b = 0
  · have hproduct : a * b = 0 := Int.mul_eq_zero.mpr hzero
    rw [if_pos hzero, hproduct]
    rfl
  rw [if_neg hzero]
  rw [not_or] at hzero
  dsimp only
  by_cases hfits : FitsInt64 (a * b)
  · rw [if_pos hfits, wrap64_of_fits hfits, Int.mul_tdiv_cancel _ hzero.2, wrap64_of_fits ha, if_neg]
    unfold FitsInt64 at hfits
    rintro (hne | ⟨rfl, rfl⟩ | ⟨rfl, rfl⟩)
    · exact hne rfl
    · omega
    · omega
  · rw [if_neg hfits, if_pos]
    by_contra htest
    rw [not_or, not_or, not_not] at htest
    exact hfits (fits_of_tdiv ha hb hzero.2 htest.1 htest.2.2)

end Operations

section Timestamps

/-- **The helpers return the exact result, and an error exactly where it is out of range.** -/
theorem checked_arithmetic :
    (∀ a b : Int, FitsInt64 a → FitsInt64 b →
      addInt64 a b = (if FitsInt64 (a + b) then some (a + b) else none) ∧
      subInt64 a b = (if FitsInt64 (a - b) then some (a - b) else none) ∧
      mulInt64 a b = (if FitsInt64 (a * b) then some (a * b) else none)) ∧
    ∀ (ts n : Int) (unit : TimeUnit), minTimestampMicros ≤ ts ∧ ts ≤ maxTimestampMicros →
      FitsInt64 n →
      if minTimestampMicros ≤ ts + n * unitMicros unit ∧
          ts + n * unitMicros unit ≤ maxTimestampMicros then
        addTimestamp ts n unit = .ok (ts + n * unitMicros unit)
      else
        ∃ st, addTimestamp ts n unit = .error st := by
  refine ⟨fun a b ha hb => ⟨addInt64_eq ha hb, subInt64_eq ha hb, mulInt64_eq ha hb⟩,
    fun ts n unit hts hn => ?_⟩
  have hunit : FitsInt64 (unitMicros unit) := by
    cases unit <;> decide
  have hts' : FitsInt64 ts := by
    unfold minTimestampMicros maxTimestampMicros at hts
    unfold FitsInt64
    omega
  -- where an operation overflows, the shifted timestamp is out of range as well
  unfold addTimestamp
  rw [mulInt64_eq hn hunit]
  generalize n * unitMicros unit = d
  by_cases hd : FitsInt64 d
  · rw [if_pos hd]
    dsimp only
    rw [addInt64_eq hts' hd]
    by_cases hsum : FitsInt64 (ts + d)
    · rw [if_pos hsum]
      dsimp only
      unfold checkTimestamp
      split_ifs
      · omega
      · rfl
      · exact ⟨_, rfl⟩
      · omega
    · rw [if_neg hsum, if_neg]
      · exact ⟨_, rfl⟩
      unfold FitsInt64 at hsum
      unfold minTimestampMicros maxTimestampMicros
      omega
  · rw [if_neg hd, if_neg]
    · exact ⟨_, rfl⟩
    unfold FitsInt64 at hd
    unfold minTimestampMicros maxTimestampMicros at *
    omega

end Timestamps

end Gsql
end LittleBigtable
