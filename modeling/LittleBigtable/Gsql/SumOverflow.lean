import LittleBigtable.Gsql.Aggregates
import Mathlib.Algebra.BigOperators.Group.List.Basic

/-!
# `SUM` over `INT64`

The accumulator of `SUM` checks for an overflow after each addition.  So the inputs of one
total can overflow in one order and not in another: the result is the total of the inputs
that are not `NULL` if all partial sums in the order of the inputs fit, and an error
otherwise.
-/

namespace LittleBigtable
namespace Gsql

open Bttest List

section Addition

/-- The number is an `int64`. -/
def FitsInt64 (n : Int) : Prop :=
  -2 ^ 63 ≤ n ∧ n < 2 ^ 63

instance (n : Int) : Decidable (FitsInt64 n) :=
  inferInstanceAs (Decidable (_ ∧ _))

theorem toInt_ofInt {a : Int} (ha : FitsInt64 a) :
    (BitVec.ofInt 64 a).toInt = a := by
  unfold FitsInt64 at ha
  rw [BitVec.toInt_ofInt]
  exact Int.bmod_eq_of_le (by omega) (by omega)

/-- The sign of what the checks compute: both pairs have different signs. -/
theorem xor_and_xor_neg (w x y z : BitVec 64) :
    ((w ^^^ x) &&& (y ^^^ z)).toInt < 0 ↔
      (decide (w.toInt < 0) ^^ decide (x.toInt < 0)) = true ∧
        (decide (y.toInt < 0) ^^ decide (z.toInt < 0)) = true := by
  rw [← decide_eq_true_iff (p := _ < 0), ← BitVec.msb_eq_toInt, BitVec.msb_and,
    BitVec.msb_xor, BitVec.msb_xor, Bool.and_eq_true]
  simp only [BitVec.msb_eq_toInt]

/-- The low 64 bits of a sum or difference of two `int64`. -/
theorem bmod_eq_of_fits {n : Int} (hn : -2 ^ 64 ≤ n ∧ n < 2 ^ 64) :
    n.bmod (2 ^ 64) = if FitsInt64 n then n else if n < 0 then n + 2 ^ 64 else n - 2 ^ 64 := by
  unfold FitsInt64
  rw [Int.bmod_def]
  split_ifs <;> omega

/-- The test of the signs is that for an overflow. -/
theorem addInt64_eq {a b : Int} (ha : FitsInt64 a) (hb : FitsInt64 b) :
    addInt64 a b = if FitsInt64 (a + b) then some (a + b) else none := by
  have hc : (BitVec.ofInt 64 a + BitVec.ofInt 64 b).toInt = (a + b).bmod (2 ^ 64) := by
    rw [BitVec.toInt_add, toInt_ofInt ha, toInt_ofInt hb]
  unfold addInt64
  simp only [xor_and_xor_neg, toInt_ofInt ha, toInt_ofInt hb, hc, bne_iff_ne, ne_eq,
    decide_eq_decide]
  unfold FitsInt64 at ha hb
  rw [bmod_eq_of_fits (by omega)]
  by_cases hfits : FitsInt64 (a + b)
  · rw [if_pos hfits, if_pos hfits, if_neg]
    omega
  · rw [if_neg hfits, if_neg hfits, if_pos]
    unfold FitsInt64 at hfits
    split_ifs <;> omega

end Addition

section Sum

/-- The inputs other than `NULL`. -/
def nonNull (inputs : List (Option Int)) : List Int :=
  inputs.filterMap id

/-- An input as the arguments of `SUM` on a row. -/
def sumArgs : Option Int → List SqlDatum
  | none => [.scalar .null]
  | some n => [.scalar (.int64 n)]

/-- A call of `SUM` over `INT64`. -/
def sumCall (e : BExpr NestedValue) : AggCall :=
  ⟨"SUM", .sumInt, [e], false, false, [], none⟩

/-- `SUM` on the inputs of a group, in the order of the rows. -/
def runSum (fa : FloatArith) (e : BExpr NestedValue)
    (inputs : List (Option Int)) : Except Status SqlDatum :=
  (sumCall e).run fa (-1) (inputs.map (fun x => (sumArgs x, [])))

/-- All partial sums from `acc` on fit. -/
def SumsFit (acc : Int) (ns : List Int) : Prop :=
  ∀ k, FitsInt64 (acc + (ns.take k).sum)

/-- All partial sums of the inputs fit. -/
def PartialSumsFit (inputs : List (Option Int)) : Prop :=
  ∀ k, FitsInt64 ((nonNull inputs).take k).sum

theorem sumsFit_cons_iff {acc n : Int} {ns : List Int} :
    SumsFit acc (n :: ns) ↔ FitsInt64 acc ∧ SumsFit (acc + n) ns := by
  constructor
  · intro h
    refine ⟨by simpa using h 0, fun k => ?_⟩
    have hk := h (k + 1)
    rwa [take_succ_cons, sum_cons, ← Int.add_assoc] at hk
  rintro ⟨hacc, hns⟩ k
  cases k with
  | zero => simpa using hacc
  | succ k =>
    rw [take_succ_cons, sum_cons, ← Int.add_assoc]
    exact hns k

theorem SumsFit.acc {acc : Int} {ns : List Int} (h : SumsFit acc ns) :
    FitsInt64 acc := by
  simpa using h 0

/-- The runner of `SUM` in the middle of a group. -/
def sumRunner (any : Bool) (acc : Int) : AggRunner :=
  ⟨.sum true any acc 0, [], [], -1⟩

variable {fa : FloatArith} {e : BExpr NestedValue}

@[simp] theorem add_sumRunner_none (any : Bool) (acc : Int) :
    (sumCall e).add fa (sumRunner any acc) (sumArgs none) [] = .ok (sumRunner any acc) := by
  rfl

theorem add_sumRunner_some (any : Bool) {acc n : Int} (hacc : FitsInt64 acc) (hn : FitsInt64 n) :
    (sumCall e).add fa (sumRunner any acc) (sumArgs (some n)) [] =
      if FitsInt64 (acc + n) then .ok (sumRunner true (acc + n))
      else .error (evalErrorf "int64 overflow in SUM" []) := by
  have hadd := addInt64_eq hacc hn
  have hstep : (sumCall e).add fa (sumRunner any acc) (sumArgs (some n)) [] =
      (AggState.add fa (.sum true any acc 0) [.scalar (.int64 n)]).map
        (fun st => ⟨st, [], [], -1⟩) := rfl
  rw [hstep]
  simp only [AggState.add, arg, List.headD_cons, NestedValue.asInt, hadd]
  split_ifs with hnull hfits
  · cases hnull
  · cases hnull
  · rfl
  · rfl

/-- The whole loop: it fails at the first partial sum that does not fit. -/
theorem foldlM_sumRunner (inputs : List (Option Int)) (hinputs : ∀ n ∈ nonNull inputs, FitsInt64 n)
    (any : Bool) {acc : Int} (hacc : FitsInt64 acc) :
    (SumsFit acc (nonNull inputs) →
      (inputs.map (fun x => (sumArgs x, []))).foldlM
          (fun r row => (sumCall e).add fa r row.1 row.2) (sumRunner any acc) =
        .ok (sumRunner (any || !(nonNull inputs).isEmpty) (acc + (nonNull inputs).sum))) ∧
    (¬ SumsFit acc (nonNull inputs) →
      (inputs.map (fun x => (sumArgs x, []))).foldlM
          (fun r row => (sumCall e).add fa r row.1 row.2) (sumRunner any acc) =
        .error (evalErrorf "int64 overflow in SUM" [])) := by
  induction inputs generalizing any acc with
  | nil =>
    refine ⟨fun _ => ?_, fun h => absurd (fun k => ?_) h⟩
    · simp [nonNull, pure, Except.pure]
    · simpa [nonNull] using hacc
  | cons x inputs ih =>
    rw [map_cons, foldlM_cons]
    cases x with
    | none =>
      rw [add_sumRunner_none]
      exact ih hinputs any hacc
    | some n =>
      have hcons : nonNull (some n :: inputs) = n :: nonNull inputs := rfl
      rw [hcons] at hinputs ⊢
      obtain ⟨hn, hrest⟩ := forall_mem_cons.mp hinputs
      rw [add_sumRunner_some any hacc hn, sumsFit_cons_iff]
      by_cases hfits : FitsInt64 (acc + n)
      · rw [if_pos hfits]
        obtain ⟨hok, herror⟩ := ih hrest true hfits
        refine ⟨fun h => ?_, fun h => herror fun hns => h ⟨hacc, hns⟩⟩
        have htotal := hok h.2
        rw [Bool.true_or] at htotal
        have hany : (any || !(n :: nonNull inputs).isEmpty) = true := Bool.or_true any
        rw [hany, sum_cons, ← Int.add_assoc]
        exact htotal
      · rw [if_neg hfits]
        exact ⟨fun h => absurd h.2.acc hfits, fun _ => rfl⟩

/-- The total of the inputs, as the result of `SUM`. -/
def sumResult (inputs : List (Option Int)) : SqlDatum :=
  if nonNull inputs = [] then .scalar .null else .scalar (.int64 (nonNull inputs).sum)

theorem partialSumsFit_iff {inputs : List (Option Int)} :
    PartialSumsFit inputs ↔ SumsFit 0 (nonNull inputs) := by
  unfold PartialSumsFit SumsFit
  simp only [Int.zero_add]

theorem runSum_eq (inputs : List (Option Int)) (hinputs : ∀ n ∈ nonNull inputs, FitsInt64 n) :
    (PartialSumsFit inputs → runSum fa e inputs = .ok (sumResult inputs)) ∧
      (¬ PartialSumsFit inputs →
        runSum fa e inputs = .error (evalErrorf "int64 overflow in SUM" [])) := by
  have hloop := @foldlM_sumRunner fa e inputs hinputs false 0 (by decide)
  rw [partialSumsFit_iff]
  unfold runSum AggCall.run
  have hstart : (sumCall e).newAggRunner (-1) = sumRunner false 0 := rfl
  rw [hstart]
  refine ⟨fun h => ?_, fun h => ?_⟩
  · rw [hloop.1 h, Int.zero_add]
    unfold sumResult
    cases hns : nonNull inputs with
    | nil | cons => rfl
  · rw [hloop.2 h]
    rfl

/-- **`SUM` is the total if all partial sums fit.**  This is so for the inputs in any
order. -/
theorem sum_of_partialSums (fa : FloatArith) (e : BExpr NestedValue) (inputs : List (Option Int))
    (hinputs : ∀ n ∈ nonNull inputs, FitsInt64 n) (reordered : List (Option Int))
    (hperm : reordered.Perm inputs) :
    (PartialSumsFit reordered → runSum fa e reordered = .ok (sumResult inputs)) ∧
      (¬ PartialSumsFit reordered →
        runSum fa e reordered = .error (evalErrorf "int64 overflow in SUM" [])) := by
  have hns : (nonNull reordered).Perm (nonNull inputs) := hperm.filterMap id
  have hresult : sumResult reordered = sumResult inputs := by
    have hnil : nonNull reordered = [] ↔ nonNull inputs = [] := by
      rw [← length_eq_zero_iff, hns.length_eq, length_eq_zero_iff]
    unfold sumResult
    rw [hns.sum_eq]
    simp only [hnil]
  rw [← hresult]
  exact runSum_eq reordered fun n hn => hinputs n (hns.mem_iff.mp hn)

/-- The arithmetic of floats does not matter here. -/
def noFloats : FloatArith :=
  ⟨fun _ _ => 0, fun _ _ => 0, fun _ _ => 0, fun _ _ => 0, fun _ => 0, fun _ => 0, fun _ => 0⟩

/-- The inputs in an order without an overflow. -/
theorem sum_of_partialSums_reordered :
    runSum noFloats .rand [some (2 ^ 63 - 1), none, some (-1), some 1] =
      .ok (.scalar (.int64 (2 ^ 63 - 1))) := by
  refine (sum_of_partialSums noFloats .rand [some (2 ^ 63 - 1), some 1, none, some (-1)]
    (by decide) [some (2 ^ 63 - 1), none, some (-1), some 1] (by decide)).1 ?_
  intro k
  match k with
  | 0 => decide
  | 1 => decide
  | 2 => decide
  | k + 3 =>
    have hall : (nonNull [some (2 ^ 63 - 1), none, some (-1), some 1]).take (k + 3) =
        [2 ^ 63 - 1, -1, 1] := by
      simp [nonNull]
    rw [hall]
    decide

/-- A total that fits, with an overflow on the way. -/
theorem sum_overflows_early :
    FitsInt64 (nonNull [some (2 ^ 63 - 1), some 1, some (-1)]).sum ∧
      runSum noFloats .rand [some (2 ^ 63 - 1), some 1, some (-1)] =
        .error (evalErrorf "int64 overflow in SUM" []) ∧
      runSum noFloats .rand [some (2 ^ 63 - 1), some (-1), some 1] =
        .ok (.scalar (.int64 (2 ^ 63 - 1))) := by
  exact ⟨by decide, by rfl, by rfl⟩

end Sum

end Gsql
end LittleBigtable
