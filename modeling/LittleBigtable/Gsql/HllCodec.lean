import LittleBigtable.Gsql.Hll
import Mathlib.Tactic.Ring

/-!
# Sketches survive their encoding

A sketch is consistent when its precision is one that the decoder accepts and
its representation fits the precision.  Decoding yields consistent sketches,
adding and merging keep them consistent, and the encoding of a consistent sketch
decodes to the sketch.
-/

namespace LittleBigtable
namespace Gsql

open Bttest List

section Uvarint

variable (x : UInt64)

theorem toBitVec_shiftLeft_ofNat {s : Nat} (hs : s < 64) :
    (x <<< UInt64.ofNat s).toBitVec = x.toBitVec <<< s := by
  have hmod : ((UInt64.ofNat s).toBitVec % 64).toNat = s := by
    have h : (UInt64.ofNat s).toBitVec.toNat = s := by
      rw [UInt64.toNat_toBitVec, UInt64.toNat_ofNat']
      omega
    rw [BitVec.toNat_umod, h]
    exact Nat.mod_eq_of_lt hs
  rw [UInt64.toBitVec_shiftLeft, BitVec.shiftLeft_eq', hmod]

theorem getLsbD_low_seven (x : BitVec 64) (k : Nat) :
    (x &&& 0x7f#64).getLsbD k = (decide (k < 7) && x.getLsbD k) := by
  rw [BitVec.getLsbD_and]
  by_cases hk : k < 7
  · have hcases : k = 0 ∨ k = 1 ∨ k = 2 ∨ k = 3 ∨ k = 4 ∨ k = 5 ∨ k = 6 := by
      omega
    rcases hcases with rfl | rfl | rfl | rfl | rfl | rfl | rfl <;> simp
  have hhigh : (0x7f#64).getLsbD k = false := by
    have hwide : (0x7f#64) = BitVec.setWidth 64 (0x7f#7) := by decide
    rw [hwide, BitVec.getLsbD_setWidth, BitVec.getLsbD_of_ge _ _ (by omega)]
    simp
  simp [hk, hhigh]

/-- Seven bits of a number and its remaining bits make up the number. -/
theorem or_low_high (acc x : UInt64) {i : Nat} (hi : 7 * (i + 1) < 64) :
    (acc ||| ((x &&& 0x7f) <<< UInt64.ofNat (7 * i))) |||
        ((x >>> 7) <<< UInt64.ofNat (7 * (i + 1))) =
      acc ||| (x <<< UInt64.ofNat (7 * i)) := by
  have hlo : 7 * i < 64 := by omega
  rw [← UInt64.toBitVec_inj]
  refine BitVec.eq_of_getLsbD_eq (fun k hk => ?_)
  simp only [UInt64.toBitVec_or, toBitVec_shiftLeft_ofNat _ hlo,
    toBitVec_shiftLeft_ofNat _ hi, UInt64.toBitVec_and,
    UInt64.toBitVec_shiftRight, BitVec.getLsbD_or, BitVec.getLsbD_shiftLeft,
    BitVec.ushiftRight_eq', BitVec.getLsbD_ushiftRight, hk, decide_true,
    Bool.true_and]
  have hmask : UInt64.toBitVec 127 = 0x7f#64 := rfl
  have hseven : (UInt64.toBitVec 7 % 64).toNat = 7 := rfl
  rw [hmask, hseven, getLsbD_low_seven]
  -- below the seven bits, inside them, above them
  by_cases hk1 : k < 7 * i
  · simp [hk1, show k < 7 * (i + 1) by omega]
  by_cases hk2 : k < 7 * (i + 1)
  · simp [hk1, hk2, show k - 7 * i < 7 by omega]
  · simp [hk1, hk2, show ¬ k - 7 * i < 7 by omega,
      show 7 + (k - 7 * (i + 1)) = k - 7 * i by omega]
theorem toNat_and_127 :
    (x &&& 0x7f).toNat = x.toNat % 128 := by
  rw [UInt64.toNat_and]
  exact Nat.and_two_pow_sub_one_eq_mod x.toNat 7

theorem payload_continuation :
    ((x.toUInt8 ||| 0x80) &&& 0x7f).toUInt64 = x &&& 0x7f := by
  rw [← UInt64.toNat_inj, UInt8.toNat_toUInt64, toNat_and_127, UInt8.toNat_and,
    UInt8.toNat_or, UInt64.toNat_toUInt8]
  have hmask : (0x7f : UInt8).toNat = 2 ^ 7 - 1 := rfl
  have hbit : (0x80 : UInt8).toNat = 128 := rfl
  rw [hmask, hbit, Nat.and_two_pow_sub_one_eq_mod, Nat.or_mod_two_pow]
  simp

theorem continuation_not_lt :
    ¬ (x.toUInt8 ||| 0x80) < 0x80 := by
  rw [UInt8.lt_iff_toNat_lt, UInt8.toNat_or]
  have hbit : (0x80 : UInt8).toNat = 128 := rfl
  rw [hbit]
  have hle : 128 ≤ x.toUInt8.toNat ||| 128 := Nat.right_le_or
  omega

theorem toUInt64_toUInt8 {x : UInt64} (hx : x.toNat < 128) :
    x.toUInt8.toUInt64 = x := by
  rw [← UInt64.toNat_inj, UInt8.toNat_toUInt64, UInt64.toNat_toUInt8]
  omega

/-- Reading an encoded number from byte `i` on.  The bound on `x` makes the tenth
byte at most 1. -/
theorem uvarintFrom_appendUvarint (fuel : Nat) {i : Nat} (hi : i + fuel = 9) (acc x : UInt64)
    (hx : x.toNat < 2 ^ (64 - 7 * i)) (rest : Bytes) :
    uvarintFrom i acc (appendUvarint fuel x ++ rest) =
      some (acc ||| (x <<< UInt64.ofNat (7 * i)), rest) := by
  induction fuel generalizing i acc x with
  | zero =>
    have hi9 : i = 9 := by omega
    subst hi9
    have hsmall : x.toNat < 2 := by simpa using hx
    have hlt : x.toUInt8 < 0x80 := by
      rw [UInt8.lt_iff_toNat_lt, UInt64.toNat_toUInt8]
      have hbit : (0x80 : UInt8).toNat = 128 := rfl
      omega
    have hone : ¬ x.toUInt8 > 1 := by
      rw [gt_iff_lt, UInt8.lt_iff_toNat_lt, UInt64.toNat_toUInt8]
      have hbit : (1 : UInt8).toNat = 1 := rfl
      omega
    have hbyte : x.toUInt8.toUInt64 = x := toUInt64_toUInt8 (by omega)
    simp [appendUvarint, uvarintFrom, hlt, hone, hbyte]
  | succ fuel ih =>
    have hne10 : i ≠ 10 := by omega
    have hne9 : i ≠ 9 := by omega
    unfold appendUvarint
    split_ifs with hbig
    · rw [cons_append, uvarintFrom, if_neg hne10,
        if_neg (continuation_not_lt x), payload_continuation]
      have hshift : (x >>> 7).toNat = x.toNat / 128 := by
        rw [UInt64.toNat_shiftRight]
        simp [Nat.shiftRight_eq_div_pow]
      rw [ih (by omega) _ (x >>> 7), or_low_high acc x (by omega)]
      rw [hshift]
      have hpow : 2 ^ (64 - 7 * i) = 128 * 2 ^ (64 - 7 * (i + 1)) := by
        have h7 : 64 - 7 * i = 7 + (64 - 7 * (i + 1)) := by omega
        rw [h7, Nat.pow_add]
      rw [hpow] at hx
      omega
    · have hsmall : x.toNat < 128 := by
        have hbit : (0x80 : UInt64).toNat = 128 := rfl
        rw [ge_iff_le, UInt64.le_iff_toNat_le] at hbig
        omega
      have hlt : x.toUInt8 < 0x80 := by
        rw [UInt8.lt_iff_toNat_lt, UInt64.toNat_toUInt8]
        have hbit : (0x80 : UInt8).toNat = 128 := rfl
        omega
      simp [uvarintFrom, hne10, hne9, hlt, toUInt64_toUInt8 hsmall]

theorem uvarint_appendUvarint (rest : Bytes) :
    uvarint (appendUvarint 9 x ++ rest) = some (x, rest) := by
  unfold uvarint
  rw [uvarintFrom_appendUvarint 9 rfl 0 x x.toNat_lt rest]
  simp

theorem decodeDeltas_encodeDeltas (xs : List UInt64) (prev : UInt64)
    (hashes : Std.ExtTreeSet UInt64) (rest : Bytes) :
    decodeDeltas xs.length prev hashes (encodeDeltas prev xs ++ rest) =
      some (xs.foldl (fun s x => s.insert x) hashes, rest) := by
  induction xs generalizing prev hashes with
  | nil => rfl
  | cons x xs ih =>
    rw [length_cons, decodeDeltas, encodeDeltas, append_assoc, uvarint_appendUvarint]
    have hx : prev + (x - prev) = x := by
      rw [UInt64.add_comm]
      exact UInt64.sub_add_cancel x prev
    simp only [hx, foldl_cons]
    exact ih x (hashes.insert x)

theorem mem_foldl_insert (xs : List UInt64) (hashes : Std.ExtTreeSet UInt64) (x : UInt64) :
    x ∈ xs.foldl (fun s x => s.insert x) hashes ↔ x ∈ xs ∨ x ∈ hashes := by
  induction xs generalizing hashes with
  | nil => simp
  | cons y xs ih =>
    rw [foldl_cons, ih]
    simp only [Std.ExtTreeSet.mem_insert, Std.compare_eq_iff_eq, mem_cons]
    grind

theorem foldl_insert_toList (hashes : Std.ExtTreeSet UInt64) :
    hashes.toList.foldl (fun s x => s.insert x) ∅ = hashes := by
  refine Std.ExtTreeSet.ext_mem (fun x => ?_)
  rw [mem_foldl_insert]
  simp

end Uvarint

section Registers

/-- The register of a sketch of precision `p` that the hash raises, and its rank. -/
def hashRegister (p : Nat) (x : UInt64) : Nat × Nat :=
  ((x >>> UInt64.ofNat (64 - p)).toNat,
    leadingZeros64 ((x <<< UInt64.ofNat p) ||| ((1 : UInt64) <<< UInt64.ofNat (p - 1))) + 1)

/-- The register that is raised instead when the precision is lower by `d`. -/
def lowerRegister (d : Nat) (o : Nat × Nat) : Nat × Nat :=
  (o.1 / 2 ^ d,
    if o.1 % 2 ^ d ≠ 0 then d - (Nat.log2 (o.1 % 2 ^ d) + 1) + 1 else d + o.2)

@[simp] theorem lowerRegister_zero (o : Nat × Nat) :
    lowerRegister 0 o = o := by
  simp [lowerRegister, Nat.mod_one]

/-- The number of bits of a number with `e` low bits below `m`. -/
theorem log2_mul_two_pow_add {m e y : Nat} (hm : m ≠ 0) (hy : y < 2 ^ e) :
    Nat.log2 (m * 2 ^ e + y) = Nat.log2 m + e := by
  have hpos : m * 2 ^ e + y ≠ 0 := by
    have := Nat.two_pow_pos e
    have := Nat.mul_ne_zero hm this.ne'
    omega
  rw [Nat.log2_eq_iff hpos, Nat.pow_add, Nat.add_right_comm, Nat.pow_add]
  have hlow : 2 ^ Nat.log2 m ≤ m := Nat.log2_self_le hm
  have hhigh : m < 2 ^ (Nat.log2 m + 1) := Nat.lt_log2_self
  constructor
  · exact (Nat.mul_le_mul_right _ hlow).trans (Nat.le_add_right _ _)
  · calc m * 2 ^ e + y < m * 2 ^ e + 2 ^ e := by omega
      _ = (m + 1) * 2 ^ e := (Nat.add_one_mul m _).symm
      _ ≤ 2 ^ (Nat.log2 m + 1) * 2 ^ e := Nat.mul_le_mul_right _ hhigh

theorem log2_padded_lt {n y : Nat} (hy : y < 2 ^ n) :
    Nat.log2 (y * 2 + 1) < n + 1 := by
  rw [Nat.log2_lt (by omega), Nat.pow_succ]
  omega

/-- The precision can be lowered in two steps. -/
theorem lowerRegister_lowerRegister (d₁ d₂ : Nat) (o : Nat × Nat) :
    lowerRegister d₂ (lowerRegister d₁ o) = lowerRegister (d₁ + d₂) o := by
  obtain ⟨j, r⟩ := o
  have hindex : j / 2 ^ d₁ / 2 ^ d₂ = j / 2 ^ (d₁ + d₂) := by
    rw [Nat.div_div_eq_div_mul, ← Nat.pow_add]
  have hdropped : j % 2 ^ (d₁ + d₂) = j / 2 ^ d₁ % 2 ^ d₂ * 2 ^ d₁ + j % 2 ^ d₁ := by
    rw [Nat.pow_add, Nat.mod_mul, Nat.mul_comm, Nat.add_comm]
  have hlow : j % 2 ^ d₁ < 2 ^ d₁ := Nat.mod_lt _ (Nat.two_pow_pos d₁)
  unfold lowerRegister
  simp only
  rw [hindex, hdropped]
  by_cases hhigh : j / 2 ^ d₁ % 2 ^ d₂ = 0
  · rw [hhigh, Nat.zero_mul, Nat.zero_add]
    by_cases hzero : j % 2 ^ d₁ = 0
    · simp only [hzero, ne_eq, not_true_eq_false, if_false, Prod.mk.injEq, true_and]
      omega
    simp only [hzero, ne_eq, not_true_eq_false, not_false_eq_true, if_true, if_false,
      Prod.mk.injEq, true_and]
    have hlog : Nat.log2 (j % 2 ^ d₁) < d₁ := (Nat.log2_lt hzero).mpr hlow
    omega
  · have hne : j / 2 ^ d₁ % 2 ^ d₂ * 2 ^ d₁ + j % 2 ^ d₁ ≠ 0 := by
      have hpos := Nat.mul_ne_zero hhigh (Nat.two_pow_pos d₁).ne'
      omega
    rw [if_pos hhigh, if_pos hne, log2_mul_two_pow_add hhigh hlow]
    have hlog : Nat.log2 (j / 2 ^ d₁ % 2 ^ d₂) < d₂ :=
      (Nat.log2_lt hhigh).mpr (Nat.mod_lt _ (Nat.two_pow_pos d₂))
    simp only [Prod.mk.injEq, true_and]
    omega

variable {p : Nat}

/-- The index is made of the high bits of the hash, and the rank counts the zeros that
the low bits start with. -/
theorem hashRegister_eq (hp : 4 ≤ p ∧ p ≤ hllMaxPrecision) (x : UInt64) :
    hashRegister p x =
      (x.toNat / 2 ^ (64 - p), 65 - p - Nat.log2 (x.toNat % 2 ^ (64 - p) * 2 + 1)) := by
  simp only [hllMaxPrecision] at hp
  have hindex : (x >>> UInt64.ofNat (64 - p)).toNat = x.toNat / 2 ^ (64 - p) := by
    rw [UInt64.toNat_shiftRight, UInt64.toNat_ofNat', Nat.shiftRight_eq_div_pow]
    congr 2
    omega
  have hshift : (x <<< UInt64.ofNat p).toNat = x.toNat % 2 ^ (64 - p) * 2 ^ p := by
    rw [UInt64.toNat_shiftLeft, UInt64.toNat_ofNat', Nat.shiftLeft_eq]
    have hmod : p % 2 ^ 64 % 64 = p := by omega
    have hsplit : 2 ^ 64 = 2 ^ (64 - p) * 2 ^ p := by
      rw [← Nat.pow_add]
      congr 1
      omega
    rw [hmod, hsplit, Nat.mul_mod_mul_right]
  have hone : ((1 : UInt64) <<< UInt64.ofNat (p - 1)).toNat = 2 ^ (p - 1) := by
    rw [UInt64.toNat_shiftLeft, UInt64.toNat_ofNat']
    have hmod : (p - 1) % 2 ^ 64 % 64 = p - 1 := by omega
    have hlt : 2 ^ (p - 1) < 2 ^ 64 := Nat.pow_lt_pow_right (by omega) (by omega)
    rw [hmod, Nat.shiftLeft_eq]
    simpa using Nat.mod_eq_of_lt hlt
  generalize hw : (x <<< UInt64.ofNat p) ||| ((1 : UInt64) <<< UInt64.ofNat (p - 1)) = w
  have hpow : 2 ^ p = 2 * 2 ^ (p - 1) := by
    rw [← Nat.pow_succ']
    congr 1
    omega
  have hword : w.toNat = (x.toNat % 2 ^ (64 - p) * 2 + 1) * 2 ^ (p - 1) := by
    rw [← hw, UInt64.toNat_or, hshift, hone, Nat.mul_comm,
      ← Nat.two_pow_add_eq_or_of_lt (Nat.pow_lt_pow_right (by omega) (by omega)), hpow]
    generalize x.toNat % 2 ^ (64 - p) = y
    rw [Nat.add_mul, Nat.one_mul, Nat.mul_comm (2 * 2 ^ (p - 1)) y, Nat.mul_assoc]
  have hlog : Nat.log2 w.toNat = Nat.log2 (x.toNat % 2 ^ (64 - p) * 2 + 1) + (p - 1) := by
    rw [hword]
    simpa using log2_mul_two_pow_add (m := x.toNat % 2 ^ (64 - p) * 2 + 1) (by omega)
      (Nat.two_pow_pos (p - 1))
  have hne : w ≠ 0 := by
    intro hzero
    have hpos := Nat.mul_ne_zero (Nat.succ_ne_zero (x.toNat % 2 ^ (64 - p) * 2))
      (Nat.two_pow_pos (p - 1)).ne'
    rw [hzero] at hword
    exact hpos hword.symm
  have hbound := log2_padded_lt (Nat.mod_lt x.toNat (Nat.two_pow_pos (64 - p)))
  unfold hashRegister leadingZeros64 len64
  rw [hindex, hw, if_neg hne, hlog]
  congr 1
  omega

/-- A hash raises the register of the lower precision that its register of the higher one
stands for. -/
theorem lowerRegister_hashRegister {d : Nat} (hp : 4 ≤ p ∧ p + d ≤ hllMaxPrecision) (x : UInt64) :
    lowerRegister d (hashRegister (p + d) x) = hashRegister p x := by
  rw [hashRegister_eq ⟨by omega, hp.2⟩, hashRegister_eq ⟨hp.1, by omega⟩]
  simp only [hllMaxPrecision] at hp
  have hpow : 2 ^ (64 - p) = 2 ^ (64 - (p + d)) * 2 ^ d := by
    rw [← Nat.pow_add]
    congr 1
    omega
  have hsucc : 2 ^ (65 - (p + d)) = 2 ^ (64 - (p + d)) * 2 := by
    rw [← Nat.pow_succ]
    congr 1
    omega
  have hlow : x.toNat % 2 ^ (64 - (p + d)) < 2 ^ (64 - (p + d)) := Nat.mod_lt _ (Nat.two_pow_pos _)
  have hhigh : x.toNat / 2 ^ (64 - (p + d)) % 2 ^ d < 2 ^ d := Nat.mod_lt _ (Nat.two_pow_pos _)
  unfold lowerRegister
  simp only
  rw [hpow, Nat.mod_mul, Nat.div_div_eq_div_mul]
  generalize x.toNat / 2 ^ (64 - (p + d)) % 2 ^ d = dropped at hhigh
  generalize x.toNat % 2 ^ (64 - (p + d)) = y at hlow
  congr 1
  by_cases hdropped : dropped = 0
  · subst hdropped
    simp only [ne_eq, not_true_eq_false, if_false, Nat.mul_zero, Nat.add_zero]
    have hbound := log2_padded_lt hlow
    omega
  rw [if_pos hdropped]
  have hsum : (y + 2 ^ (64 - (p + d)) * dropped) * 2 + 1 =
      dropped * 2 ^ (65 - (p + d)) + (y * 2 + 1) := by
    rw [hsucc]
    ring
  have hbound : Nat.log2 dropped < d := (Nat.log2_lt hdropped).mpr hhigh
  rw [hsum, log2_mul_two_pow_add hdropped (by omega)]
  omega

/-- An observation that a sketch of precision `p` can make. -/
def ValidRegister (p : Nat) (o : Nat × Nat) : Prop :=
  o.1 < 2 ^ p ∧ o.2 ≠ 0 ∧ o.2 ≤ 65 - p

theorem hashRegister_valid (hp : 4 ≤ p ∧ p ≤ hllMaxPrecision) (x : UInt64) :
    ValidRegister p (hashRegister p x) := by
  rw [hashRegister_eq hp]
  simp only [hllMaxPrecision] at hp
  refine ⟨?_, ?_, ?_⟩
  · simp only
    rw [Nat.div_lt_iff_lt_mul (Nat.two_pow_pos _), ← Nat.pow_add]
    have hsum : p + (64 - p) = 64 := by omega
    rw [hsum]
    exact x.toNat_lt
  · have hbound := log2_padded_lt (Nat.mod_lt x.toNat (Nat.two_pow_pos (64 - p)))
    simp only
    omega
  · simp only
    omega

theorem lowerRegister_valid {d : Nat} (hp : p + d ≤ hllMaxPrecision) {o : Nat × Nat}
    (h : ValidRegister (p + d) o) :
    ValidRegister p (lowerRegister d o) := by
  simp only [hllMaxPrecision] at hp
  obtain ⟨hindex, hpos, hle⟩ := h
  unfold lowerRegister
  refine ⟨?_, ?_, ?_⟩
  · simp only
    rwa [Nat.div_lt_iff_lt_mul (Nat.two_pow_pos _), ← Nat.pow_add]
  · simp only
    split_ifs
    · omega
    · omega
  · simp only
    split_ifs with hdropped
    · have hd : d ≠ 0 := by
        rintro rfl
        exact hdropped (Nat.mod_one _)
      omega
    · omega

theorem lowerRegister_mono (d j : Nat) {a b : Nat} (h : a ≤ b) :
    (lowerRegister d (j, a)).2 ≤ (lowerRegister d (j, b)).2 := by
  unfold lowerRegister
  simp only
  split_ifs
  · exact le_rfl
  · omega

end Registers

section Consistent

/-- The representation of a sketch fits its precision. -/
structure HLL.Consistent (h : HLL) : Prop where
  precision : 4 ≤ h.p ∧ h.p ≤ hllMaxPrecision
  sparse : ∀ hashes, h.sparse = some hashes → hashes.size ≤ sparseLimit h.p ∧ h.regs = []
  dense : h.sparse = none → h.regs.length = 2 ^ h.p ∧ ∀ r ∈ h.regs, r.toNat ≤ 65 - h.p

/-- The encoding of a consistent sketch decodes to the sketch. -/
theorem HLL.Consistent.decodeHLL_encode {h : HLL} (hc : h.Consistent) :
    decodeHLL h.encode = .ok h := by
  obtain ⟨p, sparse, regs⟩ := h
  obtain ⟨⟨hp4, hp24⟩, hsparse, hdense⟩ := hc
  simp only [hllMaxPrecision] at hp4 hp24 hsparse hdense
  have hp : (UInt8.ofNat p).toNat = p := by
    rw [UInt8.toNat_ofNat']
    omega
  have hrange : ¬ (UInt8.ofNat p < 4 ∨ p > 24) := by
    rw [UInt8.lt_iff_toNat_lt, hp]
    have hfour : (4 : UInt8).toNat = 4 := rfl
    omega
  cases sparse with
  | some hashes =>
    obtain ⟨hsize, rfl⟩ := hsparse hashes rfl
    have hpow : 2 ^ p ≤ 2 ^ 24 := Nat.pow_le_pow_right (by omega) hp24
    have hle : ¬ hashes.size > 2 ^ p := by
      unfold sparseLimit at hsize
      omega
    have hlimit : ¬ hashes.size > sparseLimit p := by
      omega
    have hcount : (UInt64.ofNat hashes.size).toNat = hashes.size := by
      rw [UInt64.toNat_ofNat']
      omega
    have hdeltas := decodeDeltas_encodeDeltas hashes.toList 0 ∅ []
    rw [Std.ExtTreeSet.length_toList, append_nil, foldl_insert_toList] at hdeltas
    simp only [HLL.encode, decodeHLL, cons_append, nil_append,
      ne_eq, not_true_eq_false, if_false, hllMaxPrecision, hrange, if_true,
      uvarint_appendUvarint, hcount, hp, hdeltas, hle, ofSparse, hlimit]
  | none =>
    obtain ⟨hlen, hregs⟩ := hdense rfl
    have hany : regs.any (fun r => r.toNat > 64 - p + 1) = false := by
      rw [any_eq_false]
      intro r hr
      have hle := hregs r hr
      simp only [decide_eq_true_eq]
      omega
    simp only [HLL.encode, decodeHLL, cons_append, nil_append,
      ne_eq, not_true_eq_false, if_false, hllMaxPrecision, hrange, hp, hlen,
      hany]
    simp

/-- The registers of a dense sketch of precision `p`. -/
def RegsOk (p : Nat) (regs : List UInt8) : Prop :=
  regs.length = 2 ^ p ∧ ∀ r ∈ regs, r.toNat ≤ 65 - p

variable {p : Nat} {regs : List UInt8}

theorem HLL.Consistent.of_regs (hp : 4 ≤ p ∧ p ≤ hllMaxPrecision) (hregs : RegsOk p regs) :
    HLL.Consistent ⟨p, none, regs⟩ where
  precision := hp
  sparse hashes h := by cases h
  dense _ := hregs

theorem regsOk_replicate (p : Nat) :
    RegsOk p (List.replicate (2 ^ p) 0) := by
  refine ⟨by simp, ?_⟩
  intro r hr
  rw [eq_of_mem_replicate hr]
  simp

theorem RegsOk.raiseRegister (h : RegsOk p regs) (i : Nat) {rho : UInt8}
    (hrho : rho.toNat ≤ 65 - p) :
    RegsOk p (Gsql.raiseRegister regs i rho) := by
  refine ⟨by simpa [Gsql.raiseRegister] using h.1, ?_⟩
  intro r hr
  unfold Gsql.raiseRegister at hr
  obtain ⟨j, hj⟩ := mem_iff_getElem?.mp hr
  rw [getElem?_modify] at hj
  obtain ⟨r₀, hr₀, heq⟩ := Option.map_eq_some_iff.mp hj
  have hold := h.2 r₀ (mem_of_getElem? hr₀)
  split_ifs at heq
  · rw [← heq]
    exact hrho
  · rw [← heq]
    exact hold
  · rw [← heq]
    exact hold

theorem RegsOk.setRegister (hp : 4 ≤ p ∧ p ≤ hllMaxPrecision) (h : RegsOk p regs) (x : UInt64) :
    RegsOk p (Gsql.setRegister p regs x) := by
  refine h.raiseRegister _ ?_
  rw [UInt8.toNat_ofNat']
  exact (Nat.mod_le _ _).trans (hashRegister_valid hp x).2.2

theorem RegsOk.foldl_setRegister (hp : 4 ≤ p ∧ p ≤ hllMaxPrecision) (xs : List UInt64)
    (h : RegsOk p regs) :
    RegsOk p (xs.foldl (Gsql.setRegister p) regs) := by
  induction xs generalizing regs with
  | nil => exact h
  | cons x xs ih => exact ih (h.setRegister hp x)

theorem densify_consistent (hp : 4 ≤ p ∧ p ≤ hllMaxPrecision) (hashes : Std.ExtTreeSet UInt64) :
    (densify p hashes).Consistent :=
  HLL.Consistent.of_regs hp ((regsOk_replicate p).foldl_setRegister hp _)

theorem ofSparse_consistent (hp : 4 ≤ p ∧ p ≤ hllMaxPrecision) (hashes : Std.ExtTreeSet UInt64) :
    (ofSparse p hashes).Consistent := by
  unfold ofSparse
  split_ifs with hsize
  · exact densify_consistent hp hashes
  refine ⟨hp, ?_, ?_⟩
  · rintro _ ⟨⟩
    exact ⟨by simpa using hsize, rfl⟩
  · intro h
    cases h

theorem newHLL_consistent :
    newHLL.Consistent := by
  refine ⟨by decide, ?_, ?_⟩
  · rintro _ ⟨⟩
    exact ⟨by simp, rfl⟩
  · intro h
    cases h

/-- Only consistent sketches are decoded. -/
theorem decodeHLL_consistent {b : Bytes} {h : HLL} (hdec : decodeHLL b = .ok h) :
    h.Consistent := by
  unfold decodeHLL at hdec
  split at hdec
  · rename_i version p repr rest
    split_ifs at hdec with hversion hp hrepr
    · have hp' : 4 ≤ p.toNat ∧ p.toNat ≤ hllMaxPrecision := by
        rw [not_or, UInt8.lt_iff_toNat_lt] at hp
        have hfour : (4 : UInt8).toNat = 4 := rfl
        omega
      split at hdec
      · cases hdec
      split_ifs at hdec
      split at hdec
      · cases hdec
      split_ifs at hdec
      cases hdec
      exact ofSparse_consistent hp' _
    · have hp' : 4 ≤ p.toNat ∧ p.toNat ≤ hllMaxPrecision := by
        rw [not_or, UInt8.lt_iff_toNat_lt] at hp
        have hfour : (4 : UInt8).toNat = 4 := rfl
        omega
      rename_i hlen hany
      cases hdec
      refine HLL.Consistent.of_regs hp' ⟨by simpa using hlen, ?_⟩
      intro r hr
      rw [Bool.not_eq_true, any_eq_false] at hany
      have hle := hany r hr
      simp only [hllMaxPrecision, decide_eq_true_eq] at hle hp'
      omega
  · cases hdec

theorem addHash_consistent {h : HLL} (hc : h.Consistent) (x : UInt64) :
    (addHash h x).Consistent := by
  unfold addHash
  split
  · exact ofSparse_consistent hc.precision _
  rename_i hdense
  obtain ⟨p, sparse, regs⟩ := h
  simp only at hdense
  subst hdense
  exact HLL.Consistent.of_regs hc.precision (RegsOk.setRegister hc.precision (hc.dense rfl) x)

theorem HLL.Consistent.add {h : HLL} (hc : h.Consistent) (item : Bytes) :
    (h.add item).Consistent :=
  addHash_consistent hc _

theorem foldl_addHash_consistent (xs : List UInt64) {h : HLL} (hc : h.Consistent) :
    (xs.foldl addHash h).Consistent := by
  induction xs generalizing h with
  | nil => exact hc
  | cons x xs ih => exact ih (addHash_consistent hc x)

theorem RegsOk.downgradeRegister {d : Nat} (hp : p + d ≤ hllMaxPrecision) (h : RegsOk p regs)
    {jr : Nat × UInt8} (hr : jr.2.toNat ≤ 65 - (p + d)) :
    RegsOk p (Gsql.downgradeRegister d regs jr) := by
  obtain ⟨j, r⟩ := jr
  simp only [hllMaxPrecision] at hp
  simp only at hr
  unfold Gsql.downgradeRegister
  simp only
  split_ifs with hzero hdropped
  · exact h
  · refine h.raiseRegister _ ?_
    rw [UInt8.toNat_add, UInt8.toNat_ofNat']
    have hone : (1 : UInt8).toNat = 1 := rfl
    rw [hone]
    have hle : (d - (Nat.log2 (j % 2 ^ d) + 1)) % 2 ^ 8 ≤ d - 1 := (Nat.mod_le _ _).trans (by omega)
    have hd : d ≠ 0 := by
      intro hd
      simp [hd, Nat.mod_one] at hdropped
    omega
  · refine h.raiseRegister _ ?_
    rw [UInt8.toNat_add, UInt8.toNat_ofNat']
    omega

theorem RegsOk.foldl_downgradeRegister {d : Nat} (hp : p + d ≤ hllMaxPrecision)
    (jrs : List (Nat × UInt8)) (hjrs : ∀ jr ∈ jrs, jr.2.toNat ≤ 65 - (p + d)) (h : RegsOk p regs) :
    RegsOk p (jrs.foldl (Gsql.downgradeRegister d) regs) := by
  induction jrs generalizing regs with
  | nil => exact h
  | cons jr jrs ih =>
    exact ih (fun jr' hmem => hjrs jr' (mem_cons_of_mem jr hmem))
      (h.downgradeRegister hp (hjrs jr (by simp)))

/-- Lowering the precision keeps a sketch consistent. -/
theorem downgrade_consistent {h : HLL} (hc : h.Consistent) (hp : 4 ≤ p) :
    (downgrade h p).Consistent := by
  unfold downgrade
  have hprec := hc.precision
  split_ifs with hge
  · exact hc
  have hp' : 4 ≤ p ∧ p ≤ hllMaxPrecision := by omega
  split
  · exact ofSparse_consistent hp' _
  rename_i hdense
  have hsum : p + (h.p - p) = h.p := by omega
  have hbound : ∀ jr ∈ (List.range h.regs.length).zip h.regs,
      jr.2.toNat ≤ 65 - (p + (h.p - p)) := by
    intro jr hjr
    rw [hsum]
    exact (hc.dense hdense).2 _ (of_mem_zip hjr).2
  have hle : p + (h.p - p) ≤ hllMaxPrecision := by omega
  exact HLL.Consistent.of_regs hp'
    (RegsOk.foldl_downgradeRegister hle _ hbound (regsOk_replicate p))

theorem downgrade_p (h : HLL) (p : Nat) :
    (downgrade h p).p = min h.p p := by
  unfold downgrade
  split_ifs with hge
  · omega
  split
  · unfold ofSparse densify
    split_ifs <;> simp only <;> omega
  · simp only
    omega

theorem RegsOk.zipWith_max {regs' : List UInt8} (h : RegsOk p regs) (h' : RegsOk p regs') :
    RegsOk p (regs.zipWith (fun a r => if r > a then r else a) regs') := by
  refine ⟨by simp [h.1, h'.1], ?_⟩
  intro r hr
  obtain ⟨i, hi⟩ := mem_iff_getElem?.mp hr
  rw [getElem?_zipWith_eq_some] at hi
  obtain ⟨a, b, ha, hb, heq⟩ := hi
  split_ifs at heq
  · rw [← heq]
    exact h'.2 b (mem_of_getElem? hb)
  · rw [← heq]
    exact h.2 a (mem_of_getElem? ha)

/-- `Merge` brings both sketches to the lower precision. -/
theorem HLL.Consistent.merge_operands {h o : HLL} (hc : h.Consistent) (ho : o.Consistent) :
    ((if o.p > h.p then downgrade o h.p else o).Consistent ∧
      (if o.p > h.p then downgrade o h.p else o).p = min o.p h.p) ∧
    (if o.p < h.p then downgrade h o.p else h).Consistent ∧
      (if o.p < h.p then downgrade h o.p else h).p = min o.p h.p := by
  have hprec := hc.precision
  have hprec' := ho.precision
  constructor
  · split_ifs
    · exact ⟨downgrade_consistent ho hprec.1, downgrade_p o h.p⟩
    · exact ⟨ho, by omega⟩
  · split_ifs
    · exact ⟨downgrade_consistent hc hprec'.1, by rw [downgrade_p]; omega⟩
    · exact ⟨hc, by omega⟩

/-- Merging keeps a sketch consistent. -/
theorem HLL.Consistent.merge {h o : HLL} (hc : h.Consistent) (ho : o.Consistent) :
    (h.merge o).Consistent := by
  obtain ⟨⟨ho', hop⟩, hh', hhp⟩ := hc.merge_operands ho
  unfold HLL.merge
  simp only
  generalize (if o.p > h.p then downgrade o h.p else o) = o' at ho' hop
  generalize (if o.p < h.p then downgrade h o.p else h) = h' at hh' hhp
  split
  · exact foldl_addHash_consistent _ hh'
  rename_i hodense
  have hodense' := ho'.dense hodense
  rw [hop, ← hhp] at hodense'
  split
  · have hdense := (densify_consistent hh'.precision (by assumption)).dense rfl
    exact HLL.Consistent.of_regs hh'.precision (RegsOk.zipWith_max hdense hodense')
  rename_i hhdense
  obtain ⟨p, sparse, regs⟩ := h'
  simp only at hhdense
  subst hhdense
  exact HLL.Consistent.of_regs hh'.precision (RegsOk.zipWith_max (hh'.dense rfl) hodense')

end Consistent

end Gsql
end LittleBigtable
