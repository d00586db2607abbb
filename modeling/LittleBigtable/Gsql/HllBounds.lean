import LittleBigtable.Gsql.HllCodec
import LittleBigtable.Lib.Fallible

/-!
# Sketches from clients

The operations on sketches with every index checked: where the code would index out of
range, the checked operation has no result.  On consistent sketches the checked operations
are the operations of the model, so no index is out of range; and decoding accepts only
consistent sketches.
-/

namespace LittleBigtable
namespace Gsql

open Bttest List

section Checked

/-- `regs[i]` is read and raised. -/
def raiseChecked (regs : List UInt8) (i : Nat) (rho : UInt8) : Option (List UInt8) :=
  if i < regs.length then some (raiseRegister regs i rho) else none

def setRegisterChecked (p : Nat) (regs : List UInt8) (x : UInt64) : Option (List UInt8) :=
  let idx := x >>> UInt64.ofNat (64 - p)
  let w := (x <<< UInt64.ofNat p) ||| ((1 : UInt64) <<< UInt64.ofNat (p - 1))
  raiseChecked regs idx.toNat (UInt8.ofNat (leadingZeros64 w + 1))

def densifyChecked (p : Nat) (hashes : Std.ExtTreeSet UInt64) : Option HLL :=
  (hashes.toList.foldlM (setRegisterChecked p) (List.replicate (2 ^ p) 0)).map (⟨p, none, ·⟩)

def ofSparseChecked (p : Nat) (hashes : Std.ExtTreeSet UInt64) : Option HLL :=
  if hashes.size > sparseLimit p then
    densifyChecked p hashes
  else
    some ⟨p, some hashes, []⟩

def addHashChecked (h : HLL) (x : UInt64) : Option HLL :=
  match h.sparse with
  | some hashes => ofSparseChecked h.p (hashes.insert x)
  | none => (setRegisterChecked h.p h.regs x).map (fun regs => { h with regs := regs })

def downgradeRegisterChecked (d : Nat) (regs : List UInt8) (jr : Nat × UInt8) :
    Option (List UInt8) :=
  let (j, r) := jr
  if r = 0 then
    some regs
  else
    let dropped := j % 2 ^ d
    let rho :=
      if dropped ≠ 0 then
        UInt8.ofNat (d - (Nat.log2 dropped + 1)) + 1
      else
        UInt8.ofNat d + r
    raiseChecked regs (j / 2 ^ d) rho

def downgradeChecked (h : HLL) (p : Nat) : Option HLL :=
  if p ≥ h.p then
    some h
  else
    match h.sparse with
    | some hashes => ofSparseChecked p hashes
    | none =>
      (((List.range h.regs.length).zip h.regs).foldlM
        (downgradeRegisterChecked (h.p - p)) (List.replicate (2 ^ p) 0)).map (⟨p, none, ·⟩)

/-- The last loop of `Merge` indexes the registers of `h` by those of `o`. -/
def HLL.mergeChecked (h o : HLL) : Option HLL :=
  (if o.p > h.p then downgradeChecked o h.p else some o).bind fun o' =>
  (if o.p < h.p then downgradeChecked h o.p else some h).bind fun h' =>
  match o'.sparse with
  | some hashes => hashes.toList.foldlM addHashChecked h'
  | none =>
    (match h'.sparse with
      | some hashes => densifyChecked h'.p hashes
      | none => some h').bind fun dense =>
    if o'.regs.length ≤ dense.regs.length then
      some { dense with
        regs := dense.regs.zipWith (fun a r => if r > a then r else a) o'.regs }
    else
      none

/-- The histogram of `Estimate`: how many registers have each of the ranks up to `q + 1`. -/
def HLL.histogram (h : HLL) : Option (List Nat) :=
  h.regs.foldlM
    (fun counts r =>
      if r.toNat < counts.length then some (counts.modify r.toNat (· + 1)) else none)
    (List.replicate (64 - h.p + 2) 0)

end Checked

section InRange

variable {p : Nat} {regs : List UInt8} {h o : HLL}

theorem raiseChecked_eq_some {i : Nat} (hi : i < regs.length) (rho : UInt8) :
    raiseChecked regs i rho = some (raiseRegister regs i rho) :=
  if_pos hi

theorem RegsOk.setRegisterChecked (hp : 4 ≤ p ∧ p ≤ hllMaxPrecision) (hregs : RegsOk p regs)
    (x : UInt64) :
    Gsql.setRegisterChecked p regs x = some (Gsql.setRegister p regs x) := by
  refine raiseChecked_eq_some ?_ _
  rw [hregs.1]
  exact (hashRegister_valid hp x).1

theorem densifyChecked_eq_some (hp : 4 ≤ p ∧ p ≤ hllMaxPrecision)
    (hashes : Std.ExtTreeSet UInt64) :
    densifyChecked p hashes = some (densify p hashes) := by
  unfold densifyChecked
  rw [Fallible.foldlM_eq_some (RegsOk p)
    (fun regs hregs x _ => ⟨hregs.setRegisterChecked hp x, hregs.setRegister hp x⟩)
    (regsOk_replicate p)]
  rfl

theorem ofSparseChecked_eq_some (hp : 4 ≤ p ∧ p ≤ hllMaxPrecision)
    (hashes : Std.ExtTreeSet UInt64) :
    ofSparseChecked p hashes = some (ofSparse p hashes) := by
  unfold ofSparseChecked ofSparse
  split_ifs
  · exact densifyChecked_eq_some hp hashes
  · rfl

theorem HLL.Consistent.addHashChecked (hc : h.Consistent) (x : UInt64) :
    Gsql.addHashChecked h x = some (addHash h x) := by
  unfold Gsql.addHashChecked addHash
  cases hsparse : h.sparse with
  | some hashes => exact ofSparseChecked_eq_some hc.precision _
  | none =>
    simp only
    rw [RegsOk.setRegisterChecked hc.precision (hc.dense hsparse)]
    rfl

/-- Register `j` of the higher precision is folded into an existing one. -/
theorem RegsOk.downgradeRegisterChecked {d : Nat} (hregs : RegsOk p regs) {jr : Nat × UInt8}
    (hj : jr.1 < 2 ^ (p + d)) :
    Gsql.downgradeRegisterChecked d regs jr = some (Gsql.downgradeRegister d regs jr) := by
  unfold Gsql.downgradeRegisterChecked Gsql.downgradeRegister
  simp only
  have hindex : jr.1 / 2 ^ d < regs.length := by
    rwa [hregs.1, Nat.div_lt_iff_lt_mul (Nat.two_pow_pos _), ← Nat.pow_add]
  split_ifs
  · rfl
  · exact raiseChecked_eq_some hindex _
  · exact raiseChecked_eq_some hindex _

theorem HLL.Consistent.downgradeChecked (hc : h.Consistent) (hp : 4 ≤ p) :
    Gsql.downgradeChecked h p = some (downgrade h p) := by
  have hprec := hc.precision
  unfold Gsql.downgradeChecked downgrade
  split_ifs with hge
  · rfl
  cases hsparse : h.sparse with
  | some hashes => exact ofSparseChecked_eq_some ⟨hp, by omega⟩ _
  | none =>
    have hdense := hc.dense hsparse
    have hsum : p + (h.p - p) = h.p := by omega
    simp only
    rw [Fallible.foldlM_eq_some (RegsOk p) (f := Gsql.downgradeRegister (h.p - p))
      (fun regs hregs jr hjr => ⟨?_, ?_⟩) (regsOk_replicate p)]
    · rfl
    · refine hregs.downgradeRegisterChecked ?_
      rw [hsum, ← hdense.1]
      exact mem_range.mp (of_mem_zip hjr).1
    · refine hregs.downgradeRegister (by omega) ?_
      rw [hsum]
      exact hdense.2 _ (of_mem_zip hjr).2

theorem HLL.Consistent.mergeChecked (hc : h.Consistent) (ho : o.Consistent) :
    h.mergeChecked o = some (h.merge o) := by
  obtain ⟨⟨ho', hop⟩, hh', hhp⟩ := hc.merge_operands ho
  have hleft : (if o.p > h.p then Gsql.downgradeChecked o h.p else some o) =
      some (if o.p > h.p then downgrade o h.p else o) := by
    split_ifs
    · exact ho.downgradeChecked hc.precision.1
    · rfl
  have hright : (if o.p < h.p then Gsql.downgradeChecked h o.p else some h) =
      some (if o.p < h.p then downgrade h o.p else h) := by
    split_ifs
    · exact hc.downgradeChecked ho.precision.1
    · rfl
  unfold HLL.mergeChecked HLL.merge
  rw [hleft, hright]
  simp only [Option.bind_some]
  generalize (if o.p > h.p then downgrade o h.p else o) = o' at ho' hop
  generalize (if o.p < h.p then downgrade h o.p else h) = h' at hh' hhp
  cases hodense : o'.sparse with
  | some hashes =>
    exact Fallible.foldlM_eq_some HLL.Consistent
      (fun s hs x _ => ⟨hs.addHashChecked x, addHash_consistent hs x⟩) hh'
  | none =>
    have hlen := (ho'.dense hodense).1
    rw [hop, ← hhp] at hlen
    cases hhdense : h'.sparse with
    | some hashes =>
      simp only
      rw [densifyChecked_eq_some hh'.precision, Option.bind_some, if_pos]
      rw [hlen, ((densify_consistent hh'.precision hashes).dense rfl).1]
      rfl
    | none =>
      simp only [Option.bind_some]
      rw [if_pos (by rw [hlen, (hh'.dense hhdense).1]), hhdense]

/-- The ranks of a dense sketch have their places in the histogram. -/
theorem HLL.Consistent.histogram_isSome (hc : h.Consistent) :
    h.histogram.isSome := by
  cases hsparse : h.sparse with
  | some hashes => simp [HLL.histogram, (hc.sparse hashes hsparse).2]
  | none =>
    have hprec := hc.precision
    unfold hllMaxPrecision at hprec
    unfold HLL.histogram
    rw [Fallible.foldlM_eq_some (fun counts => counts.length = 64 - h.p + 2)
      (f := fun counts r => counts.modify r.toNat (· + 1)) (fun counts hcounts r hr => ?_)
      (by simp)]
    · rfl
    · have hrank := (hc.dense hsparse).2 r hr
      exact ⟨if_pos (by omega), by simpa using hcounts⟩

end InRange

section Clients

/-- What is done to a sketch: an item is added, or a sketch of a client merged. -/
inductive SketchOp
  | add (item : Bytes)
  | merge (o : {o : HLL // o.Consistent})

def SketchOp.run : SketchOp → HLL → Option HLL
  | .add item, h => addHashChecked h (hllHash item)
  | .merge o, h => h.mergeChecked o

theorem SketchOp.run_consistent (op : SketchOp) {h : HLL} (hc : h.Consistent) :
    ∃ h', op.run h = some h' ∧ h'.Consistent := by
  cases op with
  | add item => exact ⟨_, hc.addHashChecked _, hc.add item⟩
  | merge o => exact ⟨_, hc.mergeChecked o.2, hc.merge o.2⟩

/-- Whatever bytes are decoded, the sketch is consistent; additions and merges run without an
index out of range and keep it so, its histogram can be filled, and its encoding is decoded to
the same sketch. -/
theorem sketches_harmless (b : Bytes) :
    (∀ h, decodeHLL b = .ok h → h.Consistent) ∧
      ∀ (h : HLL) (ops : List SketchOp), h.Consistent →
        ∃ h', ops.foldlM (fun h op => op.run h) h = some h' ∧ h'.Consistent ∧
          h'.histogram.isSome ∧ decodeHLL h'.encode = .ok h' := by
  refine ⟨fun h => decodeHLL_consistent, fun h ops hc => ?_⟩
  induction ops generalizing h with
  | nil => exact ⟨h, rfl, hc, hc.histogram_isSome, hc.decodeHLL_encode⟩
  | cons op ops ih =>
    obtain ⟨h₁, hrun, hc₁⟩ := op.run_consistent hc
    rw [foldlM_cons, hrun]
    exact ih h₁ hc₁

end Clients

end Gsql
end LittleBigtable
