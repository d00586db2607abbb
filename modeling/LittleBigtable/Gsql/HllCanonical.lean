import LittleBigtable.Gsql.HllMerge
import Mathlib.Data.Finset.Lattice.Fold
import Mathlib.Order.Lattice.Nat

/-!
# Sketches are canonical

However a sketch was built, by adding items, merging sketches and decoding encoded ones,
it is determined by the set of the hashes that were added and by the lowest precision of
the sketches involved: `build_canonical`.  It is the set itself as long as the set is small
enough for that precision, and otherwise the registers with the greatest rank of the hashes
that fall in each of them.
-/

namespace LittleBigtable
namespace Gsql

open Bttest List

section Canonical

/-- The greatest rank of the hashes that fall in register `i`. -/
def greatestRank (p : Nat) (S : Finset UInt64) (i : Nat) : Nat :=
  (S.filter (fun x => (hashRegister p x).1 = i)).sup (fun x => (hashRegister p x).2)

/-- The sketch of precision `p` of a set of hashes. -/
noncomputable def canonicalSketch (p : Nat) (S : Finset UInt64) : HLL :=
  if S.card ≤ 2 ^ p / 8 then
    ⟨p, some (Std.ExtTreeSet.ofList S.toList), []⟩
  else
    ⟨p, none, (List.range (2 ^ p)).map (fun i => UInt8.ofNat (greatestRank p S i))⟩

/-- What the sketch of a set of hashes holds. -/
def Content.canonical (p : Nat) (S : Finset UInt64) : Content :=
  ⟨p, joinHashes (sparseLimit p) (some S) (some ∅), hashRegister p '' (S : Set UInt64)⟩

variable {p q : Nat}

theorem Content.canonical_valid (hp : 4 ≤ p ∧ p ≤ hllMaxPrecision) (S : Finset UInt64) :
    (Content.canonical p S).Valid := by
  refine ⟨hp, ?_, fun T hT => ?_⟩
  · rintro o ⟨x, _, rfl⟩
    exact hashRegister_valid hp x
  unfold Content.canonical at hT ⊢
  dsimp only at hT ⊢
  rw [joinHashes_some, Finset.union_empty] at hT
  split_ifs at hT with hcard
  cases hT
  exact ⟨hcard, rfl⟩

/-- Joining canonical contents joins the sets of hashes. -/
theorem Content.canonical_join (hp : 4 ≤ p ∧ p ≤ hllMaxPrecision) (hq : 4 ≤ q ∧ q ≤ hllMaxPrecision)
    (S T : Finset UInt64) :
    (Content.canonical p S).join (.canonical q T) = .canonical (min p q) (S ∪ T) := by
  rw [Content.join_eq]
  unfold Content.canonical
  dsimp only
  have hlimit : sparseLimit (min p q) ≤ sparseLimit p := sparseLimit_mono (min_le_left p q)
  have hlimit' : sparseLimit (min p q) ≤ sparseLimit q := sparseLimit_mono (min_le_right p q)
  congr 1
  · rw [joinHashes_limit hlimit, joinHashes_comm, joinHashes_limit hlimit', joinHashes_some,
      joinHashes_some, Finset.union_empty, Finset.union_comm]
  · rw [image_lowerRegister_hashRegister ⟨by omega, by omega, hp.2⟩,
      image_lowerRegister_hashRegister ⟨by omega, by omega, hq.2⟩, Finset.coe_union,
      Set.image_union]

theorem Content.canonical_union (S : Finset UInt64) (x : UInt64) :
    (Content.canonical p S).union (.ofHashes p {x}) = .canonical p (insert x S) := by
  unfold Content.union Content.canonical Content.ofHashes
  dsimp only
  have hinsert : insert x S = S ∪ {x} := by
    rw [Finset.union_comm]
    rfl
  congr 1
  · rw [joinHashes_limit le_rfl, joinHashes_some, joinHashes_some, Finset.union_empty, hinsert]
  · rw [hinsert, Finset.coe_union, Set.image_union]

theorem hashSet_ofList (S : Finset UInt64) :
    hashSet (Std.ExtTreeSet.ofList S.toList) = S := by
  ext x
  rw [mem_hashSet, Std.ExtTreeSet.mem_ofList, contains_iff_mem, Finset.mem_toList]

/-- The registers with the greatest ranks hold the registers of the hashes. -/
theorem holds_greatestRank (hp : 4 ≤ p ∧ p ≤ hllMaxPrecision) (S : Finset UInt64) :
    Registers.Holds (hashRegister p '' (S : Set UInt64))
      (ranks ((List.range (2 ^ p)).map (fun i => UInt8.ofNat (greatestRank p S i)))) := by
  have hle : ∀ i, greatestRank p S i ≤ 65 - p := by
    intro i
    refine Finset.sup_le fun x _ => ?_
    exact (hashRegister_valid hp x).2.2
  have hlookup : ∀ {k r : Nat},
      (ranks ((List.range (2 ^ p)).map (fun i => UInt8.ofNat (greatestRank p S i))))[k]? =
        some r → r = greatestRank p S k := by
    intro k r hr
    unfold ranks at hr
    rw [map_map, getElem?_map] at hr
    obtain ⟨i, hi, rfl⟩ := Option.map_eq_some_iff.mp hr
    obtain ⟨_, rfl⟩ := List.getElem?_eq_some_iff.mp hi
    have hsmall := hle k
    simp only [getElem_range, Function.comp_apply, UInt8.toNat_ofNat']
    omega
  refine ⟨?_, ?_⟩
  · rintro k b r ⟨x, hx, heq⟩ hr
    rw [hlookup hr]
    have hmem : x ∈ S.filter (fun x => (hashRegister p x).1 = k) :=
      Finset.mem_filter.mpr ⟨hx, by rw [heq]⟩
    have hsup := Finset.le_sup (f := fun x => (hashRegister p x).2) hmem
    rw [heq] at hsup
    exact hsup
  intro k r hr hbot
  have hrank := hlookup hr
  have hnonempty : (S.filter (fun x => (hashRegister p x).1 = k)).Nonempty := by
    rw [Finset.nonempty_iff_ne_empty]
    intro hempty
    unfold greatestRank at hrank
    rw [hempty, Finset.sup_empty] at hrank
    exact hbot hrank
  obtain ⟨x, hx, hsup⟩ := Finset.exists_mem_eq_sup _ hnonempty (fun x => (hashRegister p x).2)
  obtain ⟨hxS, hindex⟩ := Finset.mem_filter.mp hx
  refine ⟨x, hxS, ?_⟩
  exact Prod.ext hindex (hsup.symm.trans hrank.symm)

/-- The sketch of a set of hashes holds its content. -/
theorem canonicalSketch_holds (hp : 4 ≤ p ∧ p ≤ hllMaxPrecision) (S : Finset UInt64) :
    (canonicalSketch p S).Holds (.canonical p S) := by
  unfold canonicalSketch Content.canonical
  rw [joinHashes_some, Finset.union_empty]
  change HLL.Holds (if S.card ≤ sparseLimit p then _ else _) _
  by_cases hcard : S.card ≤ sparseLimit p
  · rw [if_pos hcard, if_pos hcard]
    refine ⟨rfl, ?_, fun _ _ => rfl, nofun⟩
    rw [Option.map_some, hashSet_ofList]
  · rw [if_neg hcard, if_neg hcard]
    refine ⟨rfl, rfl, nofun, fun _ => ⟨?_, holds_greatestRank hp S⟩⟩
    rw [length_map, length_range]

theorem canonicalSketch_merge (hp : 4 ≤ p ∧ p ≤ hllMaxPrecision) (hq : 4 ≤ q ∧ q ≤ hllMaxPrecision)
    (S T : Finset UInt64) :
    (canonicalSketch p S).merge (canonicalSketch q T) = canonicalSketch (min p q) (S ∪ T) := by
  have hmerge := (canonicalSketch_holds hp S).merge (Content.canonical_valid hp S)
    (Content.canonical_valid hq T) (canonicalSketch_holds hq T)
  rw [Content.canonical_join hp hq] at hmerge
  exact hmerge.unique (canonicalSketch_holds ⟨by omega, by omega⟩ (S ∪ T))

end Canonical

section Build

/-- A way to build a sketch. -/
inductive SketchBuild
  | empty (p : Nat) (hmin : 10 ≤ p) (hmax : p ≤ 24)
  | add (b : SketchBuild) (item : Bytes)
  | merge (b o : SketchBuild)
  | recode (b : SketchBuild)

/-- The sketch that is built; decoding can fail. -/
def SketchBuild.eval : SketchBuild → Except String HLL
  | .empty p _ _ => .ok (newHLLPrecision p)
  | .add b item => b.eval.map (fun h => h.add item)
  | .merge b o => b.eval.bind (fun h => o.eval.map (fun h' => h.merge h'))
  | .recode b => b.eval.bind (fun h => decodeHLL h.encode)

/-- The hashes that were added overall. -/
def SketchBuild.hashes : SketchBuild → Finset UInt64
  | .empty _ _ _ => ∅
  | .add b item => insert (hllHash item) b.hashes
  | .merge b o => b.hashes ∪ o.hashes
  | .recode b => b.hashes

/-- The lowest precision of the sketches involved. -/
def SketchBuild.precision : SketchBuild → Nat
  | .empty p _ _ => p
  | .add b _ => b.precision
  | .merge b o => min b.precision o.precision
  | .recode b => b.precision

theorem SketchBuild.precision_bounds (b : SketchBuild) :
    4 ≤ b.precision ∧ b.precision ≤ hllMaxPrecision := by
  induction b with
  | empty p hmin hmax => exact ⟨by unfold precision; omega, hmax⟩
  | add _ _ ih | recode _ ih => exact ih
  | merge b o ihb iho =>
    unfold precision
    omega

/-- Every way of building succeeds, with a consistent sketch of the hashes. -/
theorem SketchBuild.exists_eval (b : SketchBuild) :
    ∃ h, b.eval = .ok h ∧ h.Consistent ∧ h.Holds (.canonical b.precision b.hashes) := by
  induction b with
  | empty p hmin hmax =>
    have hp : 4 ≤ p ∧ p ≤ hllMaxPrecision := ⟨by omega, hmax⟩
    refine ⟨newHLLPrecision p, rfl, ⟨hp, ?_, nofun⟩, ⟨rfl, ?_, fun _ _ => rfl, nofun⟩⟩
    · rintro _ ⟨⟩
      exact ⟨by simp, rfl⟩
    · have hempty : hashSet (∅ : Std.ExtTreeSet UInt64) = ∅ := by
        simp [hashSet]
      simp [newHLLPrecision, Content.canonical, precision, hashes, hempty]
  | add b item ih =>
    obtain ⟨h, heval, hconsistent, hholds⟩ := ih
    refine ⟨h.add item, by rw [eval, heval]; rfl, hconsistent.add item, ?_⟩
    have hadd := hholds.addHash (Content.canonical_valid b.precision_bounds b.hashes) (hllHash item)
    rw [show (Content.canonical b.precision b.hashes).p = b.precision from rfl,
      Content.canonical_union] at hadd
    exact hadd
  | merge b o ihb iho =>
    obtain ⟨h, heval, hconsistent, hholds⟩ := ihb
    obtain ⟨h', heval', hconsistent', hholds'⟩ := iho
    refine ⟨h.merge h', by rw [eval, heval, heval']; rfl, hconsistent.merge hconsistent', ?_⟩
    have hmerge := hholds.merge (Content.canonical_valid b.precision_bounds b.hashes)
      (Content.canonical_valid o.precision_bounds o.hashes) hholds'
    rw [Content.canonical_join b.precision_bounds o.precision_bounds] at hmerge
    exact hmerge
  | recode b ih =>
    obtain ⟨h, heval, hconsistent, hholds⟩ := ih
    refine ⟨h, ?_, hconsistent, hholds⟩
    rw [eval, heval]
    exact hconsistent.decodeHLL_encode

/-- The sketch of the hashes that were added, at the lowest precision. -/
noncomputable def SketchBuild.sketch (b : SketchBuild) : HLL :=
  canonicalSketch b.precision b.hashes

/-- **Sketches are canonical.**  Whatever is built is the sketch of the hashes that were
added overall, at the lowest precision; merging such sketches is commutative, associative
and idempotent. -/
theorem build_canonical (a b c : SketchBuild) :
    a.eval = .ok a.sketch ∧
      a.sketch.merge b.sketch = b.sketch.merge a.sketch ∧
      (a.sketch.merge b.sketch).merge c.sketch = a.sketch.merge (b.sketch.merge c.sketch) ∧
      a.sketch.merge a.sketch = a.sketch := by
  have ha := a.precision_bounds
  have hb := b.precision_bounds
  have hc := c.precision_bounds
  unfold SketchBuild.sketch
  refine ⟨?_, ?_, ?_, ?_⟩
  · obtain ⟨h, heval, _, hholds⟩ := a.exists_eval
    rw [heval, hholds.unique (canonicalSketch_holds ha a.hashes)]
  · rw [canonicalSketch_merge ha hb, canonicalSketch_merge hb ha, min_comm, Finset.union_comm]
  · rw [canonicalSketch_merge ha hb, canonicalSketch_merge hb hc,
      canonicalSketch_merge ⟨by omega, by omega⟩ hc,
      canonicalSketch_merge ha ⟨by omega, by omega⟩, min_assoc, Finset.union_assoc]
  · rw [canonicalSketch_merge ha ha, min_self, Finset.union_idempotent]

end Build

end Gsql
end LittleBigtable
