import LittleBigtable.Gsql.HllCodec
import LittleBigtable.Lib.Registers
import Mathlib.Data.Finset.Card

/-!
# The order of merges does not matter

What a sketch holds is its precision, the set of hashes while it is sparse, and the
registers that these hashes and the dense sketches merged into it have raised.  Merging
joins these contents.  The registers of a lower precision are determined by those of a
higher one, so it does not matter at which precision a hash was first recorded, nor whether
it was recorded in a sparse or in a dense sketch.
-/

namespace LittleBigtable
namespace Gsql

open Bttest List

section Files

/-- The registers as numbers. -/
def ranks (regs : List UInt8) : List Nat :=
  regs.map UInt8.toNat

theorem ranks_injective {regs regs' : List UInt8} (h : ranks regs = ranks regs') :
    regs = regs' :=
  List.map_injective_iff.mpr (fun _ _ => UInt8.toNat_inj.mp) h

variable (regs : List UInt8) {p : Nat}

@[simp] theorem length_ranks :
    (ranks regs).length = regs.length :=
  List.length_map _

theorem mem_contents_ranks {regs : List UInt8} {j n : Nat} :
    (j, n) ∈ Registers.contents (ranks regs) ↔ ∃ r, regs[j]? = some r ∧ r ≠ 0 ∧ r.toNat = n := by
  unfold Registers.contents ranks
  simp only [Set.mem_ofPred_eq, getElem?_map, Option.map_eq_some_iff]
  constructor
  · rintro ⟨⟨r, hr, rfl⟩, hbot⟩
    exact ⟨r, hr, fun hzero => hbot (by rw [hzero]; rfl), rfl⟩
  · rintro ⟨r, hr, hzero, rfl⟩
    exact ⟨⟨r, hr, rfl⟩, fun hbot => hzero (UInt8.toNat_inj.mp hbot)⟩

theorem toNat_raise (rho r : UInt8) :
    (if rho > r then rho else r).toNat = max r.toNat rho.toNat := by
  split_ifs with h
  · rw [gt_iff_lt, UInt8.lt_iff_toNat_lt] at h
    omega
  · rw [gt_iff_lt, UInt8.lt_iff_toNat_lt] at h
    omega

theorem ranks_raiseRegister (i : Nat) (rho : UInt8) :
    ranks (raiseRegister regs i rho) = Registers.raise (ranks regs) i rho.toNat := by
  unfold ranks raiseRegister Registers.raise
  refine ext_getElem? fun k => ?_
  rw [getElem?_map, getElem?_modify, getElem?_modify, getElem?_map]
  cases regs[k]? with
  | none => rfl
  | some r =>
    by_cases hik : i = k
    · simp [hik, toNat_raise]
    · simp [hik]

theorem ranks_zipWith (regs' : List UInt8) :
    ranks (regs.zipWith (fun a r => if r > a then r else a) regs') =
      List.zipWith max (ranks regs) (ranks regs') := by
  unfold ranks
  rw [map_zipWith, zipWith_map]
  simp only [toNat_raise]

theorem ranks_setRegister (hp : 4 ≤ p ∧ p ≤ hllMaxPrecision) (regs : List UInt8) (x : UInt64) :
    ranks (setRegister p regs x) =
      Registers.raise (ranks regs) (hashRegister p x).1 (hashRegister p x).2 := by
  have hvalid := hashRegister_valid hp x
  have hrank : (UInt8.ofNat (hashRegister p x).2).toNat = (hashRegister p x).2 := by
    rw [UInt8.toNat_ofNat']
    have hle := hvalid.2.2
    omega
  rw [← hrank]
  exact ranks_raiseRegister _ _ _

theorem ranks_downgradeRegister {d : Nat} (hp : p + d ≤ hllMaxPrecision) (regs : List UInt8)
    {j : Nat} {r : UInt8} (h : ValidRegister (p + d) (j, r.toNat)) :
    ranks (downgradeRegister d regs (j, r)) =
      Registers.raise (ranks regs) (lowerRegister d (j, r.toNat)).1
        (lowerRegister d (j, r.toNat)).2 := by
  have hzero : r ≠ 0 := by
    rintro rfl
    exact h.2.1 rfl
  have hvalid := (lowerRegister_valid hp h).2.2
  unfold downgradeRegister
  simp only
  rw [if_neg hzero, ranks_raiseRegister]
  unfold lowerRegister at hvalid ⊢
  simp only at hvalid ⊢
  congr 1
  split_ifs at hvalid ⊢ with hdropped
  · rw [UInt8.toNat_add, UInt8.toNat_ofNat']
    have hone : (1 : UInt8).toNat = 1 := rfl
    omega
  · rw [UInt8.toNat_add, UInt8.toNat_ofNat']
    omega

theorem ranks_foldl_setRegister (hp : 4 ≤ p ∧ p ≤ hllMaxPrecision) (xs : List UInt64)
    (regs : List UInt8) :
    ranks (xs.foldl (setRegister p) regs) =
      (xs.map (hashRegister p)).foldl (fun regs o => Registers.raise regs o.1 o.2)
        (ranks regs) := by
  induction xs generalizing regs with
  | nil => rfl
  | cons x xs ih =>
    rw [foldl_cons, ih, ranks_setRegister hp]
    rfl

theorem length_foldl_downgradeRegister (d : Nat) (jrs : List (Nat × UInt8)) (regs : List UInt8) :
    (jrs.foldl (downgradeRegister d) regs).length = regs.length := by
  induction jrs generalizing regs with
  | nil => rfl
  | cons jr jrs ih =>
    obtain ⟨j, r⟩ := jr
    rw [foldl_cons, ih]
    simp only [downgradeRegister, raiseRegister]
    split_ifs
    · rfl
    · exact length_modify ..
    · exact length_modify ..

/-- The register loop of `downgrade`. -/
theorem ranks_foldl_downgradeRegister {d : Nat} (hp : p + d ≤ hllMaxPrecision)
    (jrs : List (Nat × UInt8))
    (hjrs : ∀ jr ∈ jrs, jr.2 ≠ 0 → ValidRegister (p + d) (jr.1, jr.2.toNat)) (regs : List UInt8) :
    ranks (jrs.foldl (downgradeRegister d) regs) =
      ((jrs.filter (fun jr => jr.2 ≠ 0)).map
        (fun jr => lowerRegister d (jr.1, jr.2.toNat))).foldl
          (fun regs o => Registers.raise regs o.1 o.2) (ranks regs) := by
  induction jrs generalizing regs with
  | nil => rfl
  | cons jr jrs ih =>
    obtain ⟨j, r⟩ := jr
    have hrest := ih fun jr hmem => hjrs jr (mem_cons_of_mem (j, r) hmem)
    rw [foldl_cons, hrest, filter_cons]
    by_cases hzero : r = 0
    · rw [if_neg (by simpa using hzero)]
      simp [downgradeRegister, hzero]
    · rw [if_pos (by simpa using hzero),
        ranks_downgradeRegister hp regs (hjrs (j, r) (by simp) hzero)]
      rfl

end Files

section Hashes

/-- The hashes of a sparse sketch. -/
def hashSet (hashes : Std.ExtTreeSet UInt64) : Finset UInt64 :=
  hashes.toList.toFinset

@[simp] theorem mem_hashSet {hashes : Std.ExtTreeSet UInt64} {x : UInt64} :
    x ∈ hashSet hashes ↔ x ∈ hashes := by
  simp [hashSet]

theorem card_hashSet (hashes : Std.ExtTreeSet UInt64) :
    (hashSet hashes).card = hashes.size := by
  have hnodup : hashes.toList.Nodup := by
    refine hashes.distinct_toList.imp fun hne heq => hne ?_
    exact Std.compare_eq_iff_eq.mpr heq
  rw [hashSet, toFinset_card_of_nodup hnodup, Std.ExtTreeSet.length_toList]

theorem hashSet_insert (hashes : Std.ExtTreeSet UInt64) (x : UInt64) :
    hashSet (hashes.insert x) = insert x (hashSet hashes) := by
  ext y
  simp only [mem_hashSet, Finset.mem_insert, Std.ExtTreeSet.mem_insert, Std.compare_eq_iff_eq]
  tauto

theorem hashSet_injective {hashes hashes' : Std.ExtTreeSet UInt64}
    (h : hashSet hashes = hashSet hashes') :
    hashes = hashes' := by
  refine Std.ExtTreeSet.ext_mem fun x => ?_
  rw [← mem_hashSet, h, mem_hashSet]

/-- The hashes of two sketches together, while both are sparse and at most `limit`
hashes are kept. -/
def joinHashes (limit : Nat) :
    Option (Finset UInt64) → Option (Finset UInt64) → Option (Finset UInt64)
  | some S, some T => if (S ∪ T).card ≤ limit then some (S ∪ T) else none
  | _, _ => none

variable (limit : Nat) (a : Option (Finset UInt64))

@[simp] theorem joinHashes_some (S T : Finset UInt64) :
    joinHashes limit (some S) (some T) =
      if (S ∪ T).card ≤ limit then some (S ∪ T) else none :=
  rfl

@[simp] theorem joinHashes_none_left (limit : Nat) (b : Option (Finset UInt64)) :
    joinHashes limit none b = none :=
  rfl

@[simp] theorem joinHashes_none_right :
    joinHashes limit a none = none := by
  cases a <;> rfl

theorem joinHashes_comm (b : Option (Finset UInt64)) :
    joinHashes limit a b = joinHashes limit b a := by
  cases a with
  | none => simp
  | some S =>
    cases b with
    | none => simp
    | some T => simp only [joinHashes_some, Finset.union_comm T S]

theorem joinHashes_joinHashes {limit limit' : Nat} (hlimit : limit ≤ limit') (S T : Finset UInt64)
    (c : Option (Finset UInt64)) :
    joinHashes limit (joinHashes limit' (some S) (some T)) c =
      joinHashes limit (some (S ∪ T)) c := by
  cases c with
  | none => simp
  | some U =>
    by_cases hcard : (S ∪ T).card ≤ limit'
    · simp only [joinHashes_some, if_pos hcard]
    · have hgrow : (S ∪ T).card ≤ (S ∪ T ∪ U).card := Finset.card_le_card Finset.subset_union_left
      have hmore : ¬ (S ∪ T ∪ U).card ≤ limit := by omega
      simp only [joinHashes_some, if_neg hcard, if_neg hmore, joinHashes_none_left]

theorem joinHashes_limit {limit limit' : Nat} (hlimit : limit ≤ limit')
    (a b : Option (Finset UInt64)) :
    joinHashes limit (joinHashes limit' a (some ∅)) b = joinHashes limit a b := by
  cases a with
  | none => simp
  | some S => rw [joinHashes_joinHashes hlimit, Finset.union_empty]

/-- The last two of three sets of hashes can be exchanged. -/
theorem joinHashes_right_comm {limit limit₁ limit₂ : Nat} (h₁ : limit ≤ limit₁)
    (h₂ : limit ≤ limit₂) (a b c : Option (Finset UInt64)) :
    joinHashes limit (joinHashes limit₁ a b) c = joinHashes limit (joinHashes limit₂ a c) b := by
  cases a with
  | none => simp
  | some S =>
    cases b with
    | none => simp
    | some T =>
      cases c with
      | none => simp
      | some U =>
        rw [joinHashes_joinHashes h₁, joinHashes_joinHashes h₂, joinHashes_some,
          joinHashes_some, Finset.union_right_comm]

end Hashes

section Contents

/-- What a sketch holds; `hashes` is `some` while it is sparse. -/
structure Content where
  p : Nat
  hashes : Option (Finset UInt64)
  observed : Set (Nat × Nat)

structure Content.Valid (c : Content) : Prop where
  precision : 4 ≤ c.p ∧ c.p ≤ hllMaxPrecision
  observed : ∀ o ∈ c.observed, ValidRegister c.p o
  hashes : ∀ S, c.hashes = some S →
    S.card ≤ sparseLimit c.p ∧ c.observed = hashRegister c.p '' (S : Set UInt64)

/-- The sketch holds this content. -/
structure HLL.Holds (h : HLL) (c : Content) : Prop where
  precision : h.p = c.p
  hashes : h.sparse.map hashSet = c.hashes
  sparse : ∀ hashes, h.sparse = some hashes → h.regs = []
  dense : h.sparse = none → h.regs.length = 2 ^ h.p ∧ Registers.Holds c.observed (ranks h.regs)

/-- The content at a lower precision. -/
def Content.lower (c : Content) (p : Nat) : Content :=
  ⟨p, joinHashes (sparseLimit p) c.hashes (some ∅), lowerRegister (c.p - p) '' c.observed⟩

/-- Two contents of the same precision together. -/
def Content.union (c c' : Content) : Content :=
  ⟨c.p, joinHashes (sparseLimit c.p) c.hashes c'.hashes, c.observed ∪ c'.observed⟩

/-- Two contents together, at the lower of their precisions. -/
def Content.join (c c' : Content) : Content :=
  (c.lower (min c.p c'.p)).union (c'.lower (min c.p c'.p))

variable {h h' o : HLL} {c c' : Content}

/-- The content determines the sketch. -/
theorem HLL.Holds.unique (hc : h.Holds c) (hc' : h'.Holds c) :
    h = h' := by
  obtain ⟨p, sparse, regs⟩ := h
  obtain ⟨p', sparse', regs'⟩ := h'
  have hp : p = p' := hc.precision.trans hc'.precision.symm
  have hsparse : sparse = sparse' := by
    refine Option.map_injective (fun _ _ => hashSet_injective) ?_
    exact hc.hashes.trans hc'.hashes.symm
  subst hp
  subst hsparse
  congr 1
  cases sparse with
  | some hashes => exact (hc.sparse hashes rfl).trans (hc'.sparse hashes rfl).symm
  | none =>
    obtain ⟨hlen, hregs⟩ := hc.dense rfl
    obtain ⟨hlen', hregs'⟩ := hc'.dense rfl
    refine ranks_injective (hregs.unique hregs' ?_)
    rw [length_ranks, length_ranks]
    exact hlen.trans hlen'.symm

theorem holds_zeros (n : Nat) :
    Registers.Holds ∅ (ranks (List.replicate n 0)) := by
  have hranks : ranks (List.replicate n 0) = List.replicate n ⊥ := by
    simp [ranks]
  rw [hranks]
  exact Registers.holds_replicate n

variable {p : Nat} {S : Finset UInt64}

theorem holds_densify (hp : 4 ≤ p ∧ p ≤ hllMaxPrecision) (hashes : Std.ExtTreeSet UInt64) :
    (densify p hashes).Holds ⟨p, none, hashRegister p '' (hashSet hashes : Set UInt64)⟩ := by
  refine ⟨rfl, rfl, nofun, fun _ => ⟨((densify_consistent hp hashes).dense rfl).1, ?_⟩⟩
  have hset : {o | o ∈ hashes.toList.map (hashRegister p)} =
      hashRegister p '' (hashSet hashes : Set UInt64) := by
    ext o
    simp
  have hfold := (holds_zeros (2 ^ p)).foldl_raise (hashes.toList.map (hashRegister p))
  rw [Set.empty_union, hset, ← ranks_foldl_setRegister hp] at hfold
  exact hfold

theorem holds_ofSparse (hp : 4 ≤ p ∧ p ≤ hllMaxPrecision) (hashes : Std.ExtTreeSet UInt64)
    {T : Finset UInt64} (hset : hashSet hashes = S ∪ T) :
    (ofSparse p hashes).Holds ⟨p, joinHashes (sparseLimit p) (some S) (some T),
      hashRegister p '' (hashSet hashes : Set UInt64)⟩ := by
  unfold ofSparse
  rw [joinHashes_some, ← hset, card_hashSet]
  by_cases hsize : hashes.size > sparseLimit p
  · rw [if_pos hsize, if_neg (by omega)]
    exact holds_densify hp hashes
  · rw [if_neg hsize, if_pos (by omega)]
    exact ⟨rfl, rfl, fun _ _ => rfl, nofun⟩

/-- The content of a consistent sketch. -/
theorem HLL.Consistent.exists_holds (hc : h.Consistent) :
    ∃ c, c.Valid ∧ h.Holds c := by
  have hp := hc.precision
  obtain ⟨p, sparse, regs⟩ := h
  cases sparse with
  | some hashes =>
    obtain ⟨hsize, hregs⟩ := hc.sparse hashes rfl
    refine ⟨⟨p, some (hashSet hashes), hashRegister p '' (hashSet hashes : Set UInt64)⟩,
      ⟨hp, ?_, ?_⟩, ⟨rfl, rfl, fun _ _ => hregs, nofun⟩⟩
    · rintro o ⟨x, _, rfl⟩
      exact hashRegister_valid hp x
    · rintro S ⟨⟩
      rw [card_hashSet]
      exact ⟨hsize, rfl⟩
  | none =>
    obtain ⟨hlen, hregs⟩ := hc.dense rfl
    refine ⟨⟨p, none, Registers.contents (ranks regs)⟩, ⟨hp, ?_, nofun⟩,
      ⟨rfl, rfl, nofun, fun _ => ⟨hlen, Registers.holds_contents _⟩⟩⟩
    rintro ⟨j, n⟩ hcontents
    obtain ⟨r, hr, hzero, rfl⟩ := mem_contents_ranks.mp hcontents
    dsimp only at hlen hregs ⊢
    refine ⟨?_, hcontents.2, hregs r (mem_of_getElem? hr)⟩
    rw [← hlen]
    exact (List.getElem?_eq_some_iff.mp hr).1

/-- The content of a sparse sketch. -/
def Content.ofHashes (p : Nat) (S : Finset UInt64) : Content :=
  ⟨p, some S, hashRegister p '' (S : Set UInt64)⟩

theorem Content.Valid.eq_ofHashes (hc : c.Valid) (hS : c.hashes = some S) :
    c = Content.ofHashes c.p S := by
  obtain ⟨_, hobserved⟩ := hc.hashes S hS
  obtain ⟨p, hashes, observed⟩ := c
  dsimp only at hS hobserved
  subst hS
  subst hobserved
  rfl

theorem Content.ofHashes_valid (hp : 4 ≤ p ∧ p ≤ hllMaxPrecision) (hS : S.card ≤ sparseLimit p) :
    (Content.ofHashes p S).Valid := by
  refine ⟨hp, ?_, ?_⟩
  · rintro o ⟨x, _, rfl⟩
    exact hashRegister_valid hp x
  · rintro _ ⟨⟩
    exact ⟨hS, rfl⟩

theorem Content.Valid.joinHashes_empty (hc : c.Valid) :
    joinHashes (sparseLimit c.p) c.hashes (some ∅) = c.hashes := by
  cases hS : c.hashes with
  | none => rfl
  | some S => rw [joinHashes_some, Finset.union_empty, if_pos (hc.hashes S hS).1]

theorem Content.Valid.union (hc : c.Valid) (hc' : c'.Valid) (hp : c.p = c'.p) :
    (c.union c').Valid := by
  refine ⟨hc.precision, ?_, fun S hS => ?_⟩
  · rintro o (ho | ho)
    · exact hc.observed o ho
    · exact hp.symm ▸ hc'.observed o ho
  unfold Content.union at hS ⊢
  dsimp only at hS ⊢
  cases hS₁ : c.hashes with
  | none =>
    rw [hS₁] at hS
    cases hS
  | some S₁ =>
    cases hS₂ : c'.hashes with
    | none =>
      rw [hS₂, joinHashes_none_right] at hS
      cases hS
    | some S₂ =>
      rw [hS₁, hS₂, joinHashes_some] at hS
      split_ifs at hS with hcard
      cases hS
      refine ⟨hcard, ?_⟩
      rw [(hc.hashes S₁ hS₁).2, (hc'.hashes S₂ hS₂).2, ← hp, Finset.coe_union, Set.image_union]

theorem HLL.Holds.addHash (hc : c.Valid) (hh : h.Holds c) (x : UInt64) :
    (Gsql.addHash h x).Holds (c.union (.ofHashes c.p {x})) := by
  have himage : hashRegister c.p '' (({x} : Finset UInt64) : Set UInt64) =
      {hashRegister c.p x} := by
    simp
  obtain ⟨p, sparse, regs⟩ := h
  have hp : p = c.p := hh.precision
  subst hp
  cases sparse with
  | some hashes =>
    have hS : c.hashes = some (hashSet hashes) := hh.hashes.symm
    have hset : hashSet (hashes.insert x) = hashSet hashes ∪ {x} := by
      rw [hashSet_insert, Finset.union_comm]
      rfl
    have hsparse := holds_ofSparse hc.precision (hashes.insert x) hset
    rw [hset, Finset.coe_union, Set.image_union, ← (hc.hashes _ hS).2, ← hS] at hsparse
    exact hsparse
  | none =>
    have hS : c.hashes = none := hh.hashes.symm
    obtain ⟨hlen, hregs⟩ := hh.dense rfl
    refine ⟨rfl, ?_, nofun, fun _ => ⟨?_, ?_⟩⟩
    · simp [Content.union, hS, Gsql.addHash]
    · simpa [Gsql.addHash, setRegister, raiseRegister] using hlen
    have hraise := hregs.raise (hashRegister c.p x).1 (hashRegister c.p x).2
    rw [← ranks_setRegister hc.precision] at hraise
    unfold Content.union Content.ofHashes
    dsimp only
    rw [himage, Set.union_singleton]
    exact hraise

theorem Content.union_ofHashes_insert (c : Content) (x : UInt64) (S : Finset UInt64) :
    (c.union (.ofHashes c.p {x})).union (.ofHashes c.p S) =
      c.union (.ofHashes c.p (insert x S)) := by
  unfold Content.union Content.ofHashes
  dsimp only
  congr 1
  · cases c.hashes with
    | none => simp
    | some T =>
      rw [joinHashes_joinHashes le_rfl, joinHashes_some, joinHashes_some,
        Finset.union_assoc, ← Finset.insert_eq]
  · rw [Set.union_assoc, ← Set.image_union, ← Finset.coe_union, ← Finset.insert_eq]

theorem one_le_sparseLimit (hp : 4 ≤ p) :
    1 ≤ sparseLimit p := by
  have hpow : 2 ^ 4 ≤ 2 ^ p := Nat.pow_le_pow_right (by omega) hp
  unfold sparseLimit
  omega

theorem HLL.Holds.foldl_addHash (hc : c.Valid) (hh : h.Holds c) (xs : List UInt64) :
    (xs.foldl Gsql.addHash h).Holds (c.union (.ofHashes c.p xs.toFinset)) := by
  induction xs generalizing h c with
  | nil =>
    have hsame : c.union (.ofHashes c.p (toFinset [])) = c := by
      unfold Content.union Content.ofHashes
      dsimp only
      rw [toFinset_nil, hc.joinHashes_empty, Finset.coe_empty, Set.image_empty,
        Set.union_empty]
    rw [hsame]
    exact hh
  | cons x xs ih =>
    have hone : ({x} : Finset UInt64).card ≤ sparseLimit c.p := one_le_sparseLimit hc.precision.1
    have hnext := ih (hc.union (Content.ofHashes_valid hc.precision hone) rfl) (hh.addHash hc x)
    rw [toFinset_cons, ← Content.union_ofHashes_insert]
    exact hnext

end Contents

section Precision

variable {h o : HLL} {c c' : Content}

variable {p q : Nat}

theorem sparseLimit_mono (h : p ≤ q) :
    sparseLimit p ≤ sparseLimit q :=
  Nat.div_le_div_right (Nat.pow_le_pow_right (by omega) h)

theorem Content.Valid.lower_self (hc : c.Valid) :
    c.lower c.p = c := by
  unfold Content.lower
  rw [hc.joinHashes_empty, Nat.sub_self]
  have hid : lowerRegister 0 = id := funext lowerRegister_zero
  rw [hid, Set.image_id]

theorem image_lowerRegister_hashRegister (hp : 4 ≤ p ∧ p ≤ q ∧ q ≤ hllMaxPrecision)
    (S : Set UInt64) :
    lowerRegister (q - p) '' (hashRegister q '' S) = hashRegister p '' S := by
  have hsum : q = p + (q - p) := by omega
  rw [Set.image_image]
  refine Set.image_congr fun x _ => ?_
  nth_rewrite 2 [hsum]
  exact lowerRegister_hashRegister ⟨hp.1, by omega⟩ x

theorem Content.Valid.lower (hc : c.Valid) (hp : 4 ≤ p ∧ p ≤ c.p) :
    (c.lower p).Valid := by
  have hmax := hc.precision.2
  refine ⟨⟨hp.1, by unfold Content.lower; dsimp only; omega⟩, ?_, fun S hS => ?_⟩
  · rintro _ ⟨o, ho, rfl⟩
    have hsum : p + (c.p - p) = c.p := by omega
    have hvalid : ValidRegister (p + (c.p - p)) o := hsum.symm ▸ hc.observed o ho
    exact lowerRegister_valid (p := p) (by omega) hvalid
  unfold Content.lower at hS ⊢
  dsimp only at hS ⊢
  cases hS₀ : c.hashes with
  | none =>
    rw [hS₀] at hS
    cases hS
  | some S₀ =>
    rw [hS₀, joinHashes_some, Finset.union_empty] at hS
    split_ifs at hS with hcard
    cases hS
    refine ⟨hcard, ?_⟩
    rw [(hc.hashes S hS₀).2]
    exact image_lowerRegister_hashRegister ⟨hp.1, hp.2, hmax⟩ _

theorem mem_zip_range_iff {regs : List UInt8} {j : Nat} {r : UInt8} :
    (j, r) ∈ (List.range regs.length).zip regs ↔ regs[j]? = some r := by
  rw [mem_iff_getElem?]
  constructor
  · rintro ⟨i, hi⟩
    obtain ⟨hindex, hreg⟩ := List.getElem?_zip_eq_some.mp hi
    obtain ⟨_, rfl⟩ := List.getElem?_eq_some_iff.mp hindex
    simpa using hreg
  · intro hreg
    refine ⟨j, List.getElem?_zip_eq_some.mpr ⟨?_, hreg⟩⟩
    exact List.getElem?_range (List.getElem?_eq_some_iff.mp hreg).1

/-- A dense sketch at a lower precision. -/
theorem holds_lowerRegisters (hc : c.Valid) {regs : List UInt8} (hlen : regs.length = 2 ^ c.p)
    (hregs : Registers.Holds c.observed (ranks regs)) (hp : 4 ≤ p ∧ p ≤ c.p) :
    Registers.Holds (lowerRegister (c.p - p) '' c.observed)
      (ranks (((List.range regs.length).zip regs).foldl
        (downgradeRegister (c.p - p)) (List.replicate (2 ^ p) 0))) := by
  have hmax := hc.precision.2
  have hsum : p + (c.p - p) = c.p := by omega
  have hcontents : ∀ j r, (j, r) ∈ (List.range regs.length).zip regs → r ≠ 0 →
      (j, r.toNat) ∈ Registers.contents (ranks regs) :=
    fun j r hjr hr => mem_contents_ranks.mpr ⟨r, mem_zip_range_iff.mp hjr, hr, rfl⟩
  refine hregs.image (fun o ho => ?_) (fun _ _ _ => rfl)
    (fun j a b hab => lowerRegister_mono (c.p - p) j hab) ?_
  · obtain ⟨hindex, hpos, _⟩ := hc.observed o ho
    rw [length_ranks, hlen]
    exact ⟨hindex, hpos⟩
  rw [ranks_foldl_downgradeRegister (p := p) (by omega) _ fun jr hjr hr => ?_]
  · have hfold := (holds_zeros (2 ^ p)).foldl_raise
      ((((List.range regs.length).zip regs).filter (fun jr => jr.2 ≠ 0)).map
        (fun jr => lowerRegister (c.p - p) (jr.1, jr.2.toNat)))
    rw [Set.empty_union] at hfold
    convert hfold using 1
    ext o
    constructor
    · rintro ⟨⟨j, n⟩, ho, rfl⟩
      obtain ⟨r, hr, hzero, rfl⟩ := mem_contents_ranks.mp ho
      exact mem_map.mpr ⟨(j, r), mem_filter.mpr
        ⟨mem_zip_range_iff.mpr hr, by simpa using hzero⟩, rfl⟩
    · intro ho
      obtain ⟨⟨j, r⟩, hjr, rfl⟩ := mem_map.mp ho
      obtain ⟨hmem, hzero⟩ := mem_filter.mp hjr
      exact ⟨_, hcontents j r hmem (by simpa using hzero), rfl⟩
  · rw [hsum]
    obtain ⟨hreg, hbot⟩ := hcontents jr.1 jr.2 hjr hr
    exact hc.observed _ (hregs.mem _ _ hreg hbot)

theorem HLL.Holds.downgrade (hc : c.Valid) (hh : h.Holds c) (hp : 4 ≤ p ∧ p < c.p) :
    (Gsql.downgrade h p).Holds (c.lower p) := by
  have hmax := hc.precision.2
  obtain ⟨q, sparse, regs⟩ := h
  have hq : q = c.p := hh.precision
  subst hq
  unfold Gsql.downgrade
  dsimp only
  rw [if_neg (by omega)]
  cases sparse with
  | some hashes =>
    have hS : c.hashes = some (hashSet hashes) := hh.hashes.symm
    have hsparse := holds_ofSparse ⟨hp.1, by omega⟩ hashes (Finset.union_empty _).symm
    rw [← image_lowerRegister_hashRegister ⟨hp.1, hp.2.le, hmax⟩,
      ← (hc.hashes _ hS).2, ← hS] at hsparse
    exact hsparse
  | none =>
    have hS : c.hashes = none := hh.hashes.symm
    obtain ⟨hlen, hregs⟩ := hh.dense rfl
    refine ⟨rfl, ?_, ?_, fun _ => ⟨?_, ?_⟩⟩
    · simp [Content.lower, hS]
    · rintro hashes ⟨⟩
    · rw [length_foldl_downgradeRegister, length_replicate]
    · exact holds_lowerRegisters hc hlen hregs ⟨hp.1, hp.2.le⟩

/-- Merging two sketches of the same precision. -/
theorem holds_mergeSame (hc : c.Valid) (hc' : c'.Valid) (hp : c.p = c'.p) (hh : h.Holds c)
    (ho : o.Holds c') :
    HLL.Holds (match o.sparse with
      | some hashes => hashes.toList.foldl addHash h
      | none =>
        let dense :=
          match h.sparse with
          | some hashes => densify h.p hashes
          | none => h
        { dense with
          regs := dense.regs.zipWith (fun a r => if r > a then r else a) o.regs })
      (c.union c') := by
  cases hsparse : o.sparse with
  | some hashes =>
    have hS : c'.hashes = some (hashSet hashes) := by
      rw [← ho.hashes, hsparse]
      rfl
    have hfold := hh.foldl_addHash hc hashes.toList
    rw [hc'.eq_ofHashes hS, ← hp]
    exact hfold
  | none =>
    have hS : c'.hashes = none := by
      rw [← ho.hashes, hsparse]
      rfl
    obtain ⟨hlen, hregs⟩ := ho.dense hsparse
    -- a sparse sketch is made dense first
    have hdense : ∀ dense : HLL, dense.Holds ⟨c.p, none, c.observed⟩ →
        HLL.Holds
          { dense with
            regs := dense.regs.zipWith (fun a r => if r > a then r else a) o.regs }
          (c.union c') := by
      intro dense hdense
      have hnone : dense.sparse = none := Option.map_eq_none_iff.mp hdense.hashes
      obtain ⟨hlen', hregs'⟩ := hdense.dense hnone
      refine ⟨hdense.precision, ?_, ?_, fun _ => ⟨?_, ?_⟩⟩
      · simp [Content.union, hS, hnone]
      · intro hashes hsome
        rw [hnone] at hsome
        cases hsome
      · dsimp only
        rw [length_zipWith, hlen', hlen, hdense.precision, ho.precision, hp]
        exact Nat.min_self _
      · dsimp only
        rw [ranks_zipWith]
        exact hregs'.zipWith_max hregs
    cases hsparse' : h.sparse with
    | some hashes =>
      have hS' : c.hashes = some (hashSet hashes) := by
        rw [← hh.hashes, hsparse']
        rfl
      refine hdense _ ?_
      rw [hh.precision, (hc.hashes _ hS').2]
      exact holds_densify hc.precision hashes
    | none =>
      refine hdense h ⟨hh.precision, ?_, hh.sparse, hh.dense⟩
      rw [hsparse']
      rfl

/-- Merging joins the contents. -/
theorem HLL.Holds.merge (hc : c.Valid) (hc' : c'.Valid) (hh : h.Holds c) (ho : o.Holds c') :
    (h.merge o).Holds (c.join c') := by
  have hprec := hc.precision
  have hprec' := hc'.precision
  have hh' : (if o.p < h.p then Gsql.downgrade h o.p else h).Holds (c.lower (min c.p c'.p)) := by
    rw [ho.precision, hh.precision]
    split_ifs with hlt
    · rw [min_eq_right hlt.le]
      exact hh.downgrade hc ⟨hprec'.1, hlt⟩
    · rw [min_eq_left (not_lt.mp hlt), hc.lower_self]
      exact hh
  have ho' : (if o.p > h.p then Gsql.downgrade o h.p else o).Holds (c'.lower (min c.p c'.p)) := by
    rw [ho.precision, hh.precision]
    split_ifs with hlt
    · rw [min_eq_left hlt.le]
      exact ho.downgrade hc' ⟨hprec.1, hlt⟩
    · rw [min_eq_right (not_lt.mp hlt), hc'.lower_self]
      exact ho
  exact holds_mergeSame (hc.lower ⟨by omega, by omega⟩) (hc'.lower ⟨by omega, by omega⟩) rfl hh' ho'

theorem Content.Valid.join (hc : c.Valid) (hc' : c'.Valid) :
    (c.join c').Valid := by
  have hprec := hc.precision
  have hprec' := hc'.precision
  exact (hc.lower ⟨by omega, by omega⟩).union (hc'.lower ⟨by omega, by omega⟩) rfl

theorem Content.join_eq (c c' : Content) :
    c.join c' =
      ⟨min c.p c'.p, joinHashes (sparseLimit (min c.p c'.p)) c.hashes c'.hashes,
        lowerRegister (c.p - min c.p c'.p) '' c.observed ∪
          lowerRegister (c'.p - min c.p c'.p) '' c'.observed⟩ := by
  unfold Content.join Content.union Content.lower
  dsimp only
  rw [joinHashes_limit le_rfl, joinHashes_comm, joinHashes_limit le_rfl, joinHashes_comm]

theorem image_lowerRegister_lowerRegister {r : Nat} (hp : p ≤ q ∧ q ≤ r) (obs : Set (Nat × Nat)) :
    lowerRegister (q - p) '' (lowerRegister (r - q) '' obs) = lowerRegister (r - p) '' obs := by
  have hsum : r - q + (q - p) = r - p := by omega
  rw [Set.image_image]
  refine Set.image_congr fun o _ => ?_
  rw [lowerRegister_lowerRegister, hsum]

/-- Of three contents, the last two can be exchanged. -/
theorem Content.join_right_comm (a b c : Content) :
    (a.join b).join c = (a.join c).join b := by
  rw [Content.join_eq a b, Content.join_eq a c, Content.join_eq, Content.join_eq]
  dsimp only
  have hp : min (min a.p c.p) b.p = min (min a.p b.p) c.p := by omega
  have hlimit : sparseLimit (min (min a.p b.p) c.p) ≤ sparseLimit (min a.p c.p) :=
    sparseLimit_mono (by omega)
  rw [hp, joinHashes_right_comm (sparseLimit_mono (by omega)) hlimit, Set.image_union,
    Set.image_union,
    image_lowerRegister_lowerRegister ⟨by omega, by omega⟩,
    image_lowerRegister_lowerRegister ⟨by omega, by omega⟩,
    image_lowerRegister_lowerRegister ⟨by omega, by omega⟩,
    image_lowerRegister_lowerRegister ⟨by omega, by omega⟩, Set.union_right_comm]

theorem HLL.merge_right_comm {a b : HLL} (hh : h.Consistent) (ha : a.Consistent)
    (hb : b.Consistent) :
    (h.merge a).merge b = (h.merge b).merge a := by
  obtain ⟨c, hc, hholds⟩ := hh.exists_holds
  obtain ⟨ca, hca, hholdsA⟩ := ha.exists_holds
  obtain ⟨cb, hcb, hholdsB⟩ := hb.exists_holds
  have hab := (hholds.merge hc hca hholdsA).merge (hc.join hca) hcb hholdsB
  have hba := (hholds.merge hc hcb hholdsB).merge (hc.join hcb) hca hholdsA
  rw [Content.join_right_comm] at hba
  exact hab.unique hba

/-- A sketch of one hash, at the highest precision. -/
def sketchOf (x : UInt64) : HLL :=
  ⟨hllMaxPrecision, some ((∅ : Std.ExtTreeSet UInt64).insert x), []⟩

theorem sketchOf_holds (x : UInt64) :
    (sketchOf x).Holds (.ofHashes hllMaxPrecision {x}) := by
  refine ⟨rfl, ?_, fun _ _ => rfl, nofun⟩
  have hempty : hashSet (∅ : Std.ExtTreeSet UInt64) = ∅ := by
    simp [hashSet]
  simp [sketchOf, Content.ofHashes, hashSet_insert, hempty]

theorem sketchOf_consistent (x : UInt64) :
    (sketchOf x).Consistent := by
  refine ⟨⟨by simp [sketchOf, hllMaxPrecision], le_rfl⟩, ?_, nofun⟩
  rintro _ ⟨⟩
  refine ⟨?_, rfl⟩
  have hset := Option.some.inj (sketchOf_holds x).hashes
  have hprec : 4 ≤ hllMaxPrecision := by decide
  rw [← card_hashSet, hset]
  exact one_le_sparseLimit hprec

/-- Adding an item merges a sketch of one hash. -/
theorem HLL.add_eq_merge (hh : h.Consistent) (item : Bytes) :
    h.add item = h.merge (sketchOf (hllHash item)) := by
  obtain ⟨c, hc, hholds⟩ := hh.exists_holds
  have hprec := hc.precision
  have hone : ∀ p, 4 ≤ p → ({hllHash item} : Finset UInt64).card ≤ sparseLimit p :=
    fun p hp => one_le_sparseLimit hp
  have hmerge := hholds.merge hc
    (Content.ofHashes_valid ⟨by decide, le_rfl⟩ (hone hllMaxPrecision (by decide)))
    (sketchOf_holds (hllHash item))
  have hlower : (Content.ofHashes hllMaxPrecision {hllHash item}).lower c.p =
      .ofHashes c.p {hllHash item} := by
    unfold Content.lower Content.ofHashes
    dsimp only
    rw [joinHashes_some, Finset.union_empty, if_pos (hone c.p hprec.1),
      image_lowerRegister_hashRegister ⟨hprec.1, hprec.2, le_rfl⟩]
  have hjoin : c.join (.ofHashes hllMaxPrecision {hllHash item}) =
      c.union (.ofHashes c.p {hllHash item}) := by
    unfold Content.join
    have hmin : min c.p (Content.ofHashes hllMaxPrecision {hllHash item}).p = c.p :=
      min_eq_left hprec.2
    rw [hmin, hc.lower_self, hlower]
  rw [hjoin] at hmerge
  exact (hholds.addHash hc (hllHash item)).unique hmerge

end Precision

end Gsql
end LittleBigtable
