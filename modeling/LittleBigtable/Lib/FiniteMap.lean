import Std.Data.ExtTreeMap

/-!
# Finite maps with ordered keys

Facts about extensional tree maps that are stated through lookups alone: when a
map is empty, what holds of every entry, and what a loop over the entries of one
map leaves in another.
-/

namespace FiniteMap

open Std List

universe u v w

variable {α : Type u} {β : Type v} {γ : Type w} {cmp : α → α → Ordering}
variable [TransCmp cmp] [LawfulEqCmp cmp]

variable (m : ExtTreeMap α β cmp) (f : α → Option β → γ → β) {k : α}

theorem eq_empty_iff :
    m = ∅ ↔ ∀ k : α, m[k]? = none := by
  constructor
  · rintro rfl k
    simp
  intro h
  refine ExtTreeMap.ext_getElem? (fun k => ?_)
  rw [h k]
  simp

/-- Every entry of the list of entries satisfies `p` exactly when every
successful lookup does. -/
theorem all_toList_iff (p : α × β → Bool) :
    m.toList.all p = true ↔ ∀ (k : α) (v : β), m[k]? = some v → p (k, v) = true := by
  rw [all_eq_true]
  constructor
  · intro h k v hkv
    exact h (k, v) (ExtTreeMap.mem_toList_iff_getElem?_eq_some.mpr hkv)
  · rintro h ⟨k, v⟩ hmem
    exact h k v (ExtTreeMap.mem_toList_iff_getElem?_eq_some.mp hmem)

/-- For every entry of `src`, combine the value in `m` with it. -/
def update (m : ExtTreeMap α β cmp) (src : ExtTreeMap α γ cmp)
    (f : α → Option β → γ → β) : ExtTreeMap α β cmp :=
  src.toList.foldl (fun acc kv => acc.insert kv.1 (f kv.1 acc[kv.1]? kv.2)) m

theorem foldl_insert_of_forall_ne (entries : List (α × γ)) (m : ExtTreeMap α β cmp)
    (h : ∀ kv ∈ entries, kv.1 ≠ k) :
    (entries.foldl (fun acc kv => acc.insert kv.1 (f kv.1 acc[kv.1]? kv.2)) m)[k]? = m[k]? := by
  induction entries generalizing m with
  | nil => rfl
  | cons kv entries ih =>
    have hne : cmp kv.1 k ≠ .eq := fun heq =>
      h kv (by simp) (LawfulEqCmp.compare_eq_iff_eq.mp heq)
    rw [foldl_cons, ih _ (fun kv' hkv' => h kv' (by simp [hkv'])),
      ExtTreeMap.getElem?_insert, if_neg hne]

/-- The loop visits each key once. -/
theorem foldl_insert_of_mem {v : γ} (entries : List (α × γ))
    (hdistinct : entries.Pairwise (fun a b => a.1 ≠ b.1)) (m : ExtTreeMap α β cmp)
    (h : (k, v) ∈ entries) :
    (entries.foldl
      (fun acc kv => acc.insert kv.1 (f kv.1 acc[kv.1]? kv.2)) m)[k]? = some (f k m[k]? v) := by
  induction entries generalizing m with
  | nil => simp at h
  | cons kv entries ih =>
    obtain ⟨hhead, htail⟩ := pairwise_cons.mp hdistinct
    rw [foldl_cons]
    rcases mem_cons.mp h with rfl | hmem
    · rw [foldl_insert_of_forall_ne f entries _ (fun kv' hkv' => (hhead kv' hkv').symm)]
      simp
    · have hne : cmp kv.1 k ≠ .eq := fun heq =>
        hhead (k, v) hmem (LawfulEqCmp.compare_eq_iff_eq.mp heq)
      rw [ih htail _ hmem, ExtTreeMap.getElem?_insert, if_neg hne]

/-- Looking up a key after an update. -/
theorem getElem?_update (src : ExtTreeMap α γ cmp) (f : α → Option β → γ → β) (k : α) :
    (update m src f)[k]? =
      match src[k]? with
      | none => m[k]?
      | some v => some (f k m[k]? v) := by
  unfold update
  cases hk : src[k]? with
  | none =>
    refine foldl_insert_of_forall_ne f _ m ?_
    rintro ⟨k', v⟩ hmem heq
    subst heq
    rw [ExtTreeMap.mem_toList_iff_getElem?_eq_some, hk] at hmem
    cases hmem
  | some v =>
    refine foldl_insert_of_mem f _ ?_ m (ExtTreeMap.mem_toList_iff_getElem?_eq_some.mpr hk)
    exact ExtTreeMap.distinct_keys_toList.imp
      (fun h heq => h (LawfulEqCmp.compare_eq_iff_eq.mpr heq))

theorem getElem?_insert_eq [DecidableEq α] (k k' : α) (v : β) :
    (m.insert k v)[k']? = if k = k' then some v else m[k']? := by
  rw [ExtTreeMap.getElem?_insert]
  by_cases h : k = k'
  · rw [if_pos h, if_pos (LawfulEqCmp.compare_eq_iff_eq.mpr h)]
  · rw [if_neg h, if_neg (fun heq => h (LawfulEqCmp.compare_eq_iff_eq.mp heq))]

theorem getElem?_erase_eq [DecidableEq α] (k k' : α) :
    (m.erase k)[k']? = if k = k' then none else m[k']? := by
  rw [ExtTreeMap.getElem?_erase]
  by_cases h : k = k'
  · rw [if_pos h, if_pos (LawfulEqCmp.compare_eq_iff_eq.mpr h)]
  · rw [if_neg h, if_neg (fun heq => h (LawfulEqCmp.compare_eq_iff_eq.mp heq))]

/-- What holds of every entry and of a new one holds of every entry after the insertion. -/
theorem forall_insert {m : ExtTreeMap α β cmp} {P : α → β → Prop} {v : β} (hv : P k v)
    (h : ∀ k v, m[k]? = some v → P k v) (k' : α) (v' : β) (h' : (m.insert k v)[k']? = some v') :
    P k' v' := by
  classical
  rw [getElem?_insert_eq] at h'
  split at h'
  · next heq =>
    cases h'
    exact heq ▸ hv
  · exact h k' v' h'

theorem forall_erase {m : ExtTreeMap α β cmp} {P : α → β → Prop}
    (h : ∀ k v, m[k]? = some v → P k v) (k' : α) (v' : β) (h' : (m.erase k)[k']? = some v') :
    P k' v' := by
  classical
  rw [getElem?_erase_eq] at h'
  split at h'
  · cases h'
  · exact h k' v' h'

theorem insert_eq_self {m : ExtTreeMap α β cmp} {v : β} (h : m[k]? = some v) :
    m.insert k v = m := by
  classical
  refine ExtTreeMap.ext_getElem? (fun k' => ?_)
  rw [getElem?_insert_eq]
  by_cases heq : k = k'
  · rw [if_pos heq, ← heq, h]
  · rw [if_neg heq]

omit [LawfulEqCmp cmp] in
/-- A value that is stored under its own key is found by the key in a list of the values. -/
theorem find?_eq_getElem? [DecidableEq α] {m : ExtTreeMap α β cmp} {keyOf : β → α} {l : List β}
    (hkeys : ∀ k b, m[k]? = some b → keyOf b = k)
    (hmem : ∀ b, b ∈ l ↔ ∃ k : α, m[k]? = some b) (k : α) :
    l.find? (fun b => keyOf b = k) = m[k]? := by
  cases hfind : l.find? (fun b => keyOf b = k) with
  | some b =>
    obtain ⟨k', hb⟩ := (hmem b).mp (mem_of_find?_eq_some hfind)
    have hk : keyOf b = k := by simpa using List.find?_some hfind
    rw [← hk, hkeys k' b hb, hb]
  | none =>
    refine (Option.eq_none_iff_forall_ne_some.mpr (fun b hb => ?_)).symm
    exact List.find?_eq_none.mp hfind b ((hmem b).mpr ⟨k, hb⟩) (decide_eq_true (hkeys k b hb))

theorem foldl_clear {σ : Type u} {ι : Type v} (step : σ → ι → σ) (obs : σ → γ) (zero : γ)
    (clears : ι → Prop) [DecidablePred clears] (l : List ι)
    (hstep : ∀ s, ∀ i ∈ l, obs (step s i) = if clears i then zero else obs s) (s : σ) :
    obs (l.foldl step s) = if ∃ i ∈ l, clears i then zero else obs s := by
  induction l generalizing s with
  | nil => simp
  | cons i l ih =>
    rw [foldl_cons, ih (fun s j hj => hstep s j (mem_cons_of_mem i hj)),
      hstep s i mem_cons_self]
    by_cases hi : clears i
    · simp [hi]
    · simp [hi]

/-- Move the entries of a list to new keys, one after the other. -/
def rekey {ι : Type w} (old new : ι → α) (value : ι → β) (m : ExtTreeMap α β cmp)
    (i : ι) : ExtTreeMap α β cmp :=
  (m.erase (old i)).insert (new i) (value i)

variable {ι : Type w} (old new : ι → α) (value : ι → β)

theorem getElem?_foldl_rekey [DecidableEq α] (l : List ι) (m : ExtTreeMap α β cmp)
    (hk : ∀ i ∈ l, new i ≠ k) :
    (l.foldl (rekey old new value) m)[k]? =
      if ∃ i ∈ l, old i = k then none else m[k]? := by
  refine foldl_clear (rekey old new value) (fun m => m[k]?) none (fun i => old i = k) l
    (fun m i hi => ?_) m
  unfold rekey
  rw [getElem?_insert_eq, if_neg (hk i hi), getElem?_erase_eq]

/-- A key to which an entry is moved, and from which none is. -/
theorem getElem?_foldl_rekey_of_mem [DecidableEq α] (l : List ι) (m : ExtTreeMap α β cmp) {i : ι}
    (hi : i ∈ l) (hdistinct : l.Pairwise (fun i j => new i ≠ new j))
    (hold : ∀ j ∈ l, old j ≠ new i) :
    (l.foldl (rekey old new value) m)[new i]? = some (value i) := by
  induction l generalizing m with
  | nil => cases hi
  | cons j l ih =>
    obtain ⟨hhead, htail⟩ := pairwise_cons.mp hdistinct
    rw [foldl_cons]
    rcases mem_cons.mp hi with rfl | hi
    · rw [getElem?_foldl_rekey old new value l _ (fun j hj => (hhead j hj).symm), if_neg]
      · unfold rekey
        rw [getElem?_insert_eq, if_pos rfl]
      · rintro ⟨j, hj, heq⟩
        exact hold j (mem_cons_of_mem i hj) heq
    · exact ih _ hi htail (fun j' hj' => hold j' (mem_cons_of_mem j hj'))

end FiniteMap
