import LittleBigtable.Lib.StableSort

/-!
# Lists in groups

A list whose elements belong to groups, such that elements with equal keys lie in
the same group.  A descending list is then determined by the sublists of its
groups.  The module also has the limit of each group to a number of elements.
-/

namespace Grouped

open StableSort List

universe u v w

variable {α : Type u} {κ : Type v} {ι : Type w}

section Sorting

variable [LinearOrder κ] (key : α → κ)

/-- Selecting elements commutes with sorting. -/
theorem filter_sortDesc (p : α → Bool) (l : List α) :
    (sortDesc key l).filter p = sortDesc key (l.filter p) := by
  refine eq_of_fibers_eq key ((descending_sortDesc key l).filter p)
    (descending_sortDesc key _) (fun k => ?_)
  rw [fiber_sortDesc]
  have hcomm : ∀ l' : List α, fiber key k (l'.filter p) = (fiber key k l').filter p := by
    intro l'
    unfold fiber
    rw [filter_filter, filter_filter]
    refine filter_congr (fun a _ => ?_)
    rw [Bool.and_comm]
  rw [hcomm, hcomm, fiber_sortDesc]

theorem sortDesc_map {β : Type*} {κ' : Type*} [LinearOrder κ'] (key' : β → κ') (f : β → α)
    (hf : ∀ a b, key (f b) ≤ key (f a) ↔ key' b ≤ key' a) (l : List β) :
    sortDesc key (l.map f) = (sortDesc key' l).map f := by
  unfold sortDesc
  exact (map_insertionSort (fun a b => key' b ≤ key' a)
    (fun a b => key b ≤ key a) f l (fun a _ b _ => (hf a b).symm)).symm

variable [DecidableEq ι] (group : α → ι)

/-- Two descending lists with the same groups are equal. -/
theorem eq_of_groups_eq (hgroup : ∀ a b, key a = key b → group a = group b) {l₁ l₂ : List α}
    (h₁ : Descending key l₁) (h₂ : Descending key l₂)
    (h : ∀ i, l₁.filter (fun a => group a = i) = l₂.filter (fun a => group a = i)) :
    l₁ = l₂ := by
  refine eq_of_fibers_eq key h₁ h₂ (fun k => ?_)
  unfold fiber
  by_cases hk : ∃ a, key a = k
  · obtain ⟨a, rfl⟩ := hk
    -- the elements with this key lie in one group
    have hsub : ∀ l : List α, l.filter (fun b => key b = key a) =
        (l.filter (fun b => group b = group a)).filter (fun b => key b = key a) := by
      intro l
      rw [filter_filter]
      refine filter_congr (fun b _ => ?_)
      by_cases hb : key b = key a
      · simp [hb, hgroup b a hb]
      · simp [hb]
    rw [hsub l₁, hsub l₂, h]
  · have hnil : ∀ l : List α, l.filter (fun b => key b = k) = [] := by
      intro l
      rw [filter_eq_nil_iff]
      intro b _ hb
      exact hk ⟨b, of_decide_eq_true hb⟩
    rw [hnil, hnil]

end Sorting

section Limits

variable [DecidableEq ι] (group : α → ι)

/-- Keep the first `n` elements of each group; `seen` lists the groups of the
elements before. -/
def limitPerGroupFrom (n : Nat) :
    List ι → List α → List α
  | _, [] => []
  | seen, a :: l =>
    if seen.count (group a) < n then
      a :: limitPerGroupFrom n (group a :: seen) l
    else
      limitPerGroupFrom n (group a :: seen) l

/-- Keep the first `n` elements of each group. -/
def limitPerGroup (n : Nat) (l : List α) : List α :=
  limitPerGroupFrom group n [] l

variable (n : Nat)

theorem limitPerGroupFrom_sublist (seen : List ι) (l : List α) :
    (limitPerGroupFrom group n seen l).Sublist l := by
  induction l generalizing seen with
  | nil => exact List.Sublist.refl _
  | cons a l ih =>
    unfold limitPerGroupFrom
    split_ifs
    · exact (ih _).cons_cons a
    · exact (ih _).cons a

theorem limitPerGroup_sublist (l : List α) :
    (limitPerGroup group n l).Sublist l :=
  limitPerGroupFrom_sublist group n [] l

theorem filter_limitPerGroupFrom (i : ι) (seen : List ι) (l : List α) :
    (limitPerGroupFrom group n seen l).filter (fun a => group a = i) =
      (l.filter (fun a => group a = i)).take (n - seen.count i) := by
  induction l generalizing seen with
  | nil => simp [limitPerGroupFrom]
  | cons a l ih =>
    unfold limitPerGroupFrom
    by_cases ha : group a = i
    · subst ha
      split_ifs with hlt
      · have hsucc : n - seen.count (group a) = (n - (seen.count (group a) + 1)) + 1 := by
          omega
        simp [ih, hsucc]
      · have hzero : n - seen.count (group a) = 0 := by omega
        have hzero' : n - (seen.count (group a) + 1) = 0 := by omega
        simp [ih, hzero, hzero']
    · have hcount : (group a :: seen).count i = seen.count i := count_cons_of_ne ha
      split_ifs <;> simp [ih, ha, hcount]

theorem filter_limitPerGroup (i : ι) (l : List α) :
    (limitPerGroup group n l).filter (fun a => group a = i) =
      (l.filter (fun a => group a = i)).take n := by
  unfold limitPerGroup
  rw [filter_limitPerGroupFrom]
  rfl

end Limits

section Blocks

/-- A list of blocks of which one is not empty. -/
theorem flatMap_eq_of_unique {β : Type*} {f : β → List α} {l : List β} (hnodup : l.Nodup) {b : β}
    (hb : b ∈ l) (h : ∀ b' ∈ l, b' ≠ b → f b' = []) :
    l.flatMap f = f b := by
  induction l with
  | nil => cases hb
  | cons b' l ih =>
    obtain ⟨hnot, hnodup'⟩ := nodup_cons.mp hnodup
    rw [flatMap_cons]
    rcases mem_cons.mp hb with rfl | hmem
    · have hrest : l.flatMap f = [] := by
        rw [flatMap_eq_nil_iff]
        intro c hc
        exact h c (mem_cons_of_mem _ hc) (fun heq => hnot (heq ▸ hc))
      rw [hrest, append_nil]
    · have hhead : f b' = [] := h b' (mem_cons_self ..) (fun heq => hnot (heq ▸ hmem))
      rw [hhead, nil_append]
      exact ih hnodup' hmem (fun c hc => h c (mem_cons_of_mem _ hc))

end Blocks

section Distinct

variable [DecidableEq κ]

/-- The selected elements have different keys when no group holds two of them. -/
theorem pairwise_ne_iff_groups (key : α → κ) (p : α → Bool) (l : List α) :
    l.Pairwise (fun a b => p a = true → p b = true → key a ≠ key b) ↔
      ∀ k, (l.filter (fun a => p a && decide (key a = k))).length ≤ 1 := by
  induction l with
  | nil => simp
  | cons a l ih =>
    rw [pairwise_cons, ih]
    constructor
    · rintro ⟨hfirst, hrest⟩ k
      by_cases ha : (p a && decide (key a = k)) = true
      · -- no later element is in the group of the first one
        have hnil : l.filter (fun b => p b && decide (key b = k)) = [] := by
          rw [filter_eq_nil_iff]
          intro b hb hbk
          simp only [Bool.and_eq_true, decide_eq_true_eq] at ha hbk
          exact hfirst b hb ha.1 hbk.1 (ha.2.trans hbk.2.symm)
        rw [filter_cons, if_pos ha, hnil]
        rfl
      · rw [filter_cons, if_neg ha]
        exact hrest k
    · intro hgroups
      refine ⟨fun b hb hpa hpb heq => ?_, fun k => ?_⟩
      · have hlen := hgroups (key a)
        rw [filter_cons_of_pos (by simp [hpa]), length_cons] at hlen
        have hmem : b ∈ l.filter (fun b => p b && decide (key b = key a)) :=
          mem_filter.mpr ⟨hb, by simp [hpb, heq]⟩
        have hpos := length_pos_of_mem hmem
        omega
      · refine le_trans (List.Sublist.length_le ?_) (hgroups k)
        exact (sublist_cons_self a l).filter _

end Distinct

end Grouped
