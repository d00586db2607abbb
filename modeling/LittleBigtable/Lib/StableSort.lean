import Mathlib.Data.List.Sort

/-!
# Stable descending sort by a key

A list of elements carrying a key from a linear order is sorted by descending
key, and elements with equal keys keep their relative order.

The central fact is that such a list is determined by two observations: it is
ordered, and for every key value the sublist of the elements with that key is
known.  Every law about sorting a concatenation, a filtered list or a mapped
list is derived from it.
-/

namespace StableSort

open List

universe u v w

variable {α : Type u} {κ : Type v} [LinearOrder κ]

/-- The list is ordered by descending key. -/
def Descending (key : α → κ) (l : List α) : Prop :=
  l.Pairwise (fun a b => key b ≤ key a)

/-- Stable sort by descending key. -/
def sortDesc (key : α → κ) (l : List α) : List α :=
  l.insertionSort (fun a b => key b ≤ key a)

/-- The elements of the list that carry the key `k`, in list order. -/
def fiber (key : α → κ) (k : κ) (l : List α) : List α :=
  l.filter (fun a => key a = k)

variable (key : α → κ)

@[simp] theorem sortDesc_nil :
    sortDesc key ([] : List α) = [] := by
  rfl

variable (k : κ) (l₁ l₂ l : List α)

@[simp] theorem fiber_append :
    fiber key k (l₁ ++ l₂) = fiber key k l₁ ++ fiber key k l₂ := by
  simp [fiber]

theorem descending_sortDesc :
    Descending key (sortDesc key l) := by
  have htotal : Std.Total (fun a b : α => key b ≤ key a) := ⟨fun a b => le_total (key b) (key a)⟩
  have htrans : IsTrans α (fun a b : α => key b ≤ key a) := ⟨fun _ _ _ hab hbc => le_trans hbc hab⟩
  exact pairwise_insertionSort _ l

theorem perm_sortDesc :
    (sortDesc key l).Perm l :=
  List.perm_insertionSort _ l

@[simp] theorem mem_sortDesc {a : α} {l : List α} :
    a ∈ sortDesc key l ↔ a ∈ l :=
  (perm_sortDesc key l).mem_iff

@[simp] theorem sortDesc_eq_nil_iff {l : List α} :
    sortDesc key l = [] ↔ l = [] := by
  constructor
  · intro h
    have hperm := perm_sortDesc key l
    rw [h] at hperm
    exact hperm.symm.eq_nil
  · rintro rfl
    rfl

theorem sortDesc_eq_self {l : List α} (h : Descending key l) :
    sortDesc key l = l :=
  List.Pairwise.insertionSort_eq h

/-- Inserting an element puts it in front of the other elements of its fiber. -/
theorem fiber_orderedInsert (a : α) (l : List α) :
    fiber key k (l.orderedInsert (fun x y => key y ≤ key x) a) = fiber key k (a :: l) := by
  induction l with
  | nil => rfl
  | cons b l ih =>
    rw [orderedInsert_cons]
    split_ifs with hba
    · rfl
    have hne : key a ≠ key b := by
      intro heq
      exact hba (le_of_eq heq.symm)
    simp only [fiber, filter_cons] at ih ⊢
    by_cases hb : key b = k
    · have ha : key a ≠ k := fun h => hne (h.trans hb.symm)
      simp_all
    · simp_all

@[simp] theorem fiber_sortDesc :
    fiber key k (sortDesc key l) = fiber key k l := by
  induction l with
  | nil => rfl
  | cons a l ih =>
    have hins := fiber_orderedInsert key k a (sortDesc key l)
    simp only [sortDesc, List.insertionSort_cons] at hins ih ⊢
    rw [hins]
    simp only [fiber, filter_cons] at ih ⊢
    rw [ih]

/-- Two descending lists with the same fibers are equal. -/
theorem eq_of_fibers_eq {l₁ l₂ : List α} (h₁ : Descending key l₁) (h₂ : Descending key l₂)
    (hfib : ∀ k, fiber key k l₁ = fiber key k l₂) :
    l₁ = l₂ := by
  induction l₁ generalizing l₂ with
  | nil =>
    cases l₂ with
    | nil => rfl
    | cons b l₂ =>
      have h := hfib (key b)
      simp [fiber] at h
  | cons a l₁ ih =>
    cases l₂ with
    | nil =>
      have h := hfib (key a)
      simp [fiber] at h
    | cons b l₂ =>
      obtain ⟨ha, htl₁⟩ := pairwise_cons.mp h₁
      obtain ⟨hb, htl₂⟩ := pairwise_cons.mp h₂
      -- the head of each list occurs in the other, so both keys are maximal
      have hab : key a ≤ key b := by
        have hmem : a ∈ fiber key (key a) (b :: l₂) := by
          rw [← hfib]
          simp [fiber]
        rcases mem_cons.mp (mem_of_mem_filter hmem) with rfl | hmem
        · exact le_refl _
        · exact hb a hmem
      have hba : key b ≤ key a := by
        have hmem : b ∈ fiber key (key b) (a :: l₁) := by
          rw [hfib]
          simp [fiber]
        rcases mem_cons.mp (mem_of_mem_filter hmem) with rfl | hmem
        · exact le_refl _
        · exact ha b hmem
      have hkey : key a = key b := le_antisymm hab hba
      have hhead := hfib (key a)
      simp only [fiber, filter_cons, hkey, decide_true, if_true, List.cons.injEq] at hhead
      obtain ⟨rfl, _⟩ := hhead
      have htail : l₁ = l₂ := by
        refine ih htl₁ htl₂ (fun k => ?_)
        have hk := hfib k
        simp only [fiber, filter_cons] at hk
        split_ifs at hk with hak
        · exact (List.cons.inj hk).2
        · exact hk
      rw [htail]

theorem sortDesc_congr {l₁ l₂ : List α} (hfib : ∀ k, fiber key k l₁ = fiber key k l₂) :
    sortDesc key l₁ = sortDesc key l₂ := by
  refine eq_of_fibers_eq key (descending_sortDesc key l₁) (descending_sortDesc key l₂) (fun k => ?_)
  rw [fiber_sortDesc, fiber_sortDesc, hfib]

@[simp] theorem sortDesc_append_sortDesc_left :
    sortDesc key (sortDesc key l₁ ++ l₂) = sortDesc key (l₁ ++ l₂) :=
  sortDesc_congr key (fun k => by simp)

@[simp] theorem sortDesc_append_sortDesc_right :
    sortDesc key (l₁ ++ sortDesc key l₂) = sortDesc key (l₁ ++ l₂) :=
  sortDesc_congr key (fun k => by simp)

theorem Descending.filter {key : α → κ} {l : List α} (h : Descending key l) (p : α → Bool) :
    Descending key (l.filter p) :=
  List.Pairwise.filter p h

theorem Descending.map {β : Type w} {key : α → κ} {key' : β → κ} {l : List α} (h : Descending key l)
    (f : α → β) (hf : ∀ a, key' (f a) = key a) :
    Descending key' (l.map f) := by
  refine pairwise_map.mpr (h.imp (fun {a b} hab => ?_))
  rw [hf, hf]
  exact hab

end StableSort
