import LittleBigtable.Lib.StableSort

/-!
# Strictly descending lists as finite maps

A list whose keys are strictly descending holds at most one element for each
key, so it is determined by its lookups.  Replacing, adding and filtering
elements are described by what they do to the lookups.
-/

namespace StrictDescending

open StableSort List

universe u v

variable {α : Type u} {κ : Type v} [LinearOrder κ]

/-- The keys of the list are strictly descending. -/
def StrictDesc (key : α → κ) (l : List α) : Prop :=
  l.Pairwise (fun a b => key b < key a)

/-- The first element of the list with the key `k`. -/
def lookup (key : α → κ) (k : κ) (l : List α) : Option α :=
  l.find? (fun a => key a = k)

variable {key : α → κ}

variable {l : List α} {a : α}

theorem StrictDesc.descending (h : StrictDesc key l) :
    Descending key l :=
  h.imp (fun hab => le_of_lt hab)

theorem StrictDesc.sublist {l' : List α} (h : StrictDesc key l) (hsub : l'.Sublist l) :
    StrictDesc key l' :=
  List.Pairwise.sublist hsub h

/-- In a strictly descending list, the elements are the successful lookups. -/
theorem StrictDesc.lookup_eq_some_iff (h : StrictDesc key l) {k : κ} :
    lookup key k l = some a ↔ a ∈ l ∧ key a = k := by
  induction l with
  | nil => simp [lookup]
  | cons b l ih =>
    obtain ⟨hb, hl⟩ := pairwise_cons.mp h
    have ih' := ih hl
    unfold lookup at ih' ⊢
    rw [List.find?_cons]
    by_cases hk : key b = k
    · simp only [hk, decide_true, Option.some.injEq, mem_cons]
      constructor
      · rintro rfl
        exact ⟨.inl rfl, hk⟩
      rintro ⟨rfl | hmem, hak⟩
      · rfl
      · have hlt := hb a hmem
        rw [hak, hk] at hlt
        exact absurd hlt (lt_irrefl _)
    · simp only [hk, decide_false, mem_cons]
      rw [ih']
      constructor
      · rintro ⟨hmem, hak⟩
        exact ⟨.inr hmem, hak⟩
      · rintro ⟨rfl | hmem, hak⟩
        · exact absurd hak hk
        · exact ⟨hmem, hak⟩

theorem lookup_eq_none_iff {k : κ} :
    lookup key k l = none ↔ ∀ a ∈ l, key a ≠ k := by
  simp [lookup]

/-- A fiber of a strictly descending list holds the looked up element only. -/
theorem StrictDesc.fiber_eq (h : StrictDesc key l) (k : κ) :
    fiber key k l = (lookup key k l).toList := by
  induction l with
  | nil => rfl
  | cons b l ih =>
    obtain ⟨hb, hl⟩ := pairwise_cons.mp h
    have ih' := ih hl
    unfold lookup fiber at ih' ⊢
    rw [List.find?_cons, filter_cons]
    by_cases hk : key b = k
    · have hnil : l.filter (fun a => decide (key a = k)) = [] := by
        rw [filter_eq_nil_iff]
        intro a ha hak
        have hlt := hb a ha
        rw [of_decide_eq_true hak, hk] at hlt
        exact lt_irrefl _ hlt
      simp [hk, hnil]
    · simp [hk, ih']

theorem StrictDesc.ext {l₁ l₂ : List α} (h₁ : StrictDesc key l₁) (h₂ : StrictDesc key l₂)
    (h : ∀ k, lookup key k l₁ = lookup key k l₂) :
    l₁ = l₂ :=
  eq_of_fibers_eq key h₁.descending h₂.descending (fun k => by
    rw [h₁.fiber_eq, h₂.fiber_eq, h])

/-- Sorting in an element with a new key. -/
theorem StrictDesc.sortDesc_append (h : StrictDesc key l) (hnew : ∀ b ∈ l, key b ≠ key a) :
    StrictDesc key (sortDesc key (l ++ [a])) := by
  have hdesc := descending_sortDesc key (l ++ [a])
  have hne : (sortDesc key (l ++ [a])).Pairwise (fun x y => key x ≠ key y) := by
    refine ((perm_sortDesc key (l ++ [a])).pairwise_iff (fun hxy => Ne.symm hxy)).mpr ?_
    rw [pairwise_append]
    refine ⟨h.imp (fun hxy => (ne_of_lt hxy).symm), pairwise_singleton _ _, ?_⟩
    intro b hb c hc
    rw [mem_singleton] at hc
    subst hc
    exact hnew b hb
  exact (hdesc.and hne).imp (fun {x y} hxy =>
    lt_of_le_of_ne hxy.1 (Ne.symm hxy.2))

/-- Lookups after sorting in an element with a new key. -/
theorem StrictDesc.lookup_sortDesc_append (h : StrictDesc key l) (hnew : ∀ b ∈ l, key b ≠ key a)
    (k : κ) :
    lookup key k (sortDesc key (l ++ [a])) =
      if key a = k then some a else lookup key k l := by
  refine Option.ext (fun b => ?_)
  rw [(h.sortDesc_append hnew).lookup_eq_some_iff]
  simp only [mem_sortDesc, mem_append, mem_singleton]
  split_ifs with hk
  · constructor
    · rintro ⟨hmem | rfl, hbk⟩
      · exact absurd (hbk.trans hk.symm) (hnew b hmem)
      · rfl
    · intro hab
      cases hab
      exact ⟨.inr rfl, hk⟩
  · rw [h.lookup_eq_some_iff]
    constructor
    · rintro ⟨hmem | rfl, hbk⟩
      · exact ⟨hmem, hbk⟩
      · exact absurd hbk hk
    · rintro ⟨hmem, hbk⟩
      exact ⟨.inl hmem, hbk⟩

theorem StrictDesc.lookup_filter (h : StrictDesc key l) (p : α → Bool) (k : κ) :
    lookup key k (l.filter p) = (lookup key k l).filter p := by
  refine Option.ext (fun b => ?_)
  rw [(h.sublist filter_sublist).lookup_eq_some_iff, mem_filter,
    Option.filter_eq_some_iff, h.lookup_eq_some_iff]
  constructor
  · rintro ⟨⟨hmem, hp⟩, hk⟩
    exact ⟨⟨hmem, hk⟩, hp⟩
  · rintro ⟨⟨hmem, hk⟩, hp⟩
    exact ⟨⟨hmem, hp⟩, hk⟩

end StrictDescending
