import Mathlib.Data.List.Infix

/-!
# Cutting lists at a delimiter

A list is cut at the first, or at the last, occurrence of a delimiter in one way
only.  The same holds for a word between two delimiters.
-/

namespace Segments

open List

universe u

variable {α : Type u} {c : α}

variable {a b x y : List α}

/-- The part before the first delimiter and the part behind it are unique. -/
theorem cut_first (ha : c ∉ a) (hb : c ∉ b) (h : a ++ c :: x = b ++ c :: y) :
    a = b ∧ x = y := by
  induction a generalizing b with
  | nil =>
    cases b with
    | nil => exact ⟨rfl, (List.cons.inj h).2⟩
    | cons d b => exact absurd (List.cons.inj h).1 (fun heq => hb (by simp [heq]))
  | cons d a ih =>
    cases b with
    | nil => exact absurd (List.cons.inj h).1 (fun heq => ha (by simp [heq]))
    | cons e b =>
      obtain ⟨hhead, htail⟩ := List.cons.inj h
      obtain ⟨hab, hxy⟩ := ih (fun hc => ha (mem_cons_of_mem d hc))
        (fun hc => hb (mem_cons_of_mem e hc)) htail
      exact ⟨by rw [hhead, hab], hxy⟩

theorem cut_last (ha : c ∉ a) (hb : c ∉ b) (h : x ++ c :: a = y ++ c :: b) :
    x = y ∧ a = b := by
  have hreverse : a.reverse ++ c :: x.reverse = b.reverse ++ c :: y.reverse := by
    simpa using congrArg reverse h
  obtain ⟨hab, hxy⟩ := cut_first (by simpa using ha) (by simpa using hb) hreverse
  exact ⟨reverse_injective hxy, reverse_injective hab⟩

theorem cut_prefix (ha : c ∉ a) (hb : c ∉ b) (h : a ++ c :: x <+: b ++ c :: y) :
    a = b ∧ x <+: y := by
  obtain ⟨z, hz⟩ := h
  rw [append_assoc, cons_append] at hz
  obtain ⟨hab, hxy⟩ := cut_first ha hb hz
  exact ⟨hab, z, hxy⟩

/-- A word between two delimiters that occurs again `r` later also occurs in `r` and a
delimiter. -/
theorem word_prefix_of_shift {u r : List α} (hu : c ∉ u) (hr : r ≠ [])
    (h : c :: u ++ c :: x = r ++ (c :: u ++ c :: y)) :
    c :: u ++ [c] <+: r ++ [c] := by
  cases r with
  | nil => exact absurd rfl hr
  | cons d r =>
    simp only [cons_append] at h ⊢
    obtain ⟨hhead, htail⟩ := List.cons.inj h
    subst hhead
    refine (prefix_cons_inj c).mpr ?_
    by_cases hmem : c ∈ r
    · obtain ⟨v, w, rfl, hv⟩ := eq_append_cons_of_mem hmem
      rw [append_assoc, cons_append] at htail
      obtain ⟨rfl, _⟩ := cut_first hu hv htail
      exact ⟨w ++ [c], by simp⟩
    · obtain ⟨rfl, _⟩ := cut_first hu hmem htail
      exact prefix_refl _

/-- The part before the first word between two delimiters is unique. -/
theorem cut_word {u p q : List α} (hu : c ∉ u) (hp : ¬ c :: u ++ [c] <:+: p ++ [c])
    (hq : ¬ c :: u ++ [c] <:+: q ++ [c]) (h : p ++ (c :: u ++ c :: x) = q ++ (c :: u ++ c :: y)) :
    p = q ∧ x = y := by
  have hshift : ∀ {p q x y : List α}, ¬ c :: u ++ [c] <:+: q ++ [c] →
      p ++ (c :: u ++ c :: x) = q ++ (c :: u ++ c :: y) → ∀ r, q = p ++ r → r = [] := by
    rintro p q x y hq h r rfl
    by_contra hr
    rw [append_assoc] at h
    have hword := word_prefix_of_shift hu hr (append_cancel_left h)
    rw [append_assoc] at hq
    exact hq (hword.isInfix.trans (suffix_append p _).isInfix)
  rcases append_eq_append_iff.mp h with ⟨r, hr, _⟩ | ⟨r, hr, _⟩
  · have hnil := hshift hq h r hr
    subst hnil
    rw [append_nil] at hr
    subst hr
    simpa using h
  · have hnil := hshift hp h.symm r hr
    subst hnil
    rw [append_nil] at hr
    subst hr
    simpa using h

end Segments
