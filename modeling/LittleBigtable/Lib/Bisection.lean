import Mathlib.Data.List.Sort

/-!
# Bisection

The first number with a property that all greater numbers have as well.  On a list it
finds the place behind which the elements have the property.
-/

namespace Bisection

open List

/-- Bisection of the numbers from `lo` to `hi` for the first one with `f`. -/
def search (f : Nat → Bool) (lo hi : Nat) : Nat :=
  if lo < hi then
    if f ((lo + hi) / 2) then search f lo ((lo + hi) / 2) else search f ((lo + hi) / 2 + 1) hi
  else
    lo
termination_by hi - lo

theorem search_eq {f : Nat → Bool} {lo hi p : Nat} (hf : ∀ i < hi, f i = decide (p ≤ i))
    (hlo : lo ≤ p) (hhi : p ≤ hi) :
    search f lo hi = p := by
  fun_induction search f lo hi with
  | case1 lo hi hlt hmid ih =>
    rw [hf _ (by omega), decide_eq_true_eq] at hmid
    exact ih (fun i hi => hf i (by omega)) hlo hmid
  | case2 lo hi hlt hmid ih =>
    rw [hf _ (by omega), decide_eq_true_eq] at hmid
    exact ih hf (by omega) hhi
  | case3 lo hi hle => omega

universe u

variable {α : Type u} {p : α → Bool} {l : List α}

/-- The elements with the property are those behind the place that is found. -/
theorem drop_search (h : l.Pairwise (fun a b => p a = true → p b = true)) :
    l.drop (search (fun i => l[i]?.any p) 0 l.length) = l.filter p := by
  obtain ⟨l₁, l₂, rfl, h₁, h₂⟩ : ∃ l₁ l₂, l = l₁ ++ l₂ ∧ (∀ a ∈ l₁, p a = false) ∧
      ∀ a ∈ l₂, p a = true := by
    induction l with
    | nil => exact ⟨[], [], rfl, by simp, by simp⟩
    | cons a l ih =>
      obtain ⟨hhead, htail⟩ := pairwise_cons.mp h
      cases ha : p a with
      | true => exact ⟨[], a :: l, rfl, by simp, by simpa [ha] using fun b hb => hhead b hb ha⟩
      | false =>
        obtain ⟨l₁, l₂, rfl, h₁, h₂⟩ := ih htail
        exact ⟨a :: l₁, l₂, rfl, by simpa [ha] using h₁, h₂⟩
  rw [search_eq (p := l₁.length) (fun i hi => ?_) (Nat.zero_le _) (by simp), drop_left,
    filter_append, filter_eq_nil_iff.mpr (by simpa using h₁),
    filter_eq_self.mpr h₂, nil_append]
  rw [getElem?_eq_getElem hi, Option.any_some]
  by_cases hcut : i < l₁.length
  · rw [getElem_append_left hcut, h₁ _ (getElem_mem hcut)]
    exact (decide_eq_false (by omega)).symm
  · rw [getElem_append_right (by omega), h₂ _ (getElem_mem _)]
    exact (decide_eq_true (by omega)).symm

end Bisection
