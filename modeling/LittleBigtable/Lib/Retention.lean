import Mathlib.Data.List.Infix

/-!
# Retention by position and value

A rule judges each element of a list by its position and its value.  On an ordered list,
a rule that retains what stands before, and above, anything it retains cuts off an end of
the list.  Cuts compose: a stricter rule does not see an earlier, weaker one.
-/

namespace Retention

open List

universe u

variable {α : Type u}

/-- The elements that are retained, the first one at position `i`. -/
def select (keep : Nat → α → Bool) : Nat → List α → List α
  | _, [] => []
  | i, a :: l => if keep i a then a :: select keep (i + 1) l else select keep (i + 1) l

/-- The elements in front of the first one that is not retained. -/
def cut (keep : Nat → α → Bool) : Nat → List α → List α
  | _, [] => []
  | i, a :: l => if keep i a then a :: cut keep (i + 1) l else []

/-- What stands before a retained element, and is above it, is retained. -/
def Closed (above : α → α → Prop) (keep : Nat → α → Bool) : Prop :=
  ∀ i j a b, i ≤ j → above a b → keep j b = true → keep i a = true

variable {above : α → α → Prop} {keep weaker : Nat → α → Bool}

theorem cut_isPrefix (i : Nat) (l : List α) :
    cut keep i l <+: l := by
  induction l generalizing i with
  | nil => exact prefix_refl []
  | cons a l ih =>
    rw [cut]
    split_ifs
    · exact cons_prefix_cons.mpr ⟨rfl, ih (i + 1)⟩
    · exact List.nil_prefix

theorem select_eq_nil (hkeep : Closed above keep) {i j : Nat} {a : α} {l : List α} (hij : i ≤ j)
    (hl : ∀ b ∈ l, above a b) (ha : ¬ keep i a = true) :
    select keep j l = [] := by
  induction l generalizing j with
  | nil => rfl
  | cons b l ih =>
    have hb : ¬ keep j b = true := fun hb => ha (hkeep i j a b hij (hl b mem_cons_self) hb)
    rw [select, if_neg hb]
    exact ih (by omega) (fun c hc => hl c (mem_cons_of_mem b hc))

theorem select_eq_cut (hkeep : Closed above keep) {l : List α} (hl : l.Pairwise above) (i : Nat) :
    select keep i l = cut keep i l := by
  induction l generalizing i with
  | nil => rfl
  | cons a l ih =>
    obtain ⟨ha, hl⟩ := pairwise_cons.mp hl
    rw [select, cut]
    split_ifs with hi
    · rw [ih hl]
    · exact select_eq_nil hkeep (Nat.le_succ i) ha hi

theorem cut_cut (h : ∀ i a, keep i a = true → weaker i a = true) (i : Nat) (l : List α) :
    cut keep i (cut weaker i l) = cut keep i l := by
  induction l generalizing i with
  | nil => rfl
  | cons a l ih =>
    by_cases hkeep : keep i a = true
    · simp [cut, hkeep, h i a hkeep, ih]
    · by_cases hweaker : weaker i a = true
      · simp [cut, hkeep, hweaker]
      · simp [cut, hkeep, hweaker]

end Retention
