import Mathlib.Data.List.Basic
import Mathlib.Order.Lattice

/-!
# Cursors on an append-only log

A log is a list whose entries have increasing ids.  A cursor is an id; the entries
after the cursor are those with a larger one.  Reading the first of them and moving
the cursor to its id leaves the others.
-/

namespace Cursor

open List

universe u v

variable {α : Type u} {ι : Type v} [LinearOrder ι] (idOf : α → ι)

/-- The entries after the cursor. -/
def after (n : ι) (l : List α) : List α :=
  l.filter (fun a => decide (n < idOf a))

variable {idOf}

variable {n : ι} {l : List α} {a : α}

@[simp] theorem mem_after :
    a ∈ after idOf n l ↔ a ∈ l ∧ n < idOf a := by
  simp [after]

theorem after_sublist (n : ι) (l : List α) :
    (after idOf n l).Sublist l :=
  List.filter_sublist

theorem after_after {m : ι} (h : n ≤ m) (l : List α) :
    after idOf m (after idOf n l) = after idOf m l := by
  unfold after
  rw [filter_filter]
  refine filter_congr (fun a _ => ?_)
  by_cases hm : m < idOf a
  · simp [hm, lt_of_le_of_lt h hm]
  · simp [hm]

/-- Moving the cursor to the first entry after it drops this entry. -/
theorem after_of_cons {rest : List α} (hl : l.Pairwise (fun a b => idOf a < idOf b))
    (h : after idOf n l = a :: rest) :
    after idOf (idOf a) l = rest := by
  have ha : n < idOf a := by
    have hmem : a ∈ after idOf n l := by rw [h]; exact mem_cons_self
    exact (mem_after.mp hmem).2
  have hsorted : (after idOf n l).Pairwise (fun a b => idOf a < idOf b) :=
    hl.sublist (after_sublist n l)
  rw [h, pairwise_cons] at hsorted
  rw [← after_after ha.le, h]
  unfold after
  rw [filter_cons_of_neg (by simp), filter_eq_self]
  intro b hb
  simpa using hsorted.1 b hb

theorem after_prefix {l' : List α} (h : l <+: l') (n : ι) :
    after idOf n l <+: after idOf n l' := by
  obtain ⟨later, rfl⟩ := h
  unfold after
  rw [filter_append]
  exact prefix_append _ _

/-- Where times do not decrease along the log, the entry with the smaller time has
the smaller id. -/
theorem id_lt_of_time_lt {τ : Type v} [LinearOrder τ] {timeOf : α → τ}
    (hids : l.Pairwise (fun a b => idOf a < idOf b))
    (htimes : l.Pairwise (fun a b => timeOf a ≤ timeOf b)) {b : α} (ha : a ∈ l) (hb : b ∈ l)
    (h : timeOf a < timeOf b) :
    idOf a < idOf b := by
  induction l with
  | nil => cases ha
  | cons x l ih =>
    obtain ⟨hids₀, hids⟩ := pairwise_cons.mp hids
    obtain ⟨htimes₀, htimes⟩ := pairwise_cons.mp htimes
    rcases mem_cons.mp ha with rfl | ha'
    · rcases mem_cons.mp hb with rfl | hb'
      · exact absurd h (lt_irrefl _)
      · exact hids₀ b hb'
    · rcases mem_cons.mp hb with rfl | hb'
      · exact absurd h (not_lt_of_ge (htimes₀ a ha'))
      · exact ih hids htimes ha' hb'

end Cursor
