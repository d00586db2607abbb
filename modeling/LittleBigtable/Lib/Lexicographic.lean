import Mathlib.Data.List.Basic

/-!
# Immediate successors in the lexicographic order of lists

Over an alphabet with a least letter `z`, appending `z` to a list `s` gives the
immediate lexicographic successor of `s`.  A strict bound at `s` is therefore
the same as a non-strict bound at `s ++ [z]`, which is how half-open intervals
express open lower ends and closed upper ends.

Two lists that differ before either ends keep their order whatever is appended to
them; a list comes before another one in no other way than that, or as a proper
initial segment of it.
-/

namespace Lexicographic

open Std List

universe u

variable {α : Type u} [LE α] [LT α] [Std.IsLinearOrder α] [LawfulOrderLT α]

/-- The lists below the successor of `s` are the lists up to `s`. -/
theorem lt_append_least_iff {z : α} (hz : ∀ a : α, z ≤ a) (s k : List α) :
    k < s ++ [z] ↔ k ≤ s := by
  induction s generalizing k with
  | nil =>
    cases k with
    | nil => simp
    | cons a k =>
      have hnot : ¬ a < z := by
        rw [Std.not_lt]
        exact hz a
      simp [cons_lt_cons_iff, hnot]
  | cons b s ih =>
    cases k with
    | nil => simp
    | cons a k => simp only [cons_append, cons_lt_cons_iff, cons_le_cons_iff, ih]

/-- The lists from the successor of `s` on are the lists above `s`. -/
theorem append_least_le_iff {z : α} (hz : ∀ a : α, z ≤ a) (s k : List α) :
    s ++ [z] ≤ k ↔ s < k := by
  rw [← Std.not_lt, lt_append_least_iff hz, Std.not_le]

omit [Std.IsLinearOrder α] in
theorem compare_eq_lt_iff [Ord α] [LawfulOrderOrd α] [LawfulEqOrd α]
    (s t : List α) :
    compare s t = .lt ↔ s < t := by
  induction s generalizing t with
  | nil => cases t <;> simp
  | cons a s ih =>
    cases t with
    | nil => simp
    | cons b t =>
      rw [List.compare_cons_cons, Ordering.then_eq_lt, ih,
        Std.compare_eq_lt, Std.compare_eq_iff_eq, List.cons_lt_cons_iff]

/-- The comparison of lists agrees with their order. -/
instance instLawfulOrderOrdList [Ord α] [LawfulOrderOrd α] [LawfulEqOrd α] [TransOrd α] :
    LawfulOrderOrd (List α) where
  isLE_compare s t := by
    rw [← Std.not_lt, ← compare_eq_lt_iff, ← Std.OrientedCmp.gt_iff_lt]
    cases compare s t <;> simp
  isGE_compare s t := by
    rw [← Std.not_lt, ← compare_eq_lt_iff]
    cases compare s t <;> simp

theorem compare_congr {α : Type} [Ord α] [LT α] [LE α]
    [LawfulOrderLT α] [LawfulOrderOrd α] [LawfulEqOrd α]
    {β : Type} [Ord β] [LT β] [LE β]
    [LawfulOrderLT β] [LawfulOrderOrd β] [LawfulEqOrd β]
    {a b : α}
    {a' b' : β}
    (hlt : a < b → a' < b')
    (heq : a = b → a' = b')
    (hgt : b < a → b' < a') :
    compare a' b' = compare a b := by
  cases h : compare a b with
  | lt => exact Std.compare_eq_lt.mpr (hlt (Std.compare_eq_lt.mp h))
  | eq => exact Std.compare_eq_iff_eq.mpr (heq (Std.compare_eq_iff_eq.mp h))
  | gt => exact Std.compare_eq_gt.mpr (hgt (Std.compare_eq_gt.mp h))

section FirstDifference

/-- The lists differ before either ends, and the first difference is in order. -/
def Before (s t : List α) : Prop :=
  ∃ p x y u v, s = p ++ x :: u ∧ t = p ++ y :: v ∧ x < y

omit [LE α] [Std.IsLinearOrder α] [LawfulOrderLT α] in
theorem Before.append {s t : List α} (h : Before s t) (s' t' : List α) :
    Before (s ++ s') (t ++ t') := by
  obtain ⟨p, x, y, u, v, rfl, rfl, hlt⟩ := h
  exact ⟨p, x, y, u ++ s', v ++ t', by simp, by simp, hlt⟩

omit [LE α] [Std.IsLinearOrder α] [LawfulOrderLT α] in
theorem Before.prepend {s t : List α} (p : List α) (h : Before s t) :
    Before (p ++ s) (p ++ t) := by
  obtain ⟨q, x, y, u, v, rfl, rfl, hlt⟩ := h
  exact ⟨p ++ q, x, y, u, v, by simp, by simp, hlt⟩

omit [LE α] [Std.IsLinearOrder α] [LawfulOrderLT α] in
theorem Before.map_antitone {f : α → α} (hf : ∀ x y, x < y → f y < f x) {s t : List α}
    (h : Before s t) :
    Before (t.map f) (s.map f) := by
  obtain ⟨p, x, y, u, v, rfl, rfl, hlt⟩ := h
  exact ⟨p.map f, f y, f x, v.map f, u.map f, by simp, by simp, hf x y hlt⟩

omit [Std.IsLinearOrder α] in
theorem append_lt_append_iff {p s t : List α} :
    p ++ s < p ++ t ↔ s < t := by
  induction p with
  | nil => rfl
  | cons a p ih => simp [ih]

omit [Std.IsLinearOrder α] in
theorem Before.lt {s t : List α} (h : Before s t) :
    s < t := by
  obtain ⟨p, x, y, u, v, rfl, rfl, hlt⟩ := h
  rw [append_lt_append_iff, cons_lt_cons_iff]
  exact .inl hlt

omit [LE α] [Std.IsLinearOrder α] [LawfulOrderLT α] in
/-- A smaller list differs in order, or ends first. -/
theorem before_or_append_of_lt {s t : List α} (h : s < t) :
    Before s t ∨ ∃ y v, t = s ++ y :: v := by
  induction s generalizing t with
  | nil =>
    cases t with
    | nil => simp at h
    | cons y v => exact .inr ⟨y, v, rfl⟩
  | cons a s ih =>
    cases t with
    | nil => simp at h
    | cons b t =>
      rcases cons_lt_cons_iff.mp h with hlt | ⟨rfl, hlt⟩
      · exact .inl ⟨[], a, b, s, t, rfl, rfl, hlt⟩
      · rcases ih hlt with hbefore | ⟨y, v, rfl⟩
        · exact .inl (hbefore.prepend [a])
        · exact .inr ⟨y, v, rfl⟩

end FirstDifference

section Extensions

variable [DecidableEq α] {top : α} {next : α → α}

/-- The end of the extensions of a list, both written backwards: the greatest letters are cut
and the letter before them is replaced by the next one.  Without such a letter it is empty. -/
def stopBehind (top : α) (next : α → α) (q : List α) : List α :=
  match q.dropWhile (fun a => decide (a = top)) with
  | [] => []
  | a :: r => next a :: r

omit [DecidableEq α] in
/-- The lists from `r ++ [a]` up to the next letter in the place of `a` are its extensions. -/
theorem between_iff_isPrefix {a b : α} (hb : ∀ x, x < b ↔ x ≤ a) (r k : List α) :
    r ++ [a] ≤ k ∧ k < r ++ [b] ↔ r ++ [a] <+: k := by
  induction r generalizing k with
  | nil =>
    cases k with
    | nil => simp
    | cons c k =>
      simp only [nil_append, cons_le_cons_iff, cons_lt_cons_iff, nil_le,
        and_true, List.not_lt_nil, and_false, or_false, hb, cons_prefix_cons, nil_prefix]
      exact ⟨fun ⟨h, hle⟩ => h.resolve_left (Std.not_lt.mpr hle),
        fun h => ⟨.inr h, h ▸ Std.le_refl _⟩⟩
  | cons c r ih =>
    cases k with
    | nil => simp
    | cons d k =>
      simp only [cons_append, cons_le_cons_iff, cons_lt_cons_iff,
        cons_prefix_cons, ← ih]
      constructor
      · rintro ⟨hlt | ⟨rfl, hle⟩, hlt'⟩
        · rcases hlt' with hlt' | ⟨rfl, _⟩
          · exact absurd (Std.lt_trans hlt hlt') Std.lt_irrefl
          · exact absurd hlt Std.lt_irrefl
        · exact ⟨rfl, hle, (hlt'.resolve_left Std.lt_irrefl).2⟩
      · rintro ⟨rfl, hle, hlt⟩
        exact ⟨.inr ⟨rfl, hle⟩, .inr ⟨rfl, hlt⟩⟩

/-- A list extends `q.reverse` exactly if it lies between it and its end. -/
theorem isPrefix_iff_between (htop : ∀ a, a ≤ top)
    (hnext : ∀ a, a ≠ top → ∀ x, x < next a ↔ x ≤ a) (q k : List α) :
    q.reverse <+: k ↔
      q.reverse ≤ k ∧ (stopBehind top next q = [] ∨ k < (stopBehind top next q).reverse) := by
  induction q generalizing k with
  | nil => simp [stopBehind]
  | cons a q ih =>
    rw [reverse_cons]
    by_cases ha : a = top
    · have hstop : stopBehind top next (a :: q) = stopBehind top next q := by
        simp [stopBehind, ha]
      have hlast : ∀ t, [a] ≤ t ↔ [a] <+: t := by
        intro t
        cases t with
        | nil => simp
        | cons b t =>
          have hnot : ¬ a < b := Std.not_lt.mpr (ha ▸ htop b)
          simp [cons_le_cons_iff, hnot]
      rw [hstop]
      constructor
      · intro h
        exact ⟨h.le, ((ih k).mp ((prefix_append _ _).trans h)).2⟩
      rintro ⟨hle, hstop⟩
      obtain ⟨t, rfl⟩ := (ih k).mpr ⟨Std.le_trans (prefix_append _ _).le hle, hstop⟩
      rw [prefix_append_right_inj, ← hlast, ← Std.not_lt,
        ← append_lt_append_iff, Std.not_lt]
      exact hle
    · have hstop : stopBehind top next (a :: q) = next a :: q := by
        simp [stopBehind, ha]
      rw [hstop, reverse_cons, ← between_iff_isPrefix (hnext a ha)]
      simp

theorem bytes_isPrefix_iff_between (p k : List UInt8) :
    p <+: k ↔ p ≤ k ∧
      (stopBehind 0xff (· + 1) p.reverse = [] ∨ k < (stopBehind 0xff (· + 1) p.reverse).reverse) := by
  have htop : ∀ a : UInt8, a ≤ 0xff := fun a =>
    UInt8.le_iff_toNat_le.mpr (Nat.le_of_lt_succ a.toNat_lt)
  have hnext : ∀ a : UInt8, a ≠ 0xff → ∀ x, x < a + 1 ↔ x ≤ a := by
    intro a ha x
    have hne : a.toNat ≠ 255 := fun h => ha (UInt8.toNat_inj.mp h)
    have hlt := a.toNat_lt
    have hadd : (a + 1).toNat = a.toNat + 1 := by
      rw [UInt8.toNat_add]
      exact Nat.mod_eq_of_lt (by simp; omega)
    rw [UInt8.lt_iff_toNat_lt, UInt8.le_iff_toNat_le, hadd, Nat.lt_succ_iff]
  simpa using isPrefix_iff_between htop hnext p.reverse k

end Extensions

end Lexicographic
