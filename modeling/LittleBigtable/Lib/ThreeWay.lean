import Mathlib.Data.List.Basic
import Mathlib.Order.Basic

/-!
# Three-way comparisons of parts

Comparing values part by part gives an order as soon as comparing the parts does.  The laws
are stated of three results (`Chain`) and not of a whole type, since the parts of a value may
be compared only with parts of their own kind: what may stand at each place of a list is a
parameter.
-/

namespace ThreeWay

universe u v

section Chain

/-- The results of comparing `a` with `b`, `b` with `c` and `a` with `c` go together. -/
def Chain (ab bc ac : Ordering) : Prop :=
  ab ≠ .gt → bc ≠ .gt → ac = ab.then bc

variable {ab bc ac ab' bc' ac' : Ordering}

/-- Two comparisons, one after the other. -/
theorem Chain.then (h : Chain ab bc ac) (h' : Chain ab' bc' ac') :
    Chain (ab.then ab') (bc.then bc') (ac.then ac') := by
  intro hab hbc
  cases ab with
  | gt => exact absurd rfl hab
  | lt =>
    cases bc with
    | gt => exact absurd rfl hbc
    | lt | eq =>
      rw [h nofun nofun]
      rfl
  | eq =>
    cases bc with
    | gt => exact absurd rfl hbc
    | lt =>
      rw [h nofun nofun]
      cases ab' with
      | gt => exact absurd rfl hab
      | lt | eq => rfl
    | eq =>
      rw [h nofun nofun]
      exact h' hab hbc

theorem Chain.ne_gt (h : Chain ab bc ac) (hab : ab ≠ .gt) (hbc : bc ≠ .gt) :
    ac ≠ .gt := by
  rw [h hab hbc]
  cases ab with
  | gt => exact absurd rfl hab
  | lt => nofun
  | eq => exact hbc

/-- The comparison of an order. -/
theorem chain_compare {α : Type u} [Ord α] [Std.TransOrd α] (a b c : α) :
    Chain (compare a b) (compare b c) (compare a c) := by
  intro hab hbc
  cases hab' : compare a b with
  | gt => exact absurd hab' hab
  | lt =>
    cases hbc' : compare b c with
    | gt => exact absurd hbc' hbc
    | lt => exact Std.TransCmp.lt_trans hab' hbc'
    | eq => exact Std.TransCmp.lt_of_lt_of_eq hab' hbc'
  | eq =>
    cases hbc' : compare b c with
    | gt => exact absurd hbc' hbc
    | lt => exact Std.TransCmp.lt_of_eq_of_lt hab' hbc'
    | eq => exact Std.TransCmp.eq_trans hab' hbc'

end Chain

section Lists

variable {α : Type u} {γ : Type v}

/-- The elements of the list are what may stand at their places. -/
def Placed (T : Nat → α → Prop) (xs : List α) : Prop :=
  ∀ i x, xs[i]? = some x → T i x

theorem placed_cons_iff {T : Nat → α → Prop} {x : α} {xs : List α} :
    Placed T (x :: xs) ↔ T 0 x ∧ Placed (fun i => T (i + 1)) xs := by
  constructor
  · intro h
    exact ⟨h 0 x rfl, fun i y hy => h (i + 1) y hy⟩
  rintro ⟨hx, hxs⟩ i y hy
  cases i with
  | zero =>
    cases hy
    exact hx
  | succ i => exact hxs i y hy

theorem placed_of_forall_mem {P : α → Prop} {xs : List α} (h : ∀ x ∈ xs, P x) :
    Placed (fun _ => P) xs :=
  fun _ x hx => h x (List.mem_of_getElem? hx)

variable {cmp : α → α → Ordering} {T : Nat → α → Prop} {xs ys zs : List α}

theorem compareLex_chain
    (h : ∀ i x y z, T i x → T i y → T i z → Chain (cmp x y) (cmp y z) (cmp x z)) (hxs : Placed T xs)
    (hys : Placed T ys) (hzs : Placed T zs) :
    Chain (List.compareLex cmp xs ys) (List.compareLex cmp ys zs) (List.compareLex cmp xs zs) := by
  induction xs generalizing ys zs T with
  | nil =>
    cases ys with
    | nil =>
      intro _ _
      rfl
    | cons y ys =>
      cases zs with
      | nil =>
        intro _ hgt
        exact absurd rfl hgt
      | cons z zs =>
        intro _ _
        rfl
  | cons x xs ih =>
    cases ys with
    | nil =>
      intro hgt
      exact absurd rfl hgt
    | cons y ys =>
      cases zs with
      | nil =>
        intro _ hgt
        exact absurd rfl hgt
      | cons z zs =>
        obtain ⟨hx, hxs⟩ := placed_cons_iff.mp hxs
        obtain ⟨hy, hys⟩ := placed_cons_iff.mp hys
        obtain ⟨hz, hzs⟩ := placed_cons_iff.mp hzs
        simp only [List.compareLex_cons_cons]
        exact (h 0 x y z hx hy hz).then (ih (fun i => h (i + 1)) hxs hys hzs)

/-- Lists compare as equal if their elements do; `f` says when elements are the same. -/
theorem compareLex_eq_iff {f : α → γ} (h : ∀ i x y, T i x → T i y → (cmp x y = .eq ↔ f x = f y))
    (hxs : Placed T xs) (hys : Placed T ys) :
    List.compareLex cmp xs ys = .eq ↔ xs.map f = ys.map f := by
  induction xs generalizing ys T with
  | nil =>
    cases ys with
    | nil => exact ⟨fun _ => rfl, fun _ => rfl⟩
    | cons y ys => exact ⟨nofun, nofun⟩
  | cons x xs ih =>
    cases ys with
    | nil => exact ⟨nofun, nofun⟩
    | cons y ys =>
      obtain ⟨hx, hxs⟩ := placed_cons_iff.mp hxs
      obtain ⟨hy, hys⟩ := placed_cons_iff.mp hys
      rw [List.compareLex_cons_cons, Ordering.then_eq_eq, h 0 x y hx hy,
        ih (fun i => h (i + 1)) hxs hys, List.map_cons, List.map_cons, List.cons.injEq]

theorem length_eq_of_compareLex (h : List.compareLex cmp xs ys = .eq) :
    xs.length = ys.length := by
  induction xs generalizing ys with
  | nil =>
    cases ys with
    | nil => rfl
    | cons y ys => cases h
  | cons x xs ih =>
    cases ys with
    | nil => cases h
    | cons y ys =>
      rw [List.compareLex_cons_cons, Ordering.then_eq_eq] at h
      rw [List.length_cons, List.length_cons, ih h.2]

end Lists

end ThreeWay
