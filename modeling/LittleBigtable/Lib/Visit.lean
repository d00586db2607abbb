import Mathlib.Data.List.Basic

/-!
# Visits that can be stopped

A callback takes a state and an element; it fails, or it returns a state and whether to
go on.  `visit` hands the elements of a list to it until it fails or stops.

Visits of several lists one after the other are one visit of the lists together
(`visit_flatMap`).  Elements at which the callback does nothing can be left out of a
visit that does not fail (`visit_filter`).  So can the elements that the callback itself
passes over in the state that the visit reaches in front of them (`visit_survivors`).
-/

namespace Visit

open List

universe u v w

variable {σ : Type u} {ε : Type v} {β : Type w}

/-- The callback on the elements in order, until it fails or stops. -/
def visit (step : σ → β → Except ε (σ × Bool)) : σ → List β → Except ε (σ × Bool)
  | s, [] => .ok (s, true)
  | s, b :: l =>
    match step s b with
    | .error e => .error e
    | .ok (s', true) => visit step s' l
    | .ok (s', false) => .ok (s', false)

variable (step : σ → β → Except ε (σ × Bool)) (s : σ)

theorem visit_cons (b : β) (l : List β) :
    visit step s (b :: l) =
      match step s b with
      | .error e => .error e
      | .ok (s', true) => visit step s' l
      | .ok (s', false) => .ok (s', false) :=
  rfl

theorem visit_append (l m : List β) :
    visit step s (l ++ m) =
      match visit step s l with
      | .error e => .error e
      | .ok (s', true) => visit step s' m
      | .ok (s', false) => .ok (s', false) := by
  induction l generalizing s with
  | nil => rfl
  | cons b l ih =>
    rw [cons_append, visit_cons, visit_cons]
    match step s b with
    | .error e => rfl
    | .ok (s', true) => exact ih s'
    | .ok (s', false) => rfl

/-- **The visits of several lists are one visit.** -/
theorem visit_flatMap {γ : Type w} (f : γ → List β) (s : σ) (rs : List γ) :
    visit (fun s r => visit step s (f r)) s rs = visit step s (rs.flatMap f) := by
  induction rs generalizing s with
  | nil => rfl
  | cons r rs ih =>
    rw [flatMap_cons, visit_append, visit_cons]
    match visit step s (f r) with
    | .error e => rfl
    | .ok (s', true) => exact ih s'
    | .ok (s', false) => rfl

/-- **What the callback passes over can be left out.** -/
theorem visit_filter {step : σ → β → Except ε (σ × Bool)} {p : β → Bool} {l : List β}
    (hp : ∀ b ∈ l, p b = false → ∀ s s' more, step s b = .ok (s', more) → s' = s ∧ more = true)
    {s : σ} {r : σ × Bool} (h : visit step s l = .ok r) :
    visit step s (l.filter p) = .ok r := by
  induction l generalizing s with
  | nil => exact h
  | cons b l ih =>
    obtain ⟨hb, hl⟩ := forall_mem_cons.mp hp
    rw [visit_cons] at h
    rw [filter_cons]
    match hstep : step s b with
    | .error e =>
      rw [hstep] at h
      cases h
    | .ok (s', more) =>
      rw [hstep] at h
      by_cases hpb : p b = true
      · rw [if_pos hpb, visit_cons, hstep]
        cases more with
        | true => exact ih hl h
        | false => exact h
      · obtain ⟨rfl, rfl⟩ := hb (by simpa using hpb) s s' more hstep
        rw [if_neg hpb]
        exact ih hl h

/-- The visit of the list hands this element to the callback in this state. -/
def Reaches (step : σ → β → Except ε (σ × Bool)) (s : σ) (l : List β) (s' : σ) (b : β) : Prop :=
  ∃ done rest, l = done ++ b :: rest ∧ visit step s done = .ok (s', true)

theorem reaches_head (b : β) (l : List β) :
    Reaches step s (b :: l) s b :=
  ⟨[], l, rfl, rfl⟩

theorem Reaches.cons {step : σ → β → Except ε (σ × Bool)} {s s₁ s' : σ} {b b' : β} {l : List β}
    (h : Reaches step s₁ l s' b') (hstep : step s b = .ok (s₁, true)) :
    Reaches step s (b :: l) s' b' := by
  obtain ⟨done, rest, rfl, hdone⟩ := h
  refine ⟨b :: done, rest, rfl, ?_⟩
  rw [visit_cons, hstep]
  exact hdone

/-- The elements that are not marked in the state in which they are visited. -/
def survivors (step : σ → β → Except ε (σ × Bool)) (marked : σ → β → Bool) : σ → List β → List β
  | _, [] => []
  | s, b :: l =>
    let rest :=
      match step s b with
      | .ok (s', true) => survivors step marked s' l
      | _ => l
    if marked s b then rest else b :: rest

/-- **Marked elements that the callback passes over can be left out.** -/
theorem visit_survivors {step : σ → β → Except ε (σ × Bool)} {marked : σ → β → Bool} {s : σ}
    {l : List β}
    (h : ∀ s' b, Reaches step s l s' b → marked s' b = true → step s' b = .ok (s', true)) :
    visit step s (survivors step marked s l) = visit step s l := by
  induction l generalizing s with
  | nil => rfl
  | cons b l ih =>
    rw [visit_cons, survivors]
    by_cases hmarked : marked s b = true
    · have hstep := h s b (reaches_head step s b l) hmarked
      rw [if_pos hmarked, hstep]
      exact ih fun s' b' hreaches => h s' b' (hreaches.cons hstep)
    rw [if_neg hmarked, visit_cons]
    match hstep : step s b with
    | .error e => rfl
    | .ok (s₁, true) => exact ih fun s' b' hreaches => h s' b' (hreaches.cons hstep)
    | .ok (s₁, false) => rfl

end Visit
