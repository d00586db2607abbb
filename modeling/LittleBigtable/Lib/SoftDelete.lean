import Mathlib.Logic.Function.Basic
import Mathlib.Order.Lattice

/-!
# Keys whose values can be deleted and brought back

A store has at most one live value for a key and any number of deleted ones, each
under the time of its deletion.  A value is deleted at a time later than the deleted
values of its key; the latest of these can be brought back while nothing is live; and
deleted values are purged, older ones first.

Bringing a key back yields the value that it had when it was last deleted, whatever
happened since.
-/

namespace SoftDelete

universe u v w

variable {K : Type u} {V : Type v} {T : Type w}

@[ext] structure State (K : Type u) (V : Type v) (T : Type w) where
  live : K → Option V
  dead : K → T → Option V

/-- What a step does, as far as it is visible from outside. -/
inductive Event (K : Type u)
  | delete (k : K)
  | undelete (k : K)
  | other

variable [LinearOrder T]

/-- The key was last deleted at `t`, with the value `v`.  The value is still there, or
it was brought back or purged; then nothing is left to bring back or something is
live. -/
structure LastDeleted (σ : State K V T) (k : K) (t : T) (v : V) : Prop where
  latest : ∀ t', σ.dead k t' ≠ none → t' ≤ t
  value : ∀ v', σ.dead k t = some v' → v' = v
  gone : σ.dead k t = none → σ.live k = none → ∀ t', σ.dead k t' = none

variable {σ σ' : State K V T} {k : K} {t : T} {v : V}

theorem LastDeleted.of_eq (h : LastDeleted σ k t v) (hlive : σ'.live k = σ.live k)
    (hdead : σ'.dead k = σ.dead k) :
    LastDeleted σ' k t v := by
  refine ⟨?_, ?_, ?_⟩
  · rw [hdead]
    exact h.latest
  · rw [hdead]
    exact h.value
  · rw [hdead, hlive]
    exact h.gone

variable [DecidableEq K]

theorem update_update_of_ne (f : K → T → Option V) {k k' : K} {t t' : T} (value : Option V)
    (h : k' = k → t' ≠ t) :
    Function.update f k (Function.update (f k) t value) k' t' = f k' t' := by
  by_cases hk : k' = k
  · subst hk
    rw [Function.update_self, Function.update_of_ne (h rfl)]
  · rw [Function.update_of_ne hk]

inductive Step (σ : State K V T) : Event K → State K V T → Prop
  | skip : Step σ .other σ
  | put (k : K) (v : V) : Step σ .other { σ with live := Function.update σ.live k (some v) }
  | delete
      (k : K) (t : T) (v : V)
      (hlive : σ.live k = some v)
      (hlater : ∀ t', σ.dead k t' ≠ none → t' < t) :
      Step σ (.delete k)
        ⟨Function.update σ.live k none,
          Function.update σ.dead k (Function.update (σ.dead k) t (some v))⟩
  | undelete
      (k : K) (t : T) (v : V)
      (hlive : σ.live k = none)
      (hdead : σ.dead k t = some v)
      (hlatest : ∀ t', σ.dead k t' ≠ none → t' ≤ t) :
      Step σ (.undelete k)
        ⟨Function.update σ.live k (some v),
          Function.update σ.dead k (Function.update (σ.dead k) t none)⟩
  | purge
      (dead : K → T → Option V)
      (hkept : ∀ k t, dead k t = σ.dead k t ∨ dead k t = none)
      (holder : ∀ k t t', t' ≤ t → σ.dead k t ≠ none → dead k t = none → dead k t' = none) :
      Step σ .other { σ with dead := dead }

/-- Without a deletion of the key there is nothing to bring back. -/
theorem Step.dead_none {e : Event K} (h : Step σ e σ') (hnone : ∀ t, σ.dead k t = none)
    (he : e ≠ .delete k) (t : T) :
    σ'.dead k t = none := by
  cases h with
  | skip | put => exact hnone t
  | delete k' t' v' hlive hlater =>
    have hk : k ≠ k' := fun heq => he (by rw [heq])
    dsimp only
    rw [Function.update_of_ne hk]
    exact hnone t
  | undelete k' t' v' hlive hdead hlatest =>
    dsimp only
    by_cases hk : k = k'
    · subst hk
      rw [hnone t'] at hdead
      cases hdead
    · rw [Function.update_of_ne hk]
      exact hnone t
  | purge dead hkept holder =>
    rcases hkept k t with heq | heq
    · exact heq.trans (hnone t)
    · exact heq

theorem Step.exists_dead (h : Step σ (.undelete k) σ') :
    ∃ t, σ.dead k t ≠ none := by
  cases h with
  | undelete _ t v hlive hdead hlatest => exact ⟨t, by simp [hdead]⟩

theorem lastDeleted_of_delete (h : Step σ (.delete k) σ') :
    ∃ t v, σ.live k = some v ∧ LastDeleted σ' k t v := by
  cases h with
  | delete _ t v hlive hlater =>
    refine ⟨t, v, hlive, fun t' ht' => ?_, fun v' hv' => ?_, fun hnone _ => ?_⟩
    · simp only [Function.update_self] at ht'
      by_cases heq : t' = t
      · exact le_of_eq heq
      · rw [Function.update_of_ne heq] at ht'
        exact le_of_lt (hlater t' ht')
    · simp only [Function.update_self] at hv'
      exact (Option.some.inj hv').symm
    · simp only [Function.update_self] at hnone
      cases hnone

/-- Nothing but another deletion of the key changes what was last deleted. -/
theorem LastDeleted.step (h : LastDeleted σ k t v) {e : Event K} (hstep : Step σ e σ')
    (he : e ≠ .delete k) :
    LastDeleted σ' k t v := by
  cases hstep with
  | skip => exact h
  | put k' v' =>
    refine ⟨h.latest, h.value, fun hnone hlive => h.gone hnone ?_⟩
    by_cases hk : k = k'
    · subst hk
      simp only [Function.update_self] at hlive
      cases hlive
    · simpa only [Function.update_of_ne hk] using hlive
  | delete k' t' v' hlive' hlater =>
    have hk : k ≠ k' := fun heq => he (by rw [heq])
    exact h.of_eq (Function.update_of_ne hk ..) (Function.update_of_ne hk ..)
  | undelete k' t' v' hlive' hdead hlatest =>
    by_cases hk : k = k'
    · subst hk
      refine ⟨fun t₁ ht₁ => h.latest t₁ ?_, fun v₁ hv₁ => h.value v₁ ?_, fun _ hlive => ?_⟩
      · simp only [Function.update_self] at ht₁
        by_cases heq : t₁ = t'
        · rw [heq, Function.update_self] at ht₁
          exact absurd rfl ht₁
        · rwa [Function.update_of_ne heq] at ht₁
      · simp only [Function.update_self] at hv₁
        by_cases heq : t = t'
        · rw [heq, Function.update_self] at hv₁
          cases hv₁
        · rwa [Function.update_of_ne heq] at hv₁
      · simp only [Function.update_self] at hlive
        cases hlive
    · exact h.of_eq (Function.update_of_ne hk ..) (Function.update_of_ne hk ..)
  | purge dead hkept holder =>
    have hsome : ∀ t₁, dead k t₁ ≠ none → dead k t₁ = σ.dead k t₁ :=
      fun t₁ ht₁ => (hkept k t₁).resolve_right ht₁
    refine ⟨fun t₁ ht₁ => h.latest t₁ (hsome t₁ ht₁ ▸ ht₁), fun v₁ hv₁ => ?_,
      fun hnone hlive t₁ => ?_⟩
    · have hv₁ : dead k t = some v₁ := hv₁
      refine h.value v₁ ?_
      rw [← hsome t (by simp [hv₁]), hv₁]
    by_contra hne
    have ht₁ := hsome t₁ hne
    by_cases hdead : σ.dead k t = none
    · exact hne (ht₁.trans (h.gone hdead hlive t₁))
    · exact hne (holder k t t₁ (h.latest t₁ (ht₁ ▸ hne)) hdead hnone)

/-- Bringing a key back yields what was last deleted. -/
theorem LastDeleted.undelete (h : LastDeleted σ k t v) (hstep : Step σ (.undelete k) σ') :
    σ'.live k = some v := by
  cases hstep with
  | undelete _ t' v' hlive hdead hlatest =>
    have hsome : σ.dead k t ≠ none := by
      intro hnone
      rw [h.gone hnone hlive t'] at hdead
      cases hdead
    have heq : t' = t := le_antisymm (h.latest t' (by simp [hdead])) (hlatest t hsome)
    subst heq
    rw [h.value v' hdead]
    exact Function.update_self ..

end SoftDelete
