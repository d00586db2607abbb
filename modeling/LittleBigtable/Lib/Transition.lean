import Mathlib.Data.Option.Basic

/-!
# Runs of an executable transition system

A system is a partial step function `next : σ → ι → Option σ`: in state `s` the
label `a` is enabled when `next s a` is defined.  A run is a list of labels.  An
invariant is established once for a step, and then holds after every run.
-/

namespace Transition

universe u v

variable {σ : Type u} {ι : Type v}

/-- The state after a run, if every step of the run is enabled. -/
def run (next : σ → ι → Option σ) : σ → List ι → Option σ
  | s, [] => some s
  | s, a :: as => (next s a).bind (fun s' => run next s' as)

/-- Every step of the run meets `cond` in the state in which it is taken. -/
def Meets (next : σ → ι → Option σ) (cond : σ → ι → Prop) :
    σ → List ι → Prop
  | _, [] => True
  | s, a :: as => cond s a ∧ ∀ s', next s a = some s' → Meets next cond s' as

variable {next : σ → ι → Option σ}

variable (inv : σ → Prop) {s s' : σ} {as : List ι} {cond : σ → ι → Prop}

theorem run_cons_eq_some {a : ι} (h : run next s (a :: as) = some s') :
    ∃ s₁, next s a = some s₁ ∧ run next s₁ as = some s' :=
  Option.bind_eq_some_iff.mp h

theorem Meets.cons {cond : σ → ι → Prop} {s s' : σ} {a : ι} {as : List ι}
    (hnext : next s a = some s') (hcond : cond s a) (h : Meets next cond s' as) :
    Meets next cond s (a :: as) := by
  refine ⟨hcond, fun s₁ hs₁ => ?_⟩
  rw [hnext] at hs₁
  cases hs₁
  exact h

/-- Whether every step of the run passes a test. -/
def checks (next : σ → ι → Option σ) (test : σ → ι → Bool) :
    σ → List ι → Bool
  | _, [] => true
  | s, a :: as => test s a && (next s a).all (fun s' => checks next test s' as)

theorem meets_of_checks {test : σ → ι → Bool} (htest : ∀ s a, test s a = true → cond s a)
    (h : checks next test s as = true) :
    Meets next cond s as := by
  induction as generalizing s with
  | nil => trivial
  | cons a as ih =>
    rw [checks, Bool.and_eq_true] at h
    refine ⟨htest s a h.1, fun s' hs' => ih ?_⟩
    have hrest := h.2
    rw [hs'] at hrest
    exact hrest

/-- What holds at the start and is kept by every step that meets `cond` holds
after every run whose steps meet `cond`. -/
theorem invariant_of_meets (hstep : ∀ s a s', inv s → cond s a → next s a = some s' → inv s')
    (hinit : inv s) (hmeets : Meets next cond s as) (h : run next s as = some s') :
    inv s' := by
  induction as generalizing s with
  | nil =>
    cases h
    exact hinit
  | cons a as ih =>
    obtain ⟨s₁, hnext, hrun⟩ := run_cons_eq_some h
    exact ih (hstep s a s₁ hinit hmeets.1 hnext) (hmeets.2 s₁ hnext) hrun

theorem invariant (hstep : ∀ s a s', inv s → next s a = some s' → inv s') (hinit : inv s)
    (h : run next s as = some s') :
    inv s' := by
  induction as generalizing s with
  | nil =>
    cases h
    exact hinit
  | cons a as ih =>
    obtain ⟨s₁, hnext, hrun⟩ := run_cons_eq_some h
    exact ih (hstep s a s₁ hinit hnext) hrun

/-- When every step keeps `good` exactly if it meets `cond`, a run keeps `good` exactly
if all its steps meet `cond`. -/
theorem good_iff_meets (good : σ → Prop)
    (hstep : ∀ s a s', inv s → next s a = some s' → inv s' ∧ (good s' ↔ good s ∧ cond s a))
    (hinit : inv s) (h : run next s as = some s') :
    good s' ↔ good s ∧ Meets next cond s as := by
  induction as generalizing s with
  | nil =>
    cases h
    exact ⟨fun hgood => ⟨hgood, trivial⟩, And.left⟩
  | cons a as ih =>
    obtain ⟨s₁, hnext, hrun⟩ := run_cons_eq_some h
    obtain ⟨hinv, hgood⟩ := hstep s a s₁ hinit hnext
    rw [ih hinv hrun, hgood, and_assoc]
    refine and_congr_right fun _ => ?_
    constructor
    · rintro ⟨hcond, hmeets⟩
      exact hmeets.cons hnext hcond
    · intro hmeets
      exact ⟨hmeets.1, hmeets.2 s₁ hnext⟩

theorem Meets.and {p q : σ → ι → Prop} (hp : Meets next p s as) (hq : Meets next q s as) :
    Meets next (fun s a => p s a ∧ q s a) s as := by
  induction as generalizing s with
  | nil => trivial
  | cons a as ih => exact ⟨⟨hp.1, hq.1⟩, fun s' hs' => ih (hp.2 s' hs') (hq.2 s' hs')⟩

/-- The first and the second part of a run meet what the run meets. -/
theorem Meets.of_append {s₁ : σ} {bs : List ι} (h : Meets next cond s (as ++ bs))
    (hrun : run next s as = some s₁) :
    Meets next cond s as ∧ Meets next cond s₁ bs := by
  induction as generalizing s with
  | nil =>
    cases hrun
    exact ⟨trivial, h⟩
  | cons a as ih =>
    obtain ⟨s', hnext, hrest⟩ := run_cons_eq_some hrun
    obtain ⟨_, hbs⟩ := ih (h.2 s' hnext) hrest
    refine ⟨⟨h.1, fun s'' hs'' => ?_⟩, hbs⟩
    rw [hnext] at hs''
    cases hs''
    exact (ih (h.2 s' hnext) hrest).1

/-- A run has no step with `p`, or a last one. -/
theorem meets_not_or_last (p : σ → ι → Prop) (h : run next s as = some s') :
    Meets next (fun s a => ¬ p s a) s as ∨
      ∃ pre a post s₁ s₂, as = pre ++ a :: post ∧ run next s pre = some s₁ ∧
        p s₁ a ∧ next s₁ a = some s₂ ∧ run next s₂ post = some s' ∧
        Meets next (fun s a => ¬ p s a) s₂ post := by
  induction as generalizing s with
  | nil => exact .inl trivial
  | cons a as ih =>
    obtain ⟨s₁, hnext, hrest⟩ := run_cons_eq_some h
    rcases ih hrest with hmeets | ⟨pre, b, post, s₂, s₃, heq, hpre, hb, hb', hpost, hmeets⟩
    · by_cases ha : p s a
      · exact .inr ⟨[], a, as, s, s₁, rfl, rfl, ha, hnext, hrest, hmeets⟩
      · exact .inl (hmeets.cons hnext ha)
    · refine .inr ⟨a :: pre, b, post, s₂, s₃, by rw [heq]; rfl, ?_, hb, hb', hpost, hmeets⟩
      rw [run, hnext]
      exact hpre

end Transition
