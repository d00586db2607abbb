import Mathlib.Data.List.Basic

/-!
# Lists of results that can fail

Inversion of `bind`, `map` and `mapM` in `Except`, and the elements of a list that pass a
test which can fail.
-/

namespace Fallible

open List

universe u

variable {ε α β : Type u}

variable {x : Except ε α} {f : α → Except ε β} {b : β} {a : α} {l : List α} {bs : List β}

theorem bind_eq_ok_iff :
    x.bind f = .ok b ↔ ∃ a, x = .ok a ∧ f a = .ok b := by
  cases x with
  | error e => exact ⟨nofun, fun ⟨a, ha, _⟩ => nomatch ha⟩
  | ok a => exact ⟨fun h => ⟨a, rfl, h⟩, fun ⟨_, ha, h⟩ => Except.ok.inj ha ▸ h⟩

theorem map_eq_ok_iff {f : α → β} :
    x.map f = .ok b ↔ ∃ a, x = .ok a ∧ f a = b := by
  cases x with
  | error e => exact ⟨nofun, fun ⟨a, ha, _⟩ => nomatch ha⟩
  | ok a =>
    exact ⟨fun h => ⟨a, rfl, Except.ok.inj h⟩,
      fun ⟨_, ha, h⟩ => congrArg Except.ok (Except.ok.inj ha ▸ h)⟩

theorem isOk_iff :
    x.isOk = true ↔ ∃ a, x = .ok a := by
  cases x with
  | error e => exact ⟨nofun, fun ⟨_, h⟩ => nomatch h⟩
  | ok a => exact ⟨fun _ => ⟨a, rfl⟩, fun _ => rfl⟩

theorem isOk_map (x : Except ε α) (f : α → β) :
    (x.map f).isOk = x.isOk := by
  cases x <;> rfl

theorem isOk_mapM {good : α → Bool} (h : ∀ a ∈ l, (f a).isOk = good a) :
    (l.mapM f).isOk = l.all good := by
  induction l with
  | nil => rfl
  | cons a l ih =>
    obtain ⟨ha, hl⟩ := forall_mem_cons.mp h
    rw [mapM_cons, all_cons, ← ih hl, ← ha]
    cases f a <;> cases l.mapM f <;> rfl

/-- A loop whose checked steps all succeed. -/
theorem foldlM_eq_some {σ α : Type*} {c : σ → α → Option σ} {f : σ → α → σ} (P : σ → Prop)
    {l : List α} (h : ∀ s, P s → ∀ a ∈ l, c s a = some (f s a) ∧ P (f s a)) {s : σ}
    (hs : P s) :
    l.foldlM c s = some (l.foldl f s) := by
  induction l generalizing s with
  | nil => rfl
  | cons a l ih =>
    obtain ⟨hcheck, hstep⟩ := h s hs a (by simp)
    rw [foldlM_cons, hcheck, foldl_cons]
    exact ih (fun s hs a' ha' => h s hs a' (mem_cons_of_mem _ ha')) hstep

end Fallible
