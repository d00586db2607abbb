import Mathlib.Data.Set.Image
import Mathlib.Order.BoundedOrder.Lattice
import Mathlib.Order.MinMax

/-!
# Registers that hold maxima

A file of registers observes pairs of an index and a value, and each register keeps the
greatest value of its index.  The registers are determined by the set of observations, in
whatever order and how often they were made.  A map of observations that keeps the order
of the values of each index commutes with the maxima.
-/

namespace Registers

open List

universe u

variable {β : Type u} [LinearOrder β] [OrderBot β]

/-- Observe the value `b` at index `i`. -/
def raise (regs : List β) (i : Nat) (b : β) : List β :=
  regs.modify i (fun r => max r b)

/-- Each register holds the greatest observation of its index. -/
structure Holds (obs : Set (Nat × β)) (regs : List β) : Prop where
  le : ∀ k b r, (k, b) ∈ obs → regs[k]? = some r → b ≤ r
  mem : ∀ k r, regs[k]? = some r → r ≠ ⊥ → (k, r) ∈ obs

/-- What the registers themselves say was observed. -/
def contents (regs : List β) : Set (Nat × β) :=
  {o | regs[o.1]? = some o.2 ∧ o.2 ≠ ⊥}

variable {obs obs' : Set (Nat × β)} {regs regs' : List β}

/-- The observations determine the registers. -/
theorem Holds.unique (h : Holds obs regs) (h' : Holds obs regs')
    (hlen : regs.length = regs'.length) :
    regs = regs' := by
  have hle : ∀ {l l' : List β}, Holds obs l → Holds obs l' →
      ∀ (k : Nat) (r r' : β), l[k]? = some r → l'[k]? = some r' → r ≤ r' := by
    intro l l' hl hl' k r r' hr hr'
    by_cases hbot : r = ⊥
    · rw [hbot]
      exact bot_le
    · exact hl'.le k r r' (hl.mem k r hr hbot) hr'
  refine ext_getElem hlen fun k hk hk' => ?_
  have hr := getElem?_eq_getElem hk
  have hr' := getElem?_eq_getElem hk'
  exact le_antisymm (hle h h' k _ _ hr hr') (hle h' h k _ _ hr' hr)

theorem holds_replicate (n : Nat) :
    Holds ∅ (List.replicate n (⊥ : β)) := by
  refine ⟨fun k b r hb => absurd hb (Set.notMem_empty _), fun k r hr hbot => ?_⟩
  exact absurd (eq_of_mem_replicate (mem_of_getElem? hr)) hbot

theorem holds_contents (regs : List β) :
    Holds (contents regs) regs := by
  refine ⟨fun k b r hb hr => ?_, fun k r hr hbot => ⟨hr, hbot⟩⟩
  have hb' : regs[k]? = some b := hb.1
  rw [hr] at hb'
  exact (Option.some.inj hb').symm.le

theorem Holds.raise (h : Holds obs regs) (i : Nat) (b : β) :
    Holds (insert (i, b) obs) (Registers.raise regs i b) := by
  have hlookup : ∀ k r, (Registers.raise regs i b)[k]? = some r →
      ∃ r₀, regs[k]? = some r₀ ∧ r = if i = k then max r₀ b else r₀ := by
    intro k r hr
    unfold Registers.raise at hr
    rw [getElem?_modify] at hr
    obtain ⟨r₀, hr₀, heq⟩ := Option.map_eq_some_iff.mp hr
    refine ⟨r₀, hr₀, heq.symm.trans ?_⟩
    split_ifs <;> rfl
  refine ⟨fun k c r hc hr => ?_, fun k r hr hbot => ?_⟩
  · obtain ⟨r₀, hr₀, rfl⟩ := hlookup k r hr
    rcases hc with hnew | hold
    · cases hnew
      rw [if_pos rfl]
      exact le_max_right r₀ b
    have hle := h.le k c r₀ hold hr₀
    split_ifs
    · exact hle.trans (le_max_left r₀ b)
    · exact hle
  · obtain ⟨r₀, hr₀, rfl⟩ := hlookup k r hr
    split_ifs at hbot ⊢ with hik
    · subst hik
      rcases max_choice r₀ b with hmax | hmax
      · rw [hmax] at hbot ⊢
        exact .inr (h.mem i r₀ hr₀ hbot)
      · rw [hmax]
        exact .inl rfl
    · exact .inr (h.mem k r₀ hr₀ hbot)

theorem Holds.foldl_raise (h : Holds obs regs) (l : List (Nat × β)) :
    Holds (obs ∪ {o | o ∈ l}) (l.foldl (fun regs o => Registers.raise regs o.1 o.2) regs) := by
  induction l generalizing obs regs with
  | nil => simpa using h
  | cons o l ih =>
    have hnext := ih (h.raise o.1 o.2)
    have hset : insert (o.1, o.2) obs ∪ {o | o ∈ l} = obs ∪ {o' | o' ∈ o :: l} := by
      ext o'
      simp only [Set.mem_union, Set.mem_insert_iff, Set.mem_ofPred_eq, mem_cons]
      tauto
    rw [hset] at hnext
    exact hnext

theorem Holds.zipWith_max (h : Holds obs regs) (h' : Holds obs' regs') :
    Holds (obs ∪ obs') (List.zipWith max regs regs') := by
  refine ⟨fun k b r hb hr => ?_, fun k r hr hbot => ?_⟩
  · obtain ⟨a, c, ha, hc, rfl⟩ := getElem?_zipWith_eq_some.mp hr
    rcases hb with hb | hb
    · exact (h.le k b a hb ha).trans (le_max_left a c)
    · exact (h'.le k b c hb hc).trans (le_max_right a c)
  obtain ⟨a, c, ha, hc, rfl⟩ := getElem?_zipWith_eq_some.mp hr
  rcases max_choice a c with hmax | hmax
  · rw [hmax] at hbot ⊢
    exact .inl (h.mem k a ha hbot)
  · rw [hmax] at hbot ⊢
    exact .inr (h'.mem k c hc hbot)

/-- Registers that hold the images of the maxima hold the images of all observations. -/
theorem Holds.image {f : Nat × β → Nat × β} (h : Holds obs regs)
    (hobs : ∀ o ∈ obs, o.1 < regs.length ∧ o.2 ≠ ⊥) (hindex : ∀ j a b, (f (j, a)).1 = (f (j, b)).1)
    (hmono : ∀ j a b, a ≤ b → (f (j, a)).2 ≤ (f (j, b)).2)
    (himage : Holds (f '' contents regs) regs') :
    Holds (f '' obs) regs' := by
  refine ⟨fun k b r hb hr => ?_, fun k r hr hbot => ?_⟩
  · obtain ⟨⟨j, a⟩, ho, heq⟩ := hb
    obtain ⟨hj, ha⟩ := hobs (j, a) ho
    have hreg := getElem?_eq_getElem hj
    have hle : a ≤ regs[j] := h.le j a _ ho hreg
    have hbot : regs[j] ≠ ⊥ := fun hbot => ha (le_bot_iff.mp (hbot ▸ hle))
    have hmax := himage.le (f (j, regs[j])).1 (f (j, regs[j])).2 r
      ⟨(j, regs[j]), ⟨hreg, hbot⟩, rfl⟩ (by rw [hindex j _ a, heq]; exact hr)
    have hvalue : b = (f (j, a)).2 := by rw [heq]
    rw [hvalue]
    exact (hmono j a _ hle).trans hmax
  · obtain ⟨o, ho, heq⟩ := himage.mem k r hr hbot
    exact ⟨o, h.mem o.1 o.2 ho.1 ho.2, heq⟩

end Registers
