import Mathlib.Data.List.Forall2
import Mathlib.Data.List.Infix

/-!
# Patterns with wildcards

A pattern is a list of tokens: a letter, any one letter, or any sequence of letters.
The last two are the wildcards `_` and `%` of the SQL operator `LIKE`.

A pattern that starts with single-letter tokens fixes the first letters of every list
it accepts (`accepts_append_iff`, `accepts_append_many`).

`search` looks for a match with one loop that goes back to the last `%` only.  It ends
and finds one exactly if there is one (`countedLoop_eq`, `search_eq_accepts`): what the
tokens up to the next `%` take first leaves the most for the rest.

A pattern is written as a text with marks for the escape and the two wildcards; `Matches`
is what such a text stands for, and `compile` turns it into tokens that accept the same
lists (`accepts_compile_iff`).
-/

namespace Like

open List

universe u

/-- One token of a pattern. -/
inductive Token (α : Type u)
  | exact (c : α)
  | one
  | many
deriving DecidableEq

/-- The token stands for this single letter. -/
def Token.fits {α : Type u} : Token α → α → Prop
  | .exact c, a => a = c
  | .one, _ => True
  | .many, _ => False

section Accepts

variable {α : Type u} [DecidableEq α]

/-- The whole list matches the pattern. -/
def accepts : List (Token α) → List α → Bool
  | [], s => s.isEmpty
  | .exact c :: p, s =>
    match s with
    | [] => false
    | a :: s' => decide (a = c) && accepts p s'
  | .one :: p, s =>
    match s with
    | [] => false
    | _ :: s' => accepts p s'
  | .many :: p, s => s.tails.any (accepts p)

variable {s : List α} {p : List (Token α)}

@[simp] theorem accepts_nil_iff :
    accepts [] s = true ↔ s = [] := by
  simp [accepts]

theorem accepts_many_iff :
    accepts (.many :: p) s = true ↔ ∃ a b, s = a ++ b ∧ accepts p b = true := by
  simp only [accepts, any_eq_true, mem_tails]
  constructor
  · rintro ⟨b, ⟨a, rfl⟩, hb⟩
    exact ⟨a, b, rfl, hb⟩
  · rintro ⟨a, b, rfl, hb⟩
    exact ⟨b, ⟨a, rfl⟩, hb⟩

theorem accepts_cons_iff {t : Token α} (ht : t ≠ .many) :
    accepts (t :: p) s = true ↔ ∃ a s', s = a :: s' ∧ t.fits a ∧ accepts p s' = true := by
  cases t with
  | exact | one =>
    cases s with
    | nil => simp [accepts]
    | cons a s => simp [accepts, Token.fits]
  | many => exact absurd rfl ht

/-- Single-letter tokens take as many letters, one each. -/
theorem accepts_append_iff {w : List (Token α)} (hw : ∀ t ∈ w, t ≠ .many) :
    accepts (w ++ p) s = true ↔
      ∃ a b, s = a ++ b ∧ List.Forall₂ Token.fits w a ∧ accepts p b = true := by
  induction w generalizing s with
  | nil =>
    constructor
    · intro h
      exact ⟨[], s, rfl, .nil, h⟩
    · rintro ⟨a, b, rfl, ha, hb⟩
      cases ha
      exact hb
  | cons t w ih =>
    obtain ⟨ht, hw⟩ := forall_mem_cons.mp hw
    rw [cons_append, accepts_cons_iff ht]
    constructor
    · rintro ⟨c, s', rfl, hc, hs'⟩
      obtain ⟨a, b, rfl, ha, hb⟩ := (ih hw).mp hs'
      exact ⟨c :: a, b, rfl, .cons hc ha, hb⟩
    · rintro ⟨a, b, rfl, ha, hb⟩
      cases ha with
      | cons hc ha => exact ⟨_, _, rfl, hc, (ih hw).mpr ⟨_, b, rfl, ha, hb⟩⟩

theorem accepts_append_many {w : List (Token α)} (hw : ∀ t ∈ w, t ≠ .many) :
    accepts (w ++ [.many]) s = true ↔ ∃ a b, s = a ++ b ∧ List.Forall₂ Token.fits w a := by
  rw [accepts_append_iff hw]
  constructor
  · rintro ⟨a, b, rfl, ha, _⟩
    exact ⟨a, b, rfl, ha⟩
  · rintro ⟨a, b, rfl, ha⟩
    exact ⟨a, b, rfl, ha, accepts_many_iff.mpr ⟨b, [], by simp, by simp⟩⟩

end Accepts

section Passed

variable {α : Type u}

/-- Between the last `%` that was passed and the current place single-letter tokens took
one letter each. -/
def Behind (p : List (Token α)) (s : List α) : Option (List (Token α) × List α) → Prop
  | none => True
  | some (p', s') =>
    ∃ w a, p' = w ++ p ∧ s' = a ++ s ∧ (∀ t ∈ w, t ≠ .many) ∧ List.Forall₂ Token.fits w a

theorem behind_start (p : List (Token α)) (s : List α) :
    Behind p s (some (p, s)) :=
  ⟨[], [], rfl, rfl, by simp, .nil⟩

/-- A token that takes a letter stays behind the last `%`. -/
theorem Behind.next {t : Token α} (ht : t ≠ .many) {p : List (Token α)} {c : α} (hc : t.fits c)
    {s : List α} {star : Option (List (Token α) × List α)} (h : Behind (t :: p) (c :: s) star) :
    Behind p s star := by
  cases star with
  | none => trivial
  | some x =>
    obtain ⟨w, a, hp, hs, hw, hfits⟩ := h
    refine ⟨w ++ [t], a ++ [c], by simp [hp], by simp [hs], ?_, ?_⟩
    · intro x hx
      rcases mem_append.mp hx with hx | hx
      · exact hw x hx
      · rw [mem_singleton.mp hx]
        exact ht
    · exact rel_append hfits (.cons hc .nil)

end Passed

section Loop

variable {α : Type u} [DecidableEq α]

/-- The next try behind the last `%`: one letter later. -/
def retry (go : List (Token α) → List α → Option (List (Token α) × List α) → Bool) :
    Option (List (Token α) × List α) → Bool
  | none => false
  | some (p, s) => go p s.tail (some (p, s.tail))

/-- The wildcard loop: `star` holds the tokens behind the last `%` that was passed and the
text that was left there; a mismatch goes back to them, one letter later.  Every round
takes one unit of `fuel`. -/
def loop : ℕ → List (Token α) → List α → Option (List (Token α) × List α) → Bool
  | 0, _, _, _ => false
  | _ + 1, p, [], _ => decide (p.dropWhile (fun t => decide (t = .many)) = [])
  | fuel + 1, .many :: p, c :: s, _ => loop fuel p (c :: s) (some (p, c :: s))
  | fuel + 1, .one :: p, _ :: s, star => loop fuel p s star
  | fuel + 1, .exact d :: p, c :: s, star =>
    if c = d then loop fuel p s star else retry (loop fuel) star
  | fuel + 1, [], _ :: _, star => retry (loop fuel) star

/-- The next try of the loop that counts its rounds. -/
def countedRetry (go : List (Token α) → List α → Option (List (Token α) × List α) → Option Bool) :
    Option (List (Token α) × List α) → Option Bool
  | none => some false
  | some (p, s) => go p s.tail (some (p, s.tail))

/-- The loop, with `none` if it does not end within `fuel` rounds. -/
def countedLoop :
    ℕ → List (Token α) → List α → Option (List (Token α) × List α) → Option Bool
  | 0, _, _, _ => none
  | _ + 1, p, [], _ => some (decide (p.dropWhile (fun t => decide (t = .many)) = []))
  | fuel + 1, .many :: p, c :: s, _ => countedLoop fuel p (c :: s) (some (p, c :: s))
  | fuel + 1, .one :: p, _ :: s, star => countedLoop fuel p s star
  | fuel + 1, .exact d :: p, c :: s, star =>
    if c = d then countedLoop fuel p s star else countedRetry (countedLoop fuel) star
  | fuel + 1, [], _ :: _, star => countedRetry (countedLoop fuel) star

/-- A number of rounds that the loop does not exceed. -/
def rounds (p : List (Token α)) (s : List α) : ℕ :=
  (p.length + 1) * ((s.length + 1) * (p.length + 1))

/-- Whether the loop finds the whole list to match the pattern. -/
def search (p : List (Token α)) (s : List α) : Bool :=
  loop (rounds p s) p s none

variable {p : List (Token α)} {s : List α} {star : Option (List (Token α) × List α)} {m n : ℕ}

theorem accepts_many_append {a b : List α} (h : accepts (.many :: p) b = true) :
    accepts (.many :: p) (a ++ b) = true := by
  obtain ⟨c, d, rfl, hd⟩ := accepts_many_iff.mp h
  exact accepts_many_iff.mpr ⟨a ++ c, d, (append_assoc a c d).symm, hd⟩

/-- `%` stands for nothing, or it takes a letter. -/
theorem accepts_many_cons :
    accepts (.many :: p) s = true ↔ accepts p s = true ∨ accepts (.many :: p) s.tail = true := by
  constructor
  · intro h
    obtain ⟨a, b, rfl, hb⟩ := accepts_many_iff.mp h
    cases a with
    | nil => exact .inl hb
    | cons c a => exact .inr (accepts_many_iff.mpr ⟨a, b, rfl, hb⟩)
  · rintro (h | h)
    · exact accepts_many_iff.mpr ⟨[], s, rfl, h⟩
    · cases s with
      | nil => exact h
      | cons c s => exact accepts_many_append (a := [c]) h

theorem accepts_nil_right_iff :
    accepts p [] = true ↔ p.dropWhile (fun t => decide (t = .many)) = [] := by
  induction p with
  | nil => simp
  | cons t p ih =>
    cases t with
    | exact | one => simp [accepts]
    | many =>
      rw [accepts_many_cons]
      simpa [accepts_many_cons, accepts] using ih

/-- The last `%` that was passed could take more letters. -/
def again : Option (List (Token α) × List α) → Bool
  | none => false
  | some (p, s) => accepts (.many :: p) s.tail

/-- A bound on the rounds that are left, for a pattern of at most `m` tokens and a text
of at most `n` letters. -/
def left (m n : ℕ) (p : List (Token α)) (star : Option (List (Token α) × List α)) : ℕ :=
  p.count .many * ((n + 1) * (m + 1)) + (star.elim 0 (fun x => x.2.length) * (m + 1) + p.length)

/-- The tokens and the text of the last `%` are within the bounds. -/
def Within (m n : ℕ) : Option (List (Token α) × List α) → Prop
  | none => True
  | some (p, s) => p.length ≤ m ∧ s.length ≤ n

/-- If the last `%` takes more letters, the current tokens meet less text. -/
theorem Behind.exists_suffix (h : Behind p s star) (ha : again star = true) :
    ∃ b, b <:+ s ∧ accepts p b = true := by
  cases star with
  | none => cases ha
  | some x =>
    obtain ⟨p', s'⟩ := x
    obtain ⟨w, a, rfl, rfl, hw, hfits⟩ := h
    obtain ⟨y, z, htail, hz⟩ := accepts_many_iff.mp ha
    obtain ⟨a', b, rfl, hfits', hb⟩ := (accepts_append_iff hw).mp hz
    refine ⟨b, ?_, hb⟩
    -- both texts took as many letters for the tokens in between
    have hlen : a'.length = a.length := by
      rw [← hfits'.length_eq, hfits.length_eq]
    have hsuffix : b <:+ a ++ s := by
      have htb : b <:+ (a ++ s).tail := ⟨y ++ a', by rw [htail, append_assoc]⟩
      exact htb.trans (tail_suffix _)
    have hle : b.length ≤ s.length := by
      have := congrArg List.length htail
      simp only [length_tail, length_append] at this
      omega
    exact suffix_of_suffix_length_le hsuffix (suffix_append a s) hle

/-- A `%` that is passed leaves fewer rounds. -/
theorem left_many (p : List (Token α)) (hs : s.length ≤ n)
    (star : Option (List (Token α) × List α)) :
    left m n p (some (p, s)) < left m n (.many :: p) star := by
  have hmul : s.length * (m + 1) ≤ n * (m + 1) := Nat.mul_le_mul_right (m + 1) hs
  have hrow : (n + 1) * (m + 1) = n * (m + 1) + (m + 1) := Nat.succ_mul n (m + 1)
  unfold left
  rw [count_cons_self, Nat.succ_mul (p.count .many)]
  simp only [Option.elim_some, length_cons]
  omega

theorem left_retry {w : List (Token α)} (hw : ∀ t ∈ w, t ≠ .many) (hp : (w ++ p).length ≤ m)
    (hs : s ≠ []) :
    left m n (w ++ p) (some (w ++ p, s.tail)) < left m n p (some (w ++ p, s)) := by
  have hcount : w.count .many = 0 := count_eq_zero.mpr (fun h => hw _ h rfl)
  obtain ⟨c, s, rfl⟩ := exists_cons_of_ne_nil hs
  have hrow : (s.length + 1) * (m + 1) = s.length * (m + 1) + (m + 1) :=
    Nat.succ_mul s.length (m + 1)
  unfold left
  rw [count_append, hcount, Nat.zero_add]
  simp only [Option.elim_some, tail_cons, length_cons]
  omega

/-- **The loop ends and decides whether the rest matches, here or with a later start.** -/
theorem countedLoop_eq {fuel : ℕ} (hbehind : Behind p s star) (hp : p.length ≤ m)
    (hs : s.length ≤ n) (hstar : Within m n star) (hfuel : left m n p star < fuel) :
    countedLoop fuel p s star = some (accepts p s || again star) := by
  induction fuel generalizing p s star with
  | zero => omega
  | succ fuel ih =>
    -- a mismatch goes back to the last `%`
    have hretry : s ≠ [] → countedRetry (countedLoop fuel) star = some (again star) := by
      intro hne
      cases star with
      | none => rfl
      | some x =>
        obtain ⟨p', s'⟩ := x
        obtain ⟨w, a, rfl, rfl, hw, _⟩ := hbehind
        obtain ⟨hp', hs'⟩ := hstar
        have hlen : (a ++ s).tail.length ≤ n := le_trans (tail_suffix _).length_le hs'
        have hleft := left_retry (n := n) hw hp' (s := a ++ s) (by simp [hne])
        simp only [countedRetry]
        rw [ih (behind_start _ _) hp' hlen ⟨hp', hlen⟩ (by omega), Option.some_inj, Bool.eq_iff_iff]
        unfold again
        rw [Bool.or_eq_true]
        exact accepts_many_cons.symm
    cases s with
    | nil =>
      have hiff : (accepts p [] || again star) = accepts p [] := by
        rw [Bool.eq_iff_iff, Bool.or_eq_true]
        refine ⟨fun h => h.elim id (fun ha => ?_), .inl⟩
        obtain ⟨b, hb, hpb⟩ := hbehind.exists_suffix ha
        rw [suffix_nil.mp hb] at hpb
        exact hpb
      have hnil : accepts p [] = decide (p.dropWhile (fun t => decide (t = .many)) = []) := by
        rw [Bool.eq_iff_iff, accepts_nil_right_iff, decide_eq_true_iff]
      rw [hiff, hnil]
      cases p <;> rfl
    | cons c s =>
      cases p with
      | nil =>
        have hacc : accepts ([] : List (Token α)) (c :: s) = false := rfl
        rw [hacc, Bool.false_or, ← hretry (cons_ne_nil c s)]
        rfl
      | cons t p =>
        have hp' : p.length ≤ m := Nat.le_of_succ_le hp
        have hs' : s.length ≤ n := Nat.le_of_succ_le hs
        cases t with
        | many =>
          have hleft := left_many (m := m) p hs star
          have hagain : again star = true → accepts (.many :: p) (c :: s) = true := by
            intro ha
            obtain ⟨b, ⟨a, hab⟩, hb⟩ := hbehind.exists_suffix ha
            rw [← hab]
            exact accepts_many_append hb
          rw [countedLoop, ih (behind_start _ _) hp' hs ⟨hp', hs⟩ (by omega),
            Option.some_inj, Bool.eq_iff_iff, Bool.or_eq_true, Bool.or_eq_true,
            or_iff_left_of_imp hagain]
          exact accepts_many_cons.symm
        | one =>
          have hnext : Behind p s star := Behind.next (t := .one) (by simp) trivial hbehind
          have hleft : left m n p star < left m n (.one :: p) star := by
            simp [left]
          rw [countedLoop, ih hnext hp' hs' hstar (by omega)]
          rfl
        | exact d =>
          have hleft : left m n p star < left m n (.exact d :: p) star := by
            simp [left]
          rw [countedLoop]
          by_cases hcd : c = d
          · have hnext : Behind p s star := Behind.next (t := .exact d) (by simp) hcd hbehind
            rw [if_pos hcd, ih hnext hp' hs' hstar (by omega)]
            simp [accepts, hcd]
          · rw [if_neg hcd, hretry (cons_ne_nil c s)]
            simp [accepts, hcd]

theorem loop_eq_countedLoop (fuel : ℕ) (p : List (Token α)) (s : List α)
    (star : Option (List (Token α) × List α)) :
    loop fuel p s star = (countedLoop fuel p s star).getD false := by
  induction fuel generalizing p s star with
  | zero => rfl
  | succ fuel ih =>
    have hretry : retry (loop fuel) star = (countedRetry (countedLoop fuel) star).getD false := by
      cases star with
      | none => rfl
      | some x => exact ih _ _ _
    cases s with
    | nil => cases p <;> rfl
    | cons c s =>
      cases p with
      | nil => exact hretry
      | cons t p =>
        cases t with
        | many | one => exact ih _ _ _
        | exact d =>
          rw [loop, countedLoop]
          split_ifs
          · exact ih _ _ _
          · exact hretry

/-- The loop from the start ends within `rounds` and finds a match exactly if there is
one. -/
theorem countedLoop_start (p : List (Token α)) (s : List α) {fuel : ℕ} (hfuel : rounds p s ≤ fuel) :
    countedLoop fuel p s none = some (accepts p s) := by
  have hrounds : left p.length s.length p none < rounds p s := by
    have hcount : p.count .many * ((s.length + 1) * (p.length + 1)) ≤
        p.length * ((s.length + 1) * (p.length + 1)) :=
      Nat.mul_le_mul_right _ count_le_length
    have hrow : p.length + 1 ≤ (s.length + 1) * (p.length + 1) :=
      Nat.le_mul_of_pos_left _ (Nat.succ_pos s.length)
    have hsum : (p.length + 1) * ((s.length + 1) * (p.length + 1)) =
        p.length * ((s.length + 1) * (p.length + 1)) + (s.length + 1) * (p.length + 1) :=
      Nat.succ_mul _ _
    unfold left rounds
    simp only [Option.elim_none, Nat.zero_mul]
    omega
  have hbehind : Behind p s none := trivial
  rw [countedLoop_eq hbehind (le_refl _) (le_refl _) trivial (by omega)]
  exact congrArg some (Bool.or_false _)

/-- **The loop finds a match exactly if there is one.** -/
theorem search_eq_accepts (p : List (Token α)) (s : List α) :
    search p s = accepts p s := by
  unfold search
  rw [loop_eq_countedLoop, countedLoop_start p s (le_refl _)]
  rfl

end Loop

section Text

variable {α : Type u}

/-- The marks of the pattern language. -/
structure Marks (α : Type u) where
  escape : α
  many : α
  one : α
  escape_ne_many : escape ≠ many
  escape_ne_one : escape ≠ one
  many_ne_one : many ≠ one

/-- What the text of a pattern stands for: an escaped or ordinary letter is matched by
itself, `one` by any letter and `many` by any sequence of letters. -/
inductive Matches (m : Marks α) : List α → List α → Prop
  | nil : Matches m [] []
  | escaped (c : α) {p s : List α} (h : Matches m p s) : Matches m (m.escape :: c :: p) (c :: s)
  | ordinary
      (c : α)
      (hescape : c ≠ m.escape)
      (hmany : c ≠ m.many)
      (hone : c ≠ m.one)
      {p s : List α}
      (h : Matches m p s) :
      Matches m (c :: p) (c :: s)
  | one (a : α) {p s : List α} (h : Matches m p s) : Matches m (m.one :: p) (a :: s)
  | many (a : List α) {p s : List α} (h : Matches m p s) : Matches m (m.many :: p) (a ++ s)

variable {m : Marks α}

variable {p s : List α} {c : α} {toks : List (Token α)}

theorem matches_many_iff :
    Matches m (m.many :: p) s ↔ ∃ a b, s = a ++ b ∧ Matches m p b := by
  constructor
  · intro h
    generalize hp : m.many :: p = q at h
    cases h with
    | nil => cases hp
    | escaped c h => exact absurd (List.cons.inj hp).1.symm m.escape_ne_many
    | ordinary c _ hmany _ h => exact absurd (List.cons.inj hp).1.symm hmany
    | one a h => exact absurd (List.cons.inj hp).1 m.many_ne_one
    | many a h =>
      cases hp
      exact ⟨a, _, rfl, h⟩
  · rintro ⟨a, b, rfl, h⟩
    exact .many a h

/-- A second `many` adds nothing. -/
theorem matches_many_many_iff :
    Matches m (m.many :: m.many :: p) s ↔ Matches m (m.many :: p) s := by
  rw [matches_many_iff]
  constructor
  · rintro ⟨a, b, rfl, h⟩
    obtain ⟨a', b', rfl, h'⟩ := matches_many_iff.mp h
    exact matches_many_iff.mpr ⟨a ++ a', b', (append_assoc a a' b').symm, h'⟩
  · intro h
    exact ⟨[], s, rfl, h⟩

theorem matches_escape_iff :
    Matches m (m.escape :: c :: p) s ↔ ∃ b, s = c :: b ∧ Matches m p b := by
  constructor
  · intro h
    generalize hp : m.escape :: c :: p = q at h
    cases h with
    | nil => cases hp
    | escaped d h =>
      cases hp
      exact ⟨_, rfl, h⟩
    | ordinary d hescape _ _ h => exact absurd (List.cons.inj hp).1.symm hescape
    | one a h => exact absurd (List.cons.inj hp).1 m.escape_ne_one
    | many a h => exact absurd (List.cons.inj hp).1 m.escape_ne_many
  · rintro ⟨b, rfl, h⟩
    exact .escaped c h

theorem matches_one_iff :
    Matches m (m.one :: p) s ↔ ∃ a b, s = a :: b ∧ Matches m p b := by
  constructor
  · intro h
    generalize hp : m.one :: p = q at h
    cases h with
    | nil => cases hp
    | escaped d h => exact absurd (List.cons.inj hp).1.symm m.escape_ne_one
    | ordinary d _ _ hone h => exact absurd (List.cons.inj hp).1.symm hone
    | one a h =>
      cases hp
      exact ⟨a, _, rfl, h⟩
    | many a h => exact absurd (List.cons.inj hp).1.symm m.many_ne_one
  · rintro ⟨a, b, rfl, h⟩
    exact .one a h

theorem matches_ordinary_iff (hescape : c ≠ m.escape) (hmany : c ≠ m.many) (hone : c ≠ m.one) :
    Matches m (c :: p) s ↔ ∃ b, s = c :: b ∧ Matches m p b := by
  constructor
  · intro h
    cases h with
    | escaped d h => exact absurd rfl hescape
    | ordinary d _ _ _ h => exact ⟨_, rfl, h⟩
    | one a h => exact absurd rfl hone
    | many a h => exact absurd rfl hmany
  · rintro ⟨b, rfl, h⟩
    exact .ordinary c hescape hmany hone h

@[simp] theorem matches_nil_iff :
    Matches m [] s ↔ s = [] := by
  constructor
  · rintro ⟨⟩
    rfl
  · rintro rfl
    exact .nil

variable [DecidableEq α]

/-- The tokens of a text; a text that ends in an escape has none.  `afterMany` holds if
the last token was `many`, which is not repeated. -/
def compile (m : Marks α) : Bool → List α → Option (List (Token α))
  | _, [] => some []
  | afterMany, c :: rest =>
    if c = m.escape then
      match rest with
      | [] => none
      | d :: rest => (compile m false rest).map (fun toks => .exact d :: toks)
    else if c = m.many then
      (compile m true rest).map (fun toks => if afterMany then toks else .many :: toks)
    else if c = m.one then
      (compile m false rest).map (fun toks => .one :: toks)
    else
      (compile m false rest).map (fun toks => .exact c :: toks)

theorem compile_cons (m : Marks α) (afterMany : Bool) (c : α) (rest : List α) :
    compile m afterMany (c :: rest) =
      if c = m.escape then
        match rest with
        | [] => none
        | d :: rest => (compile m false rest).map (fun toks => .exact d :: toks)
      else if c = m.many then
        (compile m true rest).map (fun toks => if afterMany then toks else .many :: toks)
      else if c = m.one then
        (compile m false rest).map (fun toks => .one :: toks)
      else
        (compile m false rest).map (fun toks => .exact c :: toks) := by
  cases rest <;> rfl

/-- The `many` that was passed before these tokens. -/
def passedMany (afterMany : Bool) (toks : List (Token α)) : List (Token α) :=
  if afterMany then .many :: toks else toks

/-- A pattern behind a `many` that was passed. -/
theorem accepts_passedMany_iff (h : ∀ s, accepts toks s = true ↔ Matches m p s) {afterMany : Bool}
    {s : List α} :
    accepts (passedMany afterMany toks) s = true ↔
      if afterMany then Matches m (m.many :: p) s else Matches m p s := by
  cases afterMany with
  | false => exact h s
  | true =>
    simp only [passedMany, if_true]
    rw [accepts_many_iff, matches_many_iff]
    simp only [h]

theorem accepts_exact_iff (h : ∀ s, accepts toks s = true ↔ Matches m p s) :
    accepts (.exact c :: toks) s = true ↔ ∃ b, s = c :: b ∧ Matches m p b := by
  rw [accepts_cons_iff (by simp)]
  constructor
  · rintro ⟨a, b, rfl, hfits, hb⟩
    cases hfits
    exact ⟨b, rfl, (h b).mp hb⟩
  · rintro ⟨b, rfl, hb⟩
    exact ⟨c, b, rfl, rfl, (h b).mpr hb⟩

theorem accepts_one_iff (h : ∀ s, accepts toks s = true ↔ Matches m p s) :
    accepts (.one :: toks) s = true ↔ ∃ a b, s = a :: b ∧ Matches m p b := by
  rw [accepts_cons_iff (by simp)]
  simp only [Token.fits, true_and, h]

/-- **The tokens of a text accept what the text stands for.** -/
theorem accepts_compile_iff {afterMany : Bool} (hcompile : compile m afterMany p = some toks)
    (s : List α) :
    accepts (passedMany afterMany toks) s = true ↔
      if afterMany then Matches m (m.many :: p) s else Matches m p s := by
  induction afterMany, p using compile.induct m generalizing toks s with
  | case1 afterMany =>
    cases hcompile
    refine accepts_passedMany_iff (fun s => ?_)
    rw [accepts_nil_iff, matches_nil_iff]
  | case2 afterMany => simp [compile] at hcompile
  | case3 afterMany d rest ih =>
    rw [compile_cons, if_pos rfl] at hcompile
    obtain ⟨toks', hrest, rfl⟩ := Option.map_eq_some_iff.mp hcompile
    have hletters : ∀ s, accepts toks' s = true ↔ Matches m rest s := ih hrest
    refine accepts_passedMany_iff (fun s => ?_)
    rw [accepts_exact_iff hletters, matches_escape_iff]
  | case4 afterMany rest hescape ih =>
    rw [compile_cons, if_neg hescape, if_pos rfl] at hcompile
    obtain ⟨toks', hrest, rfl⟩ := Option.map_eq_some_iff.mp hcompile
    have hmany := ih hrest s
    simp only [passedMany, if_true] at hmany
    cases afterMany with
    | false => exact hmany
    | true => exact hmany.trans matches_many_many_iff.symm
  | case5 afterMany rest hescape hmany ih =>
    rw [compile_cons, if_neg hescape, if_neg hmany, if_pos rfl] at hcompile
    obtain ⟨toks', hrest, rfl⟩ := Option.map_eq_some_iff.mp hcompile
    have hletters : ∀ s, accepts toks' s = true ↔ Matches m rest s := ih hrest
    refine accepts_passedMany_iff (fun s => ?_)
    rw [accepts_one_iff hletters, matches_one_iff]
  | case6 afterMany c rest hescape hmany hone ih =>
    rw [compile_cons, if_neg hescape, if_neg hmany, if_neg hone] at hcompile
    obtain ⟨toks', hrest, rfl⟩ := Option.map_eq_some_iff.mp hcompile
    have hletters : ∀ s, accepts toks' s = true ↔ Matches m rest s := ih hrest
    refine accepts_passedMany_iff (fun s => ?_)
    rw [accepts_exact_iff hletters, matches_ordinary_iff hescape hmany hone]

end Text

end Like
