import LittleBigtable.Gsql.PushdownSound
import LittleBigtable.Lib.Utf8

/-!
# The `LIKE` operator

`match` walks through the text and the tokens of the pattern with two positions, and
goes back to the last `%` at a mismatch.  Patterns over `STRING` are compiled and matched
by code point, patterns over `BYTES` by byte.

`like_correct` says that `match` ends, that it finds what the text of the pattern stands
for, and that the literal prefix of a pattern over `BYTES` is what it says.
-/

namespace LittleBigtable
namespace Gsql

open Bttest List

section Compile

/-- The marks of patterns over `BYTES`. -/
def byteMarks : Like.Marks UInt8 where
  escape := 0x5C
  many := 0x25
  one := 0x5F
  escape_ne_many := by decide
  escape_ne_one := by decide
  many_ne_one := by decide

/-- The marks of patterns over `STRING`. -/
def charMarks : Like.Marks Char where
  escape := '\\'
  many := '%'
  one := '_'
  escape_ne_many := by decide
  escape_ne_one := by decide
  many_ne_one := by decide

/-- `[]rune`; bytes that are no code point are read as U+FFFD. -/
def codePoints (s : Bytes) : List Char :=
  (Utf8.runes s).map Utf8.Rune.value

/-- The tokens, or the error of a pattern that ends in a backslash. -/
def compiled {α : Type} : Option (List (Like.Token α)) → Except Status (List (Like.Token α))
  | none => .error (evalErrorf "LIKE pattern ends with a backslash" [])
  | some toks => .ok toks

/-- `compileLike` of a pattern over `STRING`. -/
def compileLikeString (pat : Bytes) : Except Status (List (Like.Token Char)) :=
  compiled (Like.compile charMarks false (codePoints pat))

theorem compiled_map {α : Type} (f : List (Like.Token α) → List (Like.Token α))
    (toks : Option (List (Like.Token α))) :
    compiled (toks.map f) = (compiled toks).map f := by
  cases toks with
  | none | some => rfl

theorem compiled_eq_ok {α : Type} {res : Option (List (Like.Token α))} {toks : List (Like.Token α)}
    (h : compiled res = .ok toks) :
    res = some toks := by
  cases res with
  | none => cases h
  | some toks' =>
    cases h
    rfl

theorem compileTokens_eq (afterMany : Bool) (pat : Bytes) :
    compileTokens afterMany pat = compiled (Like.compile byteMarks afterMany pat) := by
  induction pat using twoStepInduction generalizing afterMany with
  | nil => rfl
  | singleton c =>
    rw [Like.compile_cons]
    simp only [apply_ite compiled]
    rfl
  | cons_cons c d rest ih ih' =>
    rw [Like.compile_cons]
    unfold compileTokens
    simp only [apply_ite compiled, ih, ih', compiled_map]
    rfl

end Compile

section Match

variable {α : Type} [DecidableEq α]

/-- The loops of `match`: `si` and `pi` are the positions in the text and in the tokens, `star` is the
position of the last `%` that was passed and the one in the text it was last tried with.
The result is `none` if the loop does not end within `fuel` rounds. -/
def matchLoop (toks : List (Like.Token α)) (s : List α) :
    Nat → Nat → Nat → Option (Nat × Nat) → Option Bool
  | 0, _, _, _ => none
  | fuel + 1, si, pi, star =>
    -- a mismatch: the last `%` takes one more letter
    let back : Option Bool :=
      match star with
      | none => some false
      | some (starP, starS) =>
        matchLoop toks s fuel (starS + 1) (starP + 1) (some (starP, starS + 1))
    match s[si]? with
    | none => some (decide ((toks.drop pi).dropWhile (fun t => decide (t = .many)) = []))
    | some c =>
      match toks[pi]? with
      | some .many => matchLoop toks s fuel si (pi + 1) (some (pi, si))
      | some .one => matchLoop toks s fuel (si + 1) (pi + 1) star
      | some (.exact r) => if c = r then matchLoop toks s fuel (si + 1) (pi + 1) star else back
      | none => back

/-- `match`. -/
def likeMatch (fuel : Nat) (toks : List (Like.Token α)) (s : List α) : Option Bool :=
  matchLoop toks s fuel 0 0 none

variable (toks : List (Like.Token α))

/-- What is left at two positions is what the loop over lists has. -/
theorem matchLoop_eq (s : List α) (fuel si pi : Nat) (star : Option (Nat × Nat)) :
    matchLoop toks s fuel si pi star =
      Like.countedLoop fuel (toks.drop pi) (s.drop si)
        (star.map (fun x => (toks.drop (x.1 + 1), s.drop x.2))) := by
  induction fuel generalizing si pi star with
  | zero => rfl
  | succ fuel ih =>
    have hback : (match star with
        | none => some false
        | some (starP, starS) =>
          matchLoop toks s fuel (starS + 1) (starP + 1) (some (starP, starS + 1))) =
        Like.countedRetry (Like.countedLoop fuel)
          (star.map (fun x => (toks.drop (x.1 + 1), s.drop x.2))) := by
      cases star with
      | none => rfl
      | some x => simp only [ih, Option.map_some, Like.countedRetry, tail_drop]
    unfold matchLoop
    simp only [hback]
    cases hs : s.drop si with
    | nil =>
      have hlen : s[si]? = none := by
        rw [getElem?_eq_none_iff]
        exact drop_eq_nil_iff.mp hs
      rw [hlen]
      cases toks.drop pi <;> rfl
    | cons c rest =>
      have hget : s[si]? = some c := by
        rw [← List.head?_drop, hs]
        rfl
      have hrest : s.drop (si + 1) = rest := by
        rw [← tail_drop, hs]
        rfl
      rw [hget]
      cases ht : toks.drop pi with
      | nil =>
        have hnone : toks[pi]? = none := by
          rw [getElem?_eq_none_iff]
          exact drop_eq_nil_iff.mp ht
        rw [hnone]
        rfl
      | cons t rest' =>
        have htok : toks[pi]? = some t := by
          rw [← List.head?_drop, ht]
          rfl
        have hrest' : toks.drop (pi + 1) = rest' := by
          rw [← tail_drop, ht]
          rfl
        rw [htok]
        cases t with
        | many =>
          simp only [ih, hs, hrest', Option.map_some]
          rfl
        | one | exact =>
          simp only [ih, hrest, hrest']
          rfl

/-- `match` ends, with the answer whether the tokens accept the text. -/
theorem likeMatch_eq_accepts (s : List α) {fuel : Nat} (hfuel : Like.rounds toks s ≤ fuel) :
    likeMatch fuel toks s = some (Like.accepts toks s) := by
  unfold likeMatch
  rw [matchLoop_eq]
  exact Like.countedLoop_start toks s hfuel

/-- Whatever the marks are, `match` decides what the text of the pattern stands for. -/
theorem likeMatch_compile {m : Like.Marks α} {pat : List α} {toks : List (Like.Token α)}
    (hcompile : Like.compile m false pat = some toks) (s : List α) :
    ∃ found, (∃ rounds, ∀ fuel, rounds ≤ fuel → likeMatch fuel toks s = some found) ∧
      (found = true ↔ Like.Matches m pat s) :=
  ⟨Like.accepts toks s, ⟨Like.rounds toks s, fun _ hfuel => likeMatch_eq_accepts toks s hfuel⟩,
    Like.accepts_compile_iff hcompile s⟩

end Match

section Correct

/-- **`LIKE` matches its pattern language.**  For every pattern that compiles the loop
ends and finds exactly the texts that the pattern stands for, by byte and by code point;
and a text over `BYTES` that matches starts with the literal prefix of the pattern, and is
the prefix if the pattern is nothing else. -/
theorem like_correct (pat s : Bytes) :
    (∀ toks, compileLike pat = .ok toks →
      (∃ found,
        (∃ rounds, ∀ fuel, rounds ≤ fuel → likeMatch fuel toks s = some found) ∧
        (found = true ↔ Like.Matches byteMarks pat s)) ∧
      (Like.Matches byteMarks pat s →
        (likePrefix pat).1 <+: s ∧ ((likePrefix pat).2 = true → s = (likePrefix pat).1))) ∧
    (∀ toks, compileLikeString pat = .ok toks →
      ∃ found,
        (∃ rounds, ∀ fuel, rounds ≤ fuel → likeMatch fuel toks (codePoints s) = some found) ∧
        (found = true ↔ Like.Matches charMarks (codePoints pat) (codePoints s))) := by
  refine ⟨fun toks hcompile => ?_, fun toks hcompile => ?_⟩
  · have htoks : Like.compile byteMarks false pat = some toks := by
      unfold compileLike at hcompile
      rw [compileTokens_eq] at hcompile
      exact compiled_eq_ok hcompile
    refine ⟨likeMatch_compile htoks s, fun hmatches => ?_⟩
    exact likePrefix_sound hcompile ((Like.accepts_compile_iff htoks s).mpr hmatches)
  · exact likeMatch_compile (compiled_eq_ok hcompile) (codePoints s)

/-- The pattern `a\_%` and the text `a_b`. -/
theorem like_correct_escaped :
    (∃ rounds, ∀ fuel, rounds ≤ fuel →
      likeMatch fuel [.exact 0x61, .exact 0x5F, .many] ([0x61, 0x5F, 0x62] : Bytes) = some true) ∧
    likePrefix [0x61, 0x5C, 0x5F, 0x25] = ([0x61, 0x5F], false) ∧
    ([0x61, 0x5F] : Bytes) <+: [0x61, 0x5F, 0x62] := by
  have hmatches : Like.Matches byteMarks [0x61, 0x5C, 0x5F, 0x25] [0x61, 0x5F, 0x62] := by
    refine .ordinary 0x61 (by decide) (by decide) (by decide) (.escaped 0x5F ?_)
    exact .many [0x62] .nil
  obtain ⟨⟨found, hends, hfound⟩, hstart⟩ :=
    (like_correct [0x61, 0x5C, 0x5F, 0x25] [0x61, 0x5F, 0x62]).1
      [.exact 0x61, .exact 0x5F, .many] rfl
  rw [hfound.mpr hmatches] at hends
  exact ⟨hends, rfl, (hstart hmatches).1⟩

end Correct

end Gsql
end LittleBigtable
