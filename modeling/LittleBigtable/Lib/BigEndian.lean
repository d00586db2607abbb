import LittleBigtable.Lib.Lexicographic
import Mathlib.Data.Nat.Digits.Defs
import Mathlib.Tactic.Ring

/-!
# Big-endian numbers

The number that a byte list denotes, most significant byte first, and the byte
list of a given length that denotes a number.  Byte lists of one length are in the
order of the numbers they denote.
-/

namespace LittleBigtable
namespace BigEndian

open List

/-- The number that a byte list denotes. -/
def value (b : List UInt8) : Nat :=
  b.foldl (fun acc c => acc * 256 + c.toNat) 0

/-- The low `n` bytes of a number. -/
def digits (n v : Nat) : List UInt8 :=
  (List.range n).reverse.map (fun k => UInt8.ofNat (v / 256 ^ k))

@[simp] theorem value_nil :
    value [] = 0 := by
  rfl

variable (n v : Nat)

@[simp] theorem length_digits :
    (digits n v).length = n := by
  simp [digits]

theorem foldl_eq (b : List UInt8) (acc : Nat) :
    b.foldl (fun acc c => acc * 256 + c.toNat) acc = acc * 256 ^ b.length + value b := by
  induction b generalizing acc with
  | nil => simp
  | cons c b ih =>
    unfold value
    simp only [foldl_cons, length_cons]
    rw [ih, ih (0 * 256 + c.toNat)]
    ring

theorem value_cons (c : UInt8) (b : List UInt8) :
    value (c :: b) = c.toNat * 256 ^ b.length + value b := by
  unfold value
  rw [foldl_cons, foldl_eq]
  simp [value]

theorem value_lt (b : List UInt8) :
    value b < 256 ^ b.length := by
  induction b with
  | nil => simp
  | cons c b ih =>
    have hc : c.toNat < 256 := c.toNat_lt
    rw [value_cons, length_cons, Nat.pow_succ]
    calc c.toNat * 256 ^ b.length + value b < (c.toNat + 1) * 256 ^ b.length := by
          rw [Nat.add_mul]
          omega
      _ ≤ 256 * 256 ^ b.length := Nat.mul_le_mul_right _ (by omega)
      _ = 256 ^ b.length * 256 := Nat.mul_comm _ _

/-- Byte lists of one length denote different numbers. -/
theorem value_injective {b₁ b₂ : List UInt8} (hlength : b₁.length = b₂.length)
    (h : value b₁ = value b₂) :
    b₁ = b₂ := by
  induction b₁ generalizing b₂ with
  | nil => exact (length_eq_zero_iff.mp hlength.symm).symm
  | cons c₁ b₁ ih =>
    cases b₂ with
    | nil => simp at hlength
    | cons c₂ b₂ =>
      have hlen : b₁.length = b₂.length := by
        simpa using hlength
      rw [value_cons, value_cons, ← hlen] at h
      have h₁ := value_lt b₁
      have h₂ := value_lt b₂
      rw [← hlen] at h₂
      -- quotient and remainder by the weight of the first byte
      have hquot := congrArg (fun n => n / 256 ^ b₁.length) h
      have hrem := congrArg (fun n => n % 256 ^ b₁.length) h
      simp only [Nat.mul_comm _ (256 ^ b₁.length), Nat.mul_add_mod,
        Nat.mod_eq_of_lt h₁, Nat.mod_eq_of_lt h₂] at hrem
      have hpos : 0 < 256 ^ b₁.length := Nat.pow_pos (by omega)
      simp only [Nat.mul_comm _ (256 ^ b₁.length), Nat.mul_add_div hpos,
        Nat.div_eq_of_lt h₁, Nat.div_eq_of_lt h₂, Nat.add_zero] at hquot
      rw [ih hlen hrem, UInt8.toNat_inj.mp hquot]

/-- Byte lists of one length are in the order of their numbers. -/
theorem before_of_value_lt {b₁ b₂ : List UInt8} (hlength : b₁.length = b₂.length)
    (h : value b₁ < value b₂) :
    Lexicographic.Before b₁ b₂ := by
  induction b₁ generalizing b₂ with
  | nil =>
    rw [length_eq_zero_iff.mp hlength.symm] at h
    exact absurd h (Nat.lt_irrefl _)
  | cons c₁ b₁ ih =>
    cases b₂ with
    | nil => simp at hlength
    | cons c₂ b₂ =>
      have hlen : b₁.length = b₂.length := by
        simpa using hlength
      rw [value_cons, value_cons, ← hlen] at h
      rcases Nat.lt_trichotomy c₁.toNat c₂.toNat with hlt | heq | hgt
      · exact ⟨[], c₁, c₂, b₁, b₂, rfl, rfl, UInt8.lt_iff_toNat_lt.mpr hlt⟩
      · rw [heq] at h
        rw [UInt8.toNat_inj.mp heq]
        exact (ih hlen (Nat.lt_of_add_lt_add_left h)).prepend [c₂]
      -- the first byte outweighs the others
      have hweight : (c₂.toNat + 1) * 256 ^ b₁.length ≤
          c₁.toNat * 256 ^ b₁.length := Nat.mul_le_mul_right _ hgt
      have hrest := value_lt b₂
      rw [← hlen] at hrest
      rw [Nat.add_mul, Nat.one_mul] at hweight
      omega

theorem digits_succ :
    digits (n + 1) v = UInt8.ofNat (v / 256 ^ n) :: digits n v := by
  simp [digits, range_succ]

theorem digits_add (m k v : Nat) :
    digits (m + k) v = digits m (v / 256 ^ k) ++ digits k v := by
  induction m with
  | zero => simp [digits]
  | succ m ih =>
    rw [Nat.add_right_comm, digits_succ, digits_succ, ih, Nat.div_div_eq_div_mul,
      ← Nat.pow_add, Nat.add_comm k m]
    rfl

theorem getElem?_digits {n j : Nat} (hj : j < n) (v : Nat) :
    (digits n v)[j]? = some (UInt8.ofNat (v / 256 ^ (n - 1 - j))) := by
  have hlt : n - 1 - j < n := by omega
  rw [digits, getElem?_map, getElem?_reverse (by simpa using hj),
    length_range, getElem?_range hlt]
  rfl

/-- The low `n` bytes denote the number modulo `256 ^ n`. -/
theorem value_digits :
    value (digits n v) = v % 256 ^ n := by
  induction n with
  | zero => simp [digits, Nat.mod_one]
  | succ n ih =>
    rw [digits_succ, value_cons, ih, length_digits, Nat.mod_pow_succ]
    simp only [UInt8.toNat_ofNat']
    ring

end BigEndian
end LittleBigtable
