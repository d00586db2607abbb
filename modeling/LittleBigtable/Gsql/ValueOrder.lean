import LittleBigtable.Gsql.NestedValue
import LittleBigtable.Lib.ThreeWay

/-!
# The order of nested values

`compareValues` is an order on the values of each type.  The facts are proved by induction
on the type: values of one type are compared part by part with parts of one type, and the
laws of comparing part by part are those of `ThreeWay`.
-/

namespace LittleBigtable
namespace Gsql

open Bttest List
open ThreeWay

section Types

mutual

theorem NestedType.induct {P : NestedType → Prop} (scalar : ∀ t, P (.scalar t)) (date : P .date)
    (array : ∀ t, P t → P (.array t))
    (struct : ∀ fields, (∀ f ∈ fields, P f.2) → P (.struct fields))
    (map : ∀ k v, P k → P v → P (.map k v)) :
    ∀ t, P t
  | .scalar t => scalar t
  | .date => date
  | .array t => array t (NestedType.induct scalar date array struct map t)
  | .struct fields => struct fields (NestedType.inductFields scalar date array struct map fields)
  | .map k v =>
    map k v (NestedType.induct scalar date array struct map k)
      (NestedType.induct scalar date array struct map v)

theorem NestedType.inductFields {P : NestedType → Prop} (scalar : ∀ t, P (.scalar t))
    (date : P .date) (array : ∀ t, P t → P (.array t))
    (struct : ∀ fields, (∀ f ∈ fields, P f.2) → P (.struct fields))
    (map : ∀ k v, P k → P v → P (.map k v)) :
    ∀ fields : List (String × NestedType), ∀ f ∈ fields, P f.2
  | [] => nofun
  | (name, t) :: fields => by
    intro f hf
    rcases List.mem_cons.mp hf with rfl | hf
    · exact NestedType.induct scalar date array struct map t
    · exact NestedType.inductFields scalar date array struct map fields f hf

end

variable {vs : List NestedValue} {t : NestedType} {fields : List (String × NestedType)}

theorem allHaveType_iff :
    NestedValue.AllHaveType vs t ↔ ∀ v ∈ vs, v.HasType t := by
  induction vs with
  | nil => simp [NestedValue.AllHaveType]
  | cons v vs ih => simp [NestedValue.AllHaveType, ih]

theorem entriesHaveType_iff {es : List (NestedValue × NestedValue)} {k v : NestedType} :
    NestedValue.EntriesHaveType es k v ↔ ∀ e ∈ es, e.1.HasType k ∧ e.2.HasType v := by
  induction es with
  | nil => simp [NestedValue.EntriesHaveType]
  | cons e es ih =>
    obtain ⟨x, y⟩ := e
    simp only [NestedValue.EntriesHaveType, ih, forall_mem_cons]

/-- The values of the fields of a struct. -/
def FieldAt (fields : List (String × NestedType)) (i : Nat) (v : NestedValue) : Prop :=
  ∃ f, fields[i]? = some f ∧ v.HasType f.2

theorem fieldsHaveType_iff :
    NestedValue.FieldsHaveType vs fields ↔
      vs.length = fields.length ∧ Placed (FieldAt fields) vs := by
  induction vs generalizing fields with
  | nil =>
    cases fields with
    | nil => simp [NestedValue.FieldsHaveType, Placed]
    | cons f fields => simp [NestedValue.FieldsHaveType]
  | cons v vs ih =>
    cases fields with
    | nil => simp [NestedValue.FieldsHaveType]
    | cons f fields =>
      obtain ⟨name, t⟩ := f
      rw [NestedValue.FieldsHaveType, ih, placed_cons_iff]
      constructor
      · rintro ⟨hv, hlen, hvs⟩
        exact ⟨congrArg Nat.succ hlen, ⟨_, rfl, hv⟩, hvs⟩
      · rintro ⟨hlen, ⟨f, hf, hv⟩, hvs⟩
        cases hf
        exact ⟨hv, Nat.succ.inj hlen, hvs⟩

def NestedValue.isNull : NestedValue → Bool
  | .scalar .null => true
  | _ => false

theorem eq_null_of_isNull {v : NestedValue} (h : v.isNull = true) :
    v = .scalar .null := by
  cases v with
  | scalar x =>
    cases x with
    | null => rfl
    | _ => cases h
  | _ => cases h

variable {v : NestedValue}

theorem NestedValue.HasType.eq_scalar {t : ScalarType} (h : v.HasType (.scalar t)) :
    ∃ x, v = .scalar x ∧ x.HasType t := by
  cases v with
  | scalar x =>
    refine ⟨x, rfl, ?_⟩
    cases x with
    | null => exact .null t
    | _ => exact h
  | _ => exact False.elim h

theorem NestedValue.HasType.eq_date (h : v.HasType .date) (hnull : v.isNull = false) :
    ∃ days, v = .date days ∧ -2 ^ 31 ≤ days ∧ days < 2 ^ 31 := by
  cases v with
  | scalar x =>
    cases x with
    | null => cases hnull
    | _ => exact False.elim h
  | date days => exact ⟨days, rfl, h⟩
  | _ => exact False.elim h

theorem NestedValue.HasType.eq_array (h : v.HasType (.array t)) (hnull : v.isNull = false) :
    ∃ elems, v = .array elems ∧ elems.length < 2 ^ 63 ∧ ∀ e ∈ elems, e.HasType t := by
  cases v with
  | scalar x =>
    cases x with
    | null => cases hnull
    | _ => exact False.elim h
  | array elems =>
    obtain ⟨hlen, helems⟩ := h
    exact ⟨elems, rfl, hlen, allHaveType_iff.mp helems⟩
  | _ => exact False.elim h

theorem NestedValue.HasType.eq_struct (h : v.HasType (.struct fields)) (hnull : v.isNull = false) :
    ∃ vs, v = .struct vs ∧ vs.length < 2 ^ 63 ∧ vs.length = fields.length ∧
      Placed (FieldAt fields) vs := by
  cases v with
  | scalar x =>
    cases x with
    | null => cases hnull
    | _ => exact False.elim h
  | struct vs =>
    obtain ⟨hlen, hvs⟩ := h
    exact ⟨vs, rfl, hlen, fieldsHaveType_iff.mp hvs⟩
  | _ => exact False.elim h

theorem NestedValue.HasType.eq_map {k : NestedType} (h : v.HasType (.map k t))
    (hnull : v.isNull = false) :
    ∃ es, v = .map es ∧ es.length < 2 ^ 63 ∧ ∀ e ∈ es, e.1.HasType k ∧ e.2.HasType t := by
  cases v with
  | scalar x =>
    cases x with
    | null => cases hnull
    | _ => exact False.elim h
  | map es =>
    obtain ⟨hlen, hes⟩ := h
    exact ⟨es, rfl, hlen, entriesHaveType_iff.mp hes⟩
  | _ => exact False.elim h

end Types

section Parts

/-- The comparison of two entries of a map. -/
def compareEntry (a b : NestedValue × NestedValue) : Ordering :=
  (a.1.compareValues b.1).then (a.2.compareValues b.2)

variable (xs ys : List NestedValue)

theorem compareElems_eq :
    NestedValue.compareElems xs ys = List.compareLex NestedValue.compareValues xs ys := by
  induction xs generalizing ys with
  | nil => cases ys <;> rfl
  | cons x xs ih =>
    cases ys with
    | nil => rfl
    | cons y ys => rw [NestedValue.compareElems, ih, List.compareLex_cons_cons]

theorem compareEntries_eq (xs ys : List (NestedValue × NestedValue)) :
    NestedValue.compareEntries xs ys = List.compareLex compareEntry xs ys := by
  induction xs generalizing ys with
  | nil => cases ys <;> rfl
  | cons x xs ih =>
    obtain ⟨k, x⟩ := x
    cases ys with
    | nil => rfl
    | cons y ys =>
      obtain ⟨l, y⟩ := y
      rw [NestedValue.compareEntries, ih, List.compareLex_cons_cons]
      rfl

@[simp] theorem compareValues_array :
    NestedValue.compareValues (.array xs) (.array ys) =
      List.compareLex NestedValue.compareValues xs ys :=
  compareElems_eq xs ys

@[simp] theorem compareValues_struct :
    NestedValue.compareValues (.struct xs) (.struct ys) =
      List.compareLex NestedValue.compareValues xs ys :=
  compareElems_eq xs ys

@[simp] theorem compareValues_map (xs ys : List (NestedValue × NestedValue)) :
    NestedValue.compareValues (.map xs) (.map ys) = List.compareLex compareEntry xs ys :=
  compareEntries_eq xs ys

@[simp] theorem compareValues_scalar (x y : ScalarValue) :
    NestedValue.compareValues (.scalar x) (.scalar y) = compareValues x y := by
  cases x <;> cases y <;> rfl

/-- `NULL` comes first. -/
theorem compareValues_of_isNull {a b : NestedValue} (h : a.isNull = true ∨ b.isNull = true) :
    a.compareValues b = compare b.isNull a.isNull := by
  rcases h with h | h
  · rw [eq_null_of_isNull h]
    cases b with
    | scalar y => cases y <;> rfl
    | _ => rfl
  · rw [eq_null_of_isNull h]
    cases a with
    | scalar x => cases x <;> rfl
    | _ => rfl

end Parts

section Scalars

/-- The place of a float; NaN is before all numbers. -/
def floatRank (bits : UInt64) : Option Int :=
  if isNaN bits then none else some (floatPlace bits)

theorem cmpFloat_eq_compare (a b : UInt64) :
    cmpFloat a b = compare (floatRank a) (floatRank b) := by
  unfold cmpFloat floatRank
  cases isNaN a with
  | true | false =>
    cases isNaN b with
    | true | false => rfl

/-- What the order reads of a scalar that is a number. -/
def numberOf : ScalarValue → Option Int
  | .bool b => some (if b then 1 else 0)
  | .int64 n => some n
  | .float bits => floatRank bits
  | .timestamp us => some us
  | _ => none

/-- What the order reads of a scalar that is a word. -/
def wordOf : ScalarValue → Bytes
  | .string s => s
  | .bytes b => b
  | _ => []

variable {x y : ScalarValue} {t : ScalarType}

/-- Scalars of one type are compared as numbers or as words. -/
theorem ScalarValue.HasType.compareValues_eq (hx : x.HasType t) (hy : y.HasType t) (hnx : x ≠ .null)
    (hny : y ≠ .null) :
    compareValues x y =
      (compare (numberOf x) (numberOf y)).then (compare (wordOf x) (wordOf y)) := by
  cases hx with
  | null => exact absurd rfl hnx
  | bool b =>
    cases hy with
    | null => exact absurd rfl hny
    | bool c => cases b <;> cases c <;> rfl
  | int64 =>
    cases hy with
    | null => exact absurd rfl hny
    | int64 => exact Ordering.then_eq.symm
  | float32 a =>
    cases hy with
    | null => exact absurd rfl hny
    | float32 b => exact (cmpFloat_eq_compare a b).trans Ordering.then_eq.symm
  | float64 a =>
    cases hy with
    | null => exact absurd rfl hny
    | float64 b => exact (cmpFloat_eq_compare a b).trans Ordering.then_eq.symm
  | string =>
    cases hy with
    | null => exact absurd rfl hny
    | string => rfl
  | bytes =>
    cases hy with
    | null => exact absurd rfl hny
    | bytes => rfl
  | timestamp =>
    cases hy with
    | null => exact absurd rfl hny
    | timestamp => exact Ordering.then_eq.symm

/-- Floats are the same value if the order does not tell them apart. -/
def canonScalar : ScalarValue → ScalarValue
  | .float bits => .float (canonicalFloat bits)
  | v => v

theorem floatPlace_injective {a b : UInt64} (h : floatPlace a = floatPlace b)
    (hzero : floatPlace b ≠ 0) :
    a = b := by
  have ha := a.toNat_lt
  have hb := b.toNat_lt
  unfold floatPlace floatMagnitude at h hzero
  refine UInt64.toNat_inj.mp ?_
  split_ifs at h hzero <;> omega

theorem floatRank_canonicalFloat (bits : UInt64) :
    floatRank (canonicalFloat bits) = floatRank bits := by
  unfold canonicalFloat
  split_ifs with hnan hzero
  · unfold floatRank
    rw [if_pos hnan, if_pos (by decide)]
  · unfold floatRank
    rw [if_neg hnan, if_neg (by decide), hzero]
    rfl
  · rfl

theorem floatRank_eq_iff {a b : UInt64} :
    floatRank a = floatRank b ↔ canonicalFloat a = canonicalFloat b := by
  constructor
  · intro h
    unfold floatRank at h
    unfold canonicalFloat
    by_cases ha : isNaN a = true
    · rw [if_pos ha] at h ⊢
      by_cases hb : isNaN b = true
      · rw [if_pos hb]
      · rw [if_neg hb] at h
        cases h
    rw [if_neg ha] at h ⊢
    by_cases hb : isNaN b = true
    · rw [if_pos hb] at h
      cases h
    rw [if_neg hb] at h ⊢
    have hplace := Option.some.inj h
    rw [hplace]
    split_ifs with hzero
    · rfl
    · exact floatPlace_injective hplace hzero
  · intro h
    rw [← floatRank_canonicalFloat a, h, floatRank_canonicalFloat b]

/-- Scalars of one type compare as equal if they are the same value. -/
theorem ScalarValue.HasType.compareValues_eq_iff (hx : x.HasType t) (hy : y.HasType t)
    (hnx : x ≠ .null) (hny : y ≠ .null) :
    compareValues x y = .eq ↔ canonScalar x = canonScalar y := by
  rw [hx.compareValues_eq hy hnx hny, Ordering.then_eq_eq, Std.compare_eq_iff_eq,
    Std.compare_eq_iff_eq]
  cases hx with
  | null => exact absurd rfl hnx
  | bool b =>
    cases hy with
    | null => exact absurd rfl hny
    | bool c => cases b <;> cases c <;> simp [numberOf, wordOf, canonScalar]
  | float32 a =>
    cases hy with
    | null => exact absurd rfl hny
    | float32 b => simp [numberOf, wordOf, canonScalar, floatRank_eq_iff]
  | float64 a =>
    cases hy with
    | null => exact absurd rfl hny
    | float64 b => simp [numberOf, wordOf, canonScalar, floatRank_eq_iff]
  | _ =>
    cases hy with
    | null => exact absurd rfl hny
    | _ => simp [numberOf, wordOf, canonScalar]

end Scalars

section Laws

mutual

/-- The value with its floats in canonical form. -/
def NestedValue.canon : NestedValue → NestedValue
  | .scalar v => .scalar (canonScalar v)
  | .date days => .date days
  | .array elems => .array (NestedValue.canonElems elems)
  | .struct fields => .struct (NestedValue.canonElems fields)
  | .map entries => .map (NestedValue.canonEntries entries)

def NestedValue.canonElems : List NestedValue → List NestedValue
  | [] => []
  | v :: vs => v.canon :: NestedValue.canonElems vs

def NestedValue.canonEntries :
    List (NestedValue × NestedValue) → List (NestedValue × NestedValue)
  | [] => []
  | (k, v) :: es => (k.canon, v.canon) :: NestedValue.canonEntries es

end

@[simp] theorem canonElems_eq (vs : List NestedValue) :
    NestedValue.canonElems vs = vs.map NestedValue.canon := by
  induction vs with
  | nil => rfl
  | cons v vs ih => rw [NestedValue.canonElems, ih, map_cons]

@[simp] theorem canonEntries_eq (es : List (NestedValue × NestedValue)) :
    NestedValue.canonEntries es = es.map (Prod.map NestedValue.canon NestedValue.canon) := by
  induction es with
  | nil => rfl
  | cons e es ih =>
    rw [NestedValue.canonEntries, ih, map_cons]
    rfl

theorem isNull_canon (v : NestedValue) :
    v.canon.isNull = v.isNull := by
  cases v with
  | scalar x => cases x <;> rfl
  | _ => rfl

variable {a b c : NestedValue}

/-- The order of `NULL` and the others needs no proof. -/
theorem chain_of_nonNull
    (h : a.isNull = false → b.isNull = false → c.isNull = false →
      Chain (a.compareValues b) (b.compareValues c) (a.compareValues c)) :
    Chain (a.compareValues b) (b.compareValues c) (a.compareValues c) := by
  cases ha : a.isNull with
  | true =>
    rw [compareValues_of_isNull (.inl ha), compareValues_of_isNull (.inl ha), ha]
    cases hb : b.isNull with
    | true =>
      rw [compareValues_of_isNull (.inl hb), hb]
      intro _ _
      rfl
    | false =>
      intro _ hbc
      cases hc : c.isNull with
      | true =>
        rw [compareValues_of_isNull (.inr hc), hb, hc] at hbc
        exact absurd rfl hbc
      | false => rfl
  | false =>
    cases hb : b.isNull with
    | true =>
      rw [compareValues_of_isNull (.inr hb), ha, hb]
      intro hab
      exact absurd rfl hab
    | false =>
      cases hc : c.isNull with
      | true =>
        rw [compareValues_of_isNull (a := b) (.inr hc), hb, hc]
        intro _ hbc
        exact absurd rfl hbc
      | false => exact h ha hb hc

theorem canon_iff_of_nonNull
    (h : a.isNull = false → b.isNull = false → (a.compareValues b = .eq ↔ a.canon = b.canon)) :
    a.compareValues b = .eq ↔ a.canon = b.canon := by
  by_cases hnull : a.isNull = true ∨ b.isNull = true
  · rw [compareValues_of_isNull hnull, Std.compare_eq_iff_eq]
    constructor
    · intro hab
      have ha : a.isNull = true := by
        rcases hnull with ha | hb
        · exact ha
        · rw [← hab]
          exact hb
      have hb : b.isNull = true := hab.trans ha
      rw [eq_null_of_isNull ha, eq_null_of_isNull hb]
    · intro hab
      rw [← isNull_canon a, hab, isNull_canon b]
  · push Not at hnull
    exact h (Bool.eq_false_of_not_eq_true hnull.1) (Bool.eq_false_of_not_eq_true hnull.2)

theorem scalar_ne_null {x : ScalarValue} (h : (NestedValue.scalar x).isNull = false) :
    x ≠ .null := by
  rintro rfl
  cases h

theorem scalar_swap (x y : ScalarValue) :
    compareValues y x = (compareValues x y).swap := by
  cases x <;> cases y <;>
    first
    | rfl
    | exact Std.OrientedOrd.eq_swap
    | (simp only [compareValues, cmpFloat_eq_compare]; exact Std.OrientedOrd.eq_swap)

mutual

/-- The comparison of any two values, also of two types, is that of the exchanged ones. -/
theorem compareValues_swap :
    ∀ a b : NestedValue, b.compareValues a = (a.compareValues b).swap
  | .scalar x, .scalar y => by
    rw [compareValues_scalar, compareValues_scalar, scalar_swap]
  | .date _, .date _ => Std.OrientedOrd.eq_swap
  | .array xs, .array ys => compareElems_swap xs ys
  | .struct xs, .struct ys => compareElems_swap xs ys
  | .map xs, .map ys => compareEntries_swap xs ys
  | .scalar x, .date _ => by cases x <;> rfl
  | .scalar x, .array _ => by cases x <;> rfl
  | .scalar x, .struct _ => by cases x <;> rfl
  | .scalar x, .map _ => by cases x <;> rfl
  | .date _, .scalar y => by cases y <;> rfl
  | .array _, .scalar y => by cases y <;> rfl
  | .struct _, .scalar y => by cases y <;> rfl
  | .map _, .scalar y => by cases y <;> rfl
  | .date _, .array _ | .date _, .struct _ | .date _, .map _ => rfl
  | .array _, .date _ | .array _, .struct _ | .array _, .map _ => rfl
  | .struct _, .date _ | .struct _, .array _ | .struct _, .map _ => rfl
  | .map _, .date _ | .map _, .array _ | .map _, .struct _ => rfl

theorem compareElems_swap :
    ∀ xs ys : List NestedValue,
      NestedValue.compareElems ys xs = (NestedValue.compareElems xs ys).swap
  | [], [] => rfl
  | [], _ :: _ => rfl
  | _ :: _, [] => rfl
  | x :: xs, y :: ys => by
    rw [NestedValue.compareElems, NestedValue.compareElems, Ordering.swap_then,
      compareValues_swap x y, compareElems_swap xs ys]

theorem compareEntries_swap :
    ∀ xs ys : List (NestedValue × NestedValue),
      NestedValue.compareEntries ys xs = (NestedValue.compareEntries xs ys).swap
  | [], [] => rfl
  | [], _ :: _ => rfl
  | _ :: _, [] => rfl
  | (k, x) :: xs, (l, y) :: ys => by
    rw [NestedValue.compareEntries, NestedValue.compareEntries, Ordering.swap_then,
      Ordering.swap_then, compareValues_swap k l, compareValues_swap x y,
      compareEntries_swap xs ys]

end

theorem FieldAt.same {fields : List (String × NestedType)} {i : Nat} {x y : NestedValue}
    (hx : FieldAt fields i x) (hy : FieldAt fields i y) :
    ∃ f ∈ fields, x.HasType f.2 ∧ y.HasType f.2 := by
  obtain ⟨f, hf, hx⟩ := hx
  obtain ⟨g, hg, hy⟩ := hy
  cases hf.symm.trans hg
  exact ⟨f, mem_of_getElem? hf, hx, hy⟩

theorem compareValues_chain {t : NestedType} (ha : a.HasType t) (hb : b.HasType t)
    (hc : c.HasType t) :
    Chain (a.compareValues b) (b.compareValues c) (a.compareValues c) := by
  induction t using NestedType.induct generalizing a b c with
    refine chain_of_nonNull fun hna hnb hnc => ?_
  | scalar t =>
    obtain ⟨x, rfl, hx⟩ := ha.eq_scalar
    obtain ⟨y, rfl, hy⟩ := hb.eq_scalar
    obtain ⟨z, rfl, hz⟩ := hc.eq_scalar
    have hnx := scalar_ne_null hna
    have hny := scalar_ne_null hnb
    have hnz := scalar_ne_null hnc
    rw [compareValues_scalar, compareValues_scalar, compareValues_scalar,
      hx.compareValues_eq hy hnx hny, hy.compareValues_eq hz hny hnz,
      hx.compareValues_eq hz hnx hnz]
    exact (chain_compare _ _ _).then (chain_compare _ _ _)
  | date =>
    obtain ⟨x, rfl, _⟩ := ha.eq_date hna
    obtain ⟨y, rfl, _⟩ := hb.eq_date hnb
    obtain ⟨z, rfl, _⟩ := hc.eq_date hnc
    exact chain_compare x y z
  | array t ih =>
    obtain ⟨xs, rfl, _, hxs⟩ := ha.eq_array hna
    obtain ⟨ys, rfl, _, hys⟩ := hb.eq_array hnb
    obtain ⟨zs, rfl, _, hzs⟩ := hc.eq_array hnc
    rw [compareValues_array, compareValues_array, compareValues_array]
    exact compareLex_chain (fun _ _ _ _ hx hy hz => ih hx hy hz)
      (placed_of_forall_mem hxs) (placed_of_forall_mem hys) (placed_of_forall_mem hzs)
  | struct fields ih =>
    obtain ⟨xs, rfl, _, _, hxs⟩ := ha.eq_struct hna
    obtain ⟨ys, rfl, _, _, hys⟩ := hb.eq_struct hnb
    obtain ⟨zs, rfl, _, _, hzs⟩ := hc.eq_struct hnc
    rw [compareValues_struct, compareValues_struct, compareValues_struct]
    refine compareLex_chain (fun i x y z hx hy hz => ?_) hxs hys hzs
    obtain ⟨f, hf, hx⟩ := hx
    obtain ⟨g, hg, hy⟩ := hy
    obtain ⟨g', hg', hz⟩ := hz
    cases hf.symm.trans hg
    cases hf.symm.trans hg'
    exact ih f (mem_of_getElem? hf) hx hy hz
  | map k v ihk ihv =>
    obtain ⟨xs, rfl, _, hxs⟩ := ha.eq_map hna
    obtain ⟨ys, rfl, _, hys⟩ := hb.eq_map hnb
    obtain ⟨zs, rfl, _, hzs⟩ := hc.eq_map hnc
    rw [compareValues_map, compareValues_map, compareValues_map]
    refine compareLex_chain (fun _ x y z hx hy hz => ?_) (placed_of_forall_mem hxs)
      (placed_of_forall_mem hys) (placed_of_forall_mem hzs)
    exact (ihk hx.1 hy.1 hz.1).then (ihv hx.2 hy.2 hz.2)

/-- Values of one type compare as equal if they are the same value. -/
theorem compareValues_eq_iff {t : NestedType} (ha : a.HasType t) (hb : b.HasType t) :
    a.compareValues b = .eq ↔ a.canon = b.canon := by
  induction t using NestedType.induct generalizing a b with
    refine canon_iff_of_nonNull fun hna hnb => ?_
  | scalar t =>
    obtain ⟨x, rfl, hx⟩ := ha.eq_scalar
    obtain ⟨y, rfl, hy⟩ := hb.eq_scalar
    rw [compareValues_scalar, hx.compareValues_eq_iff hy (scalar_ne_null hna) (scalar_ne_null hnb)]
    simp [NestedValue.canon]
  | date =>
    obtain ⟨x, rfl, _⟩ := ha.eq_date hna
    obtain ⟨y, rfl, _⟩ := hb.eq_date hnb
    simp [NestedValue.canon, NestedValue.compareValues]
  | array t ih =>
    obtain ⟨xs, rfl, _, hxs⟩ := ha.eq_array hna
    obtain ⟨ys, rfl, _, hys⟩ := hb.eq_array hnb
    have hparts : ∀ x y : NestedValue, x.HasType t → y.HasType t →
        (x.compareValues y = .eq ↔ x.canon = y.canon) :=
      fun x y hx hy => ih hx hy
    rw [compareValues_array, compareLex_eq_iff (fun _ => hparts) (placed_of_forall_mem hxs)
      (placed_of_forall_mem hys)]
    simp [NestedValue.canon]
  | struct fields ih =>
    obtain ⟨xs, rfl, _, _, hxs⟩ := ha.eq_struct hna
    obtain ⟨ys, rfl, _, _, hys⟩ := hb.eq_struct hnb
    have hparts : ∀ i x y, FieldAt fields i x → FieldAt fields i y →
        (x.compareValues y = .eq ↔ x.canon = y.canon) := by
      intro i x y hx hy
      obtain ⟨f, hf, hx, hy⟩ := hx.same hy
      exact ih f hf hx hy
    rw [compareValues_struct, compareLex_eq_iff hparts hxs hys]
    simp [NestedValue.canon]
  | map k v ihk ihv =>
    obtain ⟨xs, rfl, _, hxs⟩ := ha.eq_map hna
    obtain ⟨ys, rfl, _, hys⟩ := hb.eq_map hnb
    have hparts : ∀ e e' : NestedValue × NestedValue, e.1.HasType k ∧ e.2.HasType v →
        e'.1.HasType k ∧ e'.2.HasType v → (compareEntry e e' = .eq ↔
          Prod.map NestedValue.canon NestedValue.canon e =
            Prod.map NestedValue.canon NestedValue.canon e') := by
      intro e e' he he'
      unfold compareEntry
      rw [Ordering.then_eq_eq, ihk he.1 he'.1, ihv he.2 he'.2, Prod.ext_iff]
      rfl
    rw [compareValues_map, compareLex_eq_iff (fun _ => hparts)
      (placed_of_forall_mem hxs) (placed_of_forall_mem hys)]
    simp [NestedValue.canon]

end Laws

end Gsql
end LittleBigtable
