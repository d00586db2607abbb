import LittleBigtable.Gsql.QueryRun
import LittleBigtable.Lib.Fallible

/-!
# The key ranges lose no row

A row for which the `WHERE` clause is true has its key in the ranges that the clause
leaves (`rangesFor_sound`).  The proof follows the expression: what a side of `AND`
leaves out is not true, `OR` is true through one of its sides, and every operator that
compares the key with a constant is true on the keys of its range only.

The constants are evaluated once for the ranges and once for every row.  Both give the
same value if the constant draws no random number; `steady` says so for the constants
that the key is compared with.
-/

namespace LittleBigtable
namespace Gsql

open Bttest List
open HalfOpen

section Found

variable {κ : Type}

/-- No parameter or column in the place of a condition has the name of an operator. -/
def BExpr.namesClear : BExpr κ → Bool
  | .and l r => l.namesClear && r.namesClear
  | .or l r => l.namesClear && r.namesClear
  | .param _ name _ => decide (name ∉ operatorNames)
  | .column name _ => decide (name ∉ operatorNames)
  | _ => true

theorem rangesFor_sides
    {combine : Option (List ScanRange) → Option (List ScanRange) → Option (List ScanRange)}
    {l r : Except Panic (Option (List ScanRange))} {res : Option (List ScanRange)}
    (h : (do let a ← l; let b ← r; .ok (combine a b)) = .ok res) :
    ∃ a b, l = .ok a ∧ r = .ok b ∧ res = combine a b := by
  cases l with
  | error p => cases h
  | ok a =>
    cases r with
    | error p => cases h
    | ok b =>
      cases h
      exact ⟨a, b, rfl, rfl, rfl⟩

theorem leaf_eq_ok_iff {name : String} :
    (∃ res, (if name ∈ operatorNames then .error .indexOutOfRange else .ok none :
        Except Panic (Option (List ScanRange))) = .ok res) ↔
      decide (name ∉ operatorNames) = true := by
  by_cases hname : name ∈ operatorNames
  · simp [hname]
  · simp [hname]

/-- **The ranges are found exactly if no name is mistaken for an operator.** -/
theorem rangesFor_eq_ok_iff (ec : EvalCtx κ) (e : BExpr κ) (path : List Nat) :
    (∃ res, rangesFor ec e path = .ok res) ↔ e.namesClear = true := by
  cases e with
  | and l r | or l r =>
    simp only [BExpr.namesClear, Bool.and_eq_true, ← rangesFor_eq_ok_iff ec l (0 :: path),
      ← rangesFor_eq_ok_iff ec r (1 :: path)]
    constructor
    · rintro ⟨res, h⟩
      obtain ⟨a, b, ha, hb, _⟩ := rangesFor_sides h
      exact ⟨⟨a, ha⟩, b, hb⟩
    · rintro ⟨⟨a, ha⟩, b, hb⟩
      exact ⟨_, by rw [rangesFor, ha, hb]; rfl⟩
  | param | column => exact leaf_eq_ok_iff
  | compare op l r =>
    refine iff_of_true ?_ rfl
    cases op <;> simp only [rangesFor] <;> (repeat' split) <;> exact ⟨_, rfl⟩
  | inList negated | inUnnest negated | between negated | like negated =>
    refine iff_of_true ?_ rfl
    cases negated <;> simp only [rangesFor] <;> (repeat' split) <;> exact ⟨_, rfl⟩
  | startsWith x p =>
    refine iff_of_true ?_ rfl
    simp only [rangesFor]
    (repeat' split) <;> exact ⟨_, rfl⟩
  | const | groupRef | aggRef | rand | call => exact iff_of_true ⟨_, rfl⟩ rfl

end Found

section Keys

theorem zero_le_byte (a : UInt8) :
    (0 : UInt8) ≤ a := by
  rw [UInt8.le_iff_toNat_le]
  exact Nat.zero_le _

variable {k v : Bytes}

theorem lt_keySuccessor_iff :
    k < keySuccessor v ↔ k ≤ v :=
  Lexicographic.lt_append_least_iff zero_le_byte v k

theorem keySuccessor_le_iff :
    keySuccessor v ≤ k ↔ v < k :=
  Lexicographic.append_least_le_iff zero_le_byte v k

theorem nil_le_key (k : Bytes) :
    ([] : Bytes) ≤ k := by
  exact nil_le k

theorem contains_keyRange :
    (keyRange v).Contains k ↔ k = v := by
  unfold keyRange Range.Contains Below
  dsimp only
  rw [lt_keySuccessor_iff]
  constructor
  · rintro ⟨hle, hge⟩
    exact le_antisymm hge hle
  · rintro rfl
    exact ⟨le_refl _, le_refl _⟩

/-- The keys from a prefix up to its successor are those with the prefix. -/
theorem contains_prefixSuccessor_iff {p : Bytes} :
    (⟨p, prefixSuccessor p⟩ : ScanRange).Contains k ↔ p <+: k := by
  rw [Lexicographic.bytes_isPrefix_iff_between]
  refine and_congr_right' ?_
  unfold prefixSuccessor Lexicographic.stopBehind
  cases p.reverse.dropWhile (fun b : UInt8 => decide (b = 0xFF)) <;> simp [Below]

/-- **Key ranges**: their normal form, whatever order the sort leaves equal starts in, their
intersection, and the range of a prefix. -/
theorem keyRange_algebra :
    (∀ rs out : List ScanRange, out.Perm (rs.filter (fun r => !r.isEmpty)) →
      out.Pairwise (fun a b => a.start ≤ b.start) → NormalForm (merge out) (Covers rs)) ∧
    (∀ rs, NormalForm (normalizeRanges rs) (Covers rs)) ∧
    (∀ a b, NormalForm (intersectRanges a b) (fun k => Covers a k ∧ Covers b k)) ∧
    ∀ p k : Bytes, (⟨p, prefixSuccessor p⟩ : ScanRange).Contains k ↔ p <+: k := by
  refine ⟨fun rs out => normalForm_merge, normalForm_normalize, fun a b => ?_,
    fun p k => contains_prefixSuccessor_iff⟩
  obtain ⟨hnonempty, hsorted, hapart, _⟩ := normalForm_normalize
    (a.flatMap (fun x => (b.map (meet x)).filter (fun r => !r.isEmpty)))
  exact ⟨hnonempty, hsorted, hapart, fun k => covers_intersect⟩

end Keys

section Patterns

variable {toks : List (Like.Token UInt8)}

/-- A letter of the prefix comes first, and the rest of the pattern takes the rest. -/
theorem prefix_cons_of_accepts {c : UInt8} {compiled : Except Status (List (Like.Token UInt8))}
    (hc : compiled.map (fun toks => Like.Token.exact c :: toks) = .ok toks) {s pre : Bytes}
    {whole : Bool} (hs : Like.accepts toks s = true)
    (ih : ∀ toks' s', compiled = .ok toks' → Like.accepts toks' s' = true →
      pre <+: s' ∧ (whole = true → s' = pre)) :
    c :: pre <+: s ∧ (whole = true → s = c :: pre) := by
  cases hcomp : compiled with
  | error st =>
    rw [hcomp] at hc
    cases hc
  | ok toks' =>
    rw [hcomp] at hc
    cases hc
    obtain ⟨a, s', rfl, hfits, hs'⟩ := (Like.accepts_cons_iff (by simp)).mp hs
    obtain ⟨hpre, hwhole⟩ := ih toks' s' hcomp hs'
    have ha : a = c := hfits
    subst ha
    refine ⟨cons_prefix_cons.mpr ⟨rfl, hpre⟩, ?_⟩
    intro hw
    rw [hwhole hw]

/-- **What a pattern accepts starts with its literal prefix, and is the prefix if the
pattern is nothing else.** -/
theorem likePrefix_sound {afterMany : Bool} {pat : Bytes}
    (hc : compileTokens afterMany pat = .ok toks) {s : Bytes} (hs : Like.accepts toks s = true) :
    (likePrefix pat).1 <+: s ∧ ((likePrefix pat).2 = true → s = (likePrefix pat).1) := by
  induction pat using likePrefix.induct generalizing afterMany toks s with
  | case1 =>
    cases hc
    rw [Like.accepts_nil_iff.mp hs]
    exact ⟨List.nil_prefix, fun _ => rfl⟩
  | case2 c hspecial =>
    rw [likePrefix, if_pos hspecial]
    exact ⟨List.nil_prefix, fun h => nomatch h⟩
  | case3 c hspecial =>
    obtain ⟨hescape, hwild⟩ := not_or.mp hspecial
    obtain ⟨hmany, hone⟩ := not_or.mp hwild
    rw [compileTokens, if_neg hescape, if_neg hmany, if_neg hone] at hc
    cases hc
    obtain ⟨a, s', rfl, hfits, hs'⟩ := (Like.accepts_cons_iff (by simp)).mp hs
    have ha : a = c := hfits
    rw [likePrefix, if_neg hspecial, ha, Like.accepts_nil_iff.mp hs']
    exact ⟨prefix_rfl, fun _ => rfl⟩
  | case4 d rest ih =>
    rw [compileTokens, if_pos rfl] at hc
    rw [likePrefix, if_pos rfl]
    exact prefix_cons_of_accepts hc hs (fun toks' s' hc' hs' => ih hc' hs')
  | case5 c d rest hescape hwild =>
    rw [likePrefix, if_neg hescape, if_pos hwild]
    exact ⟨List.nil_prefix, fun h => nomatch h⟩
  | case6 c d rest hescape hwild ih =>
    obtain ⟨hmany, hone⟩ := not_or.mp hwild
    rw [compileTokens, if_neg hescape, if_neg hmany, if_neg hone] at hc
    rw [likePrefix, if_neg hescape, if_neg hwild]
    exact prefix_cons_of_accepts hc hs (fun toks' s' hc' hs' => ih hc' hs')

end Patterns

section Constants

variable {κ : Type}

mutual

/-- The expression draws no random number. -/
def BExpr.randFree : BExpr κ → Bool
  | .const _ _ => true
  | .param _ _ _ => true
  | .column _ _ => true
  | .groupRef _ => true
  | .aggRef _ => true
  | .and l r => l.randFree && r.randFree
  | .or l r => l.randFree && r.randFree
  | .compare _ l r => l.randFree && r.randFree
  | .inList _ x items => x.randFree && BExpr.allRandFree items
  | .inUnnest _ x arr => x.randFree && arr.randFree
  | .between _ x lo hi => x.randFree && lo.randFree && hi.randFree
  | .startsWith x p => x.randFree && p.randFree
  | .like _ x p => x.randFree && p.randFree
  | .rand => false
  | .call _ _ args => BExpr.allRandFree args

def BExpr.allRandFree : List (BExpr κ) → Bool
  | [] => true
  | e :: es => e.randFree && BExpr.allRandFree es

end

variable {ec ec' : EvalCtx κ}

mutual

/-- **A constant that draws no random number has one value in a run.** -/
theorem eval_eq_of_const (hparams : ec.params = ec'.params) (hnow : ec.now = ec'.now) (e : BExpr κ)
    (hc : e.isConst = true) (hr : e.randFree = true) (path : List Nat) :
    e.eval ec path = e.eval ec' path := by
  cases e with
  | const => rfl
  | param => rw [BExpr.eval, BExpr.eval, hparams]
  | column | groupRef | aggRef => cases hc
  | and l r | or l r | compare _ l r | inUnnest _ l r | startsWith l r | like _ l r =>
    simp only [BExpr.isConst, BExpr.randFree, Bool.and_eq_true] at hc hr
    rw [BExpr.eval, BExpr.eval, eval_eq_of_const hparams hnow l hc.1 hr.1,
      eval_eq_of_const hparams hnow r hc.2 hr.2]
  | inList _ x items =>
    simp only [BExpr.isConst, BExpr.randFree, Bool.and_eq_true] at hc hr
    rw [BExpr.eval, BExpr.eval, eval_eq_of_const hparams hnow x hc.1 hr.1,
      evalAll_eq_of_const hparams hnow items hc.2 hr.2]
  | between _ x lo hi =>
    simp only [BExpr.isConst, BExpr.randFree, Bool.and_eq_true] at hc hr
    rw [BExpr.eval, BExpr.eval, eval_eq_of_const hparams hnow x hc.1.1 hr.1.1,
      eval_eq_of_const hparams hnow lo hc.1.2 hr.1.2, eval_eq_of_const hparams hnow hi hc.2 hr.2]
  | rand => cases hr
  | call _ _ args =>
    rw [BExpr.eval, BExpr.eval, hnow, evalAll_eq_of_const hparams hnow args hc hr]

theorem evalAll_eq_of_const (hparams : ec.params = ec'.params) (hnow : ec.now = ec'.now) :
    ∀ (es : List (BExpr κ)), BExpr.allConst es = true → BExpr.allRandFree es = true →
      ∀ path i, BExpr.evalAll ec es path i = BExpr.evalAll ec' es path i
  | [], _, _, _, _ => rfl
  | e :: es, hc, hr, path, i => by
    simp only [BExpr.allConst, BExpr.allRandFree, Bool.and_eq_true] at hc hr
    rw [BExpr.evalAll, BExpr.evalAll, eval_eq_of_const hparams hnow e hc.1 hr.1,
      evalAll_eq_of_const hparams hnow es hc.2 hr.2]

end

/-- What `constBytes` finds is the value of the expression on every row. -/
theorem eval_of_constBytes (hparams : ec.params = ec'.params) (hnow : ec.now = ec'.now)
    {e : BExpr κ} (hr : e.randFree = true) {path : List Nat} {v : Option Bytes}
    (h : constBytes ec e path = some v) :
    e.eval ec' path = .ok (.scalar (v.elim .null .bytes)) := by
  unfold constBytes at h
  by_cases hcond : e.isConst = true ∧ e.typ = .bytes
  · rw [if_pos hcond, eval_eq_of_const hparams hnow e hcond.1 hr] at h
    match heval : e.eval ec' path, h with
    | .ok (.scalar .null), h =>
      cases h
      rfl
    | .ok (.scalar (.bytes b)), h =>
      cases h
      rfl
  · rw [if_neg hcond] at h
    cases h

end Constants

section Operators

variable {κ : Type}

/-- The value is neither false nor `NULL`. -/
def Datum.Truthy (v : Datum κ) : Prop :=
  v ≠ .ofBool false ∧ v ≠ .null

theorem truthy_ofOption {b : Option Bool} (h : (Datum.ofOption b : Datum κ).Truthy) :
    b = some true := by
  match b, h with
  | none, h => exact absurd rfl h.2
  | some false, h => exact absurd rfl h.1
  | some true, _ => rfl

variable {l r : Except Status (Datum κ)} {k : Bytes}

/-- `AND` is true only if both sides are. -/
theorem truthy_of_evalAnd {v : Datum κ} (h : evalAnd l r = .ok v) (hv : v.Truthy) :
    (∃ a, l = .ok a ∧ a.Truthy) ∧ ∃ b, r = .ok b ∧ b.Truthy := by
  unfold evalAnd at h
  split at h
  · cases h
  · cases h
    exact absurd rfl hv.1
  next a ha =>
    split at h
    · cases h
    · cases h
      exact absurd rfl hv.1
    next b hb =>
      cases h
      by_cases hnull : (a.isNull || b.isNull) = true
      · rw [if_pos hnull] at hv
        exact absurd rfl hv.2
      simp only [Bool.or_eq_true, not_or] at hnull
      refine ⟨⟨a, rfl, ha, ?_⟩, b, rfl, hb, ?_⟩
      · rintro rfl
        exact hnull.1 rfl
      · rintro rfl
        exact hnull.2 rfl

/-- `OR` is true only if one side is. -/
theorem truthy_of_evalOr {v : Datum κ} (h : evalOr l r = .ok v) (hv : v.Truthy) :
    (∃ a, l = .ok a ∧ a.Truthy) ∨ ∃ b, r = .ok b ∧ b.Truthy := by
  have htrue : (Datum.ofBool true : Datum κ).Truthy := by
    simp [Datum.Truthy, Datum.ofBool, Datum.null]
  unfold evalOr at h
  split at h
  · cases h
  · exact .inl ⟨_, rfl, htrue⟩
  next a ha =>
    split at h
    · cases h
    · exact .inr ⟨_, rfl, htrue⟩
    next b hb =>
      cases h
      by_cases hnull : (a.isNull || b.isNull) = true
      · rw [if_pos hnull] at hv
        exact absurd rfl hv.2
      · rw [if_neg hnull] at hv
        exact absurd rfl hv.1

theorem sqlEquals_bytes {y : ScalarValue} (h : sqlEquals (.bytes k) y = some true) :
    y = .bytes k := by
  unfold sqlEquals at h
  split at h <;> simp_all

theorem compareRange_sound {op : CompareOp} (hop : op ≠ .ne) {v : Bytes}
    (h : op.holds (.bytes k) (.bytes v) = some true) :
    Covers (compareRange op v) k := by
  cases op with
  | eq =>
    have hv : ScalarValue.bytes v = .bytes k := sqlEquals_bytes (y := .bytes v) h
    cases hv
    exact covers_singleton.mpr (contains_keyRange.mpr rfl)
  | ne => exact absurd rfl hop
  | lt =>
    have hlt : compare k v = .lt := of_decide_eq_true (Option.some.inj h)
    exact covers_singleton.mpr ⟨nil_le_key k, Std.compare_eq_lt.mp hlt⟩
  | le =>
    have hle : compare k v ≠ .gt := of_decide_eq_true (Option.some.inj h)
    refine covers_singleton.mpr ⟨nil_le_key k, lt_keySuccessor_iff.mpr ?_⟩
    exact not_lt.mp (fun hgt => hle (Std.compare_eq_gt.mpr hgt))
  | gt =>
    have hgt : compare k v = .gt := of_decide_eq_true (Option.some.inj h)
    exact covers_singleton.mpr ⟨keySuccessor_le_iff.mpr (Std.compare_eq_gt.mp hgt), trivial⟩
  | ge =>
    have hge : compare k v ≠ .lt := of_decide_eq_true (Option.some.inj h)
    refine covers_singleton.mpr ⟨?_, trivial⟩
    exact not_lt.mp (fun hlt => hge (Std.compare_eq_lt.mpr hlt))

/-- A comparison with the key on the right is the mirrored one with the key on the left. -/
theorem holds_mirror {op : CompareOp} (hop : op ≠ .ne) {v : Bytes}
    (h : op.holds (.bytes v) (.bytes k) = some true) :
    op.mirror.holds (.bytes k) (.bytes v) = some true := by
  have hswap : compare k v = (compare v k).swap := Std.OrientedCmp.eq_swap
  cases op with
  | eq =>
    have hv : ScalarValue.bytes k = .bytes v := sqlEquals_bytes (y := .bytes k) h
    cases hv
    exact h
  | ne => exact absurd rfl hop
  | lt =>
    have hlt : compare v k = .lt := of_decide_eq_true (Option.some.inj h)
    have hgt : compare k v = .gt := by
      rw [hswap, hlt, Ordering.swap_lt]
    exact congrArg some (decide_eq_true hgt)
  | le =>
    have hle : compare v k ≠ .gt := of_decide_eq_true (Option.some.inj h)
    have hge : compare k v ≠ .lt := by
      rw [hswap, ne_eq, Ordering.swap_eq_lt]
      exact hle
    exact congrArg some (decide_eq_true hge)
  | gt =>
    have hgt : compare v k = .gt := of_decide_eq_true (Option.some.inj h)
    have hlt : compare k v = .lt := by
      rw [hswap, hgt, Ordering.swap_gt]
    exact congrArg some (decide_eq_true hlt)
  | ge =>
    have hge : compare v k ≠ .lt := of_decide_eq_true (Option.some.inj h)
    have hle : compare k v ≠ .gt := by
      rw [hswap, ne_eq, Ordering.swap_eq_gt]
      exact hge
    exact congrArg some (decide_eq_true hle)

/-- `IN` is true only of an element of the list. -/
theorem mem_of_inResult {vals : List ScalarValue} (h : inResult (.bytes k) vals = some true) :
    .bytes k ∈ vals := by
  unfold inResult at h
  rw [if_neg (fun h => nomatch h)] at h
  by_cases hany : vals.any (fun v => decide (sqlEquals (.bytes k) v = some true)) = true
  · obtain ⟨y, hy, heq⟩ := any_eq_true.mp hany
    have hk := sqlEquals_bytes (of_decide_eq_true heq)
    rwa [hk] at hy
  · rw [if_neg hany] at h
    split at h <;> cases h

end Operators

section Soundness

variable {κ : Type}

/-- The constants that the key is compared with draw no random numbers. -/
def BExpr.steady : BExpr κ → Bool
  | .and l r => l.steady && r.steady
  | .or l r => l.steady && r.steady
  | .compare _ l r => (!l.isBaseKey || r.randFree) && (!r.isBaseKey || l.randFree)
  | .inList _ x items => !x.isBaseKey || BExpr.allRandFree items
  | .inUnnest _ x arr => !x.isBaseKey || arr.randFree
  | .between _ x lo hi => !x.isBaseKey || (lo.randFree && hi.randFree)
  | .startsWith x p => !x.isBaseKey || p.randFree
  | .like _ x p => !x.isBaseKey || p.randFree
  | _ => true

variable {ec ec' : EvalCtx κ} {key : Bytes}

/-- The two contexts belong to one run, and the second is that of a row. -/
structure RowOf (ec ec' : EvalCtx κ) (key : Bytes) : Prop where
  params : ec.params = ec'.params
  now : ec.now = ec'.now
  key : ∀ (e : BExpr κ) path, e.isBaseKey = true → e.eval ec' path = .ok (.scalar (.bytes key))

variable {x : BExpr κ} {path : List Nat} {op : CompareOp} {v : Datum κ} {rs : List ScanRange}
variable {negated : Bool}

section Keyed

variable (hrow : RowOf ec ec' key) (hv : v.Truthy)

include hrow in
theorem RowOf.eval_const {e : BExpr κ} (hx : x.isBaseKey = true)
    (hs : (!x.isBaseKey || e.randFree) = true) {v : Option Bytes}
    (h : constBytes ec e path = some v) :
    e.eval ec' path = .ok (.scalar (v.elim .null .bytes)) := by
  rw [hx] at hs
  exact eval_of_constBytes hrow.params hrow.now hs h

theorem call_truthy {a b : Bytes}
    (h : (op.call (.scalar (.bytes a)) (.scalar (.bytes b)) : Datum κ).Truthy) :
    op.holds (.bytes a) (.bytes b) = some true := by
  unfold CompareOp.call at h
  dsimp only at h
  rw [if_neg (by simp)] at h
  exact truthy_ofOption h

theorem rangesForCompare_cases {c : BExpr κ} (h : rangesForCompare ec op c path = some rs) :
    ∃ b, constBytes ec c path = some b ∧ rs = b.elim [] (compareRange op) := by
  unfold rangesForCompare at h
  split at h
  · cases h
  · next hc => exact ⟨none, hc, (Option.some.inj h).symm⟩
  · next b hc => exact ⟨some b, hc, (Option.some.inj h).symm⟩

theorem mirror_ne (hop : op ≠ .ne) :
    op.mirror ≠ .ne := by
  cases op <;> simp_all [CompareOp.mirror]

include hrow hv

/-- A comparison that is true has its key in its ranges. -/
theorem compare_sound {l r : BExpr κ} (hs : (BExpr.compare op l r).steady = true)
    (hrs : rangesFor ec (.compare op l r) path = .ok (some rs))
    (h : (BExpr.compare op l r).eval ec' path = .ok v) :
    Covers rs key := by
  obtain ⟨hsl, hsr⟩ : (!l.isBaseKey || r.randFree) = true ∧ (!r.isBaseKey || l.randFree) = true := by
    simpa [BExpr.steady] using hs
  have hop : op ≠ .ne := by
    rintro rfl
    simp [rangesFor] at hrs
  have hranges : rangesFor ec (.compare op l r) path =
      if l.isBaseKey then
        .ok (rangesForCompare ec op r (1 :: path))
      else if r.isBaseKey then
        .ok (rangesForCompare ec op.mirror l (0 :: path))
      else
        .ok none := by
    cases op with
    | ne => exact absurd rfl hop
    | _ => rfl
  rw [hranges] at hrs
  split_ifs at hrs with hl hr
  · obtain ⟨c, hc, rfl⟩ := rangesForCompare_cases (Except.ok.inj hrs)
    rw [BExpr.eval, hrow.key l _ hl, hrow.eval_const hl hsl hc] at h
    cases h
    cases c with
    | none => exact absurd rfl hv.2
    | some b => exact compareRange_sound hop (call_truthy hv)
  · obtain ⟨c, hc, rfl⟩ := rangesForCompare_cases (Except.ok.inj hrs)
    rw [BExpr.eval, hrow.key r _ hr, hrow.eval_const hr hsr hc] at h
    cases h
    cases c with
    | none => exact absurd rfl hv.2
    | some b => exact compareRange_sound (mirror_ne hop) (holds_mirror hop (call_truthy hv))
  · cases hrs

omit hv

variable {items : List (BExpr κ)}

omit hrow in
theorem rangesForItems_cons {i : Nat} (h : rangesForItems ec path (x :: items) i = some rs) :
    ∃ c rs', constBytes ec x (i :: path) = some c ∧
      rangesForItems ec path items (i + 1) = some rs' ∧
      rs = c.elim rs' (fun b => keyRange b :: rs') := by
  unfold rangesForItems at h
  split at h
  · next rs' hc hi =>
      cases h
      exact ⟨none, rs, hc, hi, rfl⟩
  · next b rs' hc hi =>
      cases h
      exact ⟨some b, rs', hc, hi, rfl⟩
  · cases h

/-- The values of the items of `IN` are the values that the ranges were made from. -/
theorem items_sound (hr : BExpr.allRandFree items = true) {i : Nat}
    (hrs : rangesForItems ec path items i = some rs) {vals : List (Datum κ)}
    (hvals : collect (BExpr.evalAll ec' items path i) = .ok vals)
    (hmem : .bytes key ∈ vals.map Datum.toScalar) :
    Covers rs key := by
  induction items generalizing i rs vals with
  | nil =>
    cases hvals
    cases hmem
  | cons x items ih =>
    simp only [BExpr.allRandFree, Bool.and_eq_true] at hr
    obtain ⟨c, rs', hc, hi, rfl⟩ := rangesForItems_cons hrs
    rw [BExpr.evalAll, eval_of_constBytes hrow.params hrow.now hr.1 hc] at hvals
    obtain ⟨vals', hrest, rfl⟩ := Fallible.map_eq_ok_iff.mp hvals
    rcases mem_cons.mp hmem with hkey | hmem
    · cases c with
      | none => cases hkey
      | some b =>
        have hb : key = b := by
          simpa [Datum.toScalar] using hkey
        exact covers_cons.mpr (.inl (contains_keyRange.mpr hb))
    · have hcov := ih hr.2 hi hrest hmem
      cases c with
      | none => exact hcov
      | some b => exact covers_cons.mpr (.inr hcov)

include hv

theorem inList_sound (hs : (BExpr.inList negated x items).steady = true)
    (hrs : rangesFor ec (.inList negated x items) path = .ok (some rs))
    (h : (BExpr.inList negated x items).eval ec' path = .ok v) :
    Covers rs key := by
  cases negated with
  | true => cases hrs
  | false =>
    simp only [rangesFor] at hrs
    split_ifs at hrs with hx
    · rw [BExpr.steady, hx] at hs
      rw [BExpr.eval, hrow.key x _ hx] at h
      cases hvals : collect (BExpr.evalAll ec' items path 1) with
      | error st =>
        rw [hvals] at h
        cases h
      | ok vals =>
        rw [hvals] at h
        cases h
        have hin : inResult (.bytes key) (vals.map Datum.toScalar) = some true := by
          simpa [Datum.toScalar] using truthy_ofOption hv
        exact items_sound hrow hs (Except.ok.inj hrs) hvals (mem_of_inResult hin)
    · cases hrs

omit hrow hv in
theorem elements_sound {vs : List ScalarValue} (h : .bytes key ∈ vs) :
    Covers (rangesForElements vs) key := by
  refine ⟨keyRange key, ?_, contains_keyRange.mpr rfl⟩
  exact mem_filterMap.mpr ⟨.bytes key, h, rfl⟩

theorem inUnnest_sound {arr : BExpr κ} (hs : (BExpr.inUnnest negated x arr).steady = true)
    (hrs : rangesFor ec (.inUnnest negated x arr) path = .ok (some rs))
    (h : (BExpr.inUnnest negated x arr).eval ec' path = .ok v) :
    Covers rs key := by
  cases negated with
  | true => cases hrs
  | false =>
    simp only [rangesFor] at hrs
    split_ifs at hrs with hx
    · obtain ⟨hx, hc⟩ := (Bool.and_eq_true _ _).mp hx
      rw [BExpr.steady, hx] at hs
      rw [eval_eq_of_const hrow.params hrow.now arr hc hs] at hrs
      rw [BExpr.eval, hrow.key x _ hx] at h
      cases harr : arr.eval ec' (1 :: path) with
      | error st =>
        rw [harr] at hrs
        cases hrs
      | ok d =>
        rw [harr] at h hrs
        cases h
        match d with
        | .scalar _ | .compound _ | .array [] => exact absurd rfl hv.1
        | .array (y :: vs) =>
          cases hrs
          have hin : inResult (.bytes key) (y :: vs) = some true := by
            simpa [Datum.toScalar] using truthy_ofOption hv
          exact elements_sound (mem_of_inResult hin)
    · cases hrs

omit hrow hv in
/-- `BETWEEN` is true only if both its sides are. -/
theorem sides_of_betweenResult {x lo hi : ScalarValue} (h : betweenResult x lo hi = some true) :
    betweenSide lo x = some true ∧ betweenSide x hi = some true := by
  unfold betweenResult at h
  split at h <;> simp_all

omit hrow hv in
theorem le_of_betweenSide {a b : ScalarValue} (h : betweenSide a b = some true) :
    a ≠ .null ∧ b ≠ .null ∧ ∀ x y, a = .bytes x → b = .bytes y → x ≤ y := by
  unfold betweenSide at h
  split_ifs at h with hnull
  refine ⟨fun ha => hnull (.inl ha), fun hb => hnull (.inr hb), ?_⟩
  rintro x y rfl rfl
  have hle : compare x y ≠ .gt := of_decide_eq_true (Option.some.inj h)
  exact not_lt.mp (fun hgt => hle (Std.compare_eq_gt.mpr hgt))

theorem between_sound {lo hi : BExpr κ} (hs : (BExpr.between negated x lo hi).steady = true)
    (hrs : rangesFor ec (.between negated x lo hi) path = .ok (some rs))
    (h : (BExpr.between negated x lo hi).eval ec' path = .ok v) :
    Covers rs key := by
  cases negated with
  | true => cases hrs
  | false =>
    simp only [rangesFor] at hrs
    split_ifs at hrs with hx
    · obtain ⟨hslo, hshi⟩ : lo.randFree = true ∧ hi.randFree = true := by
        simpa [BExpr.steady, hx] using hs
      match hlo : constBytes ec lo (1 :: path), hhi : constBytes ec hi (2 :: path), hrs with
      | some a, some b, hrs =>
        rw [BExpr.eval, hrow.key x _ hx, eval_of_constBytes hrow.params hrow.now hslo hlo,
          eval_of_constBytes hrow.params hrow.now hshi hhi] at h
        cases h
        have hb : betweenResult (.bytes key) (a.elim .null .bytes) (b.elim .null .bytes) =
            some true := by
          simpa [Datum.toScalar] using truthy_ofOption hv
        obtain ⟨hge, hle⟩ := sides_of_betweenResult hb
        obtain ⟨ha, -, hge⟩ := le_of_betweenSide hge
        obtain ⟨-, hb, hle⟩ := le_of_betweenSide hle
        match a, b with
        | none, _ => exact absurd rfl ha
        | some _, none => exact absurd rfl hb
        | some a, some b =>
          cases hrs
          exact covers_singleton.mpr ⟨hge a key rfl rfl, lt_keySuccessor_iff.mpr (hle key b rfl rfl)⟩
      | some none, none, hrs | some (some _), none, hrs => cases hrs
    · cases hrs

variable {p : BExpr κ}

theorem startsWith_sound (hs : (BExpr.startsWith x p).steady = true)
    (hrs : rangesFor ec (.startsWith x p) path = .ok (some rs))
    (h : (BExpr.startsWith x p).eval ec' path = .ok v) :
    Covers rs key := by
  simp only [rangesFor] at hrs
  split_ifs at hrs with hx
  · match hc : constBytes ec p (1 :: path), hrs with
    | some c, hrs =>
      rw [BExpr.eval, hrow.key x _ hx, hrow.eval_const hx hs hc] at h
      cases h
      cases c with
      | none => exact absurd rfl hv.2
      | some pre =>
        cases hrs
        have hpre : some (pre.isPrefixOf key) = some true := truthy_ofOption hv
        exact covers_singleton.mpr
          (contains_prefixSuccessor_iff.mpr (List.isPrefixOf_iff_prefix.mp (Option.some.inj hpre)))
  · cases hrs

omit hrow in
/-- `LIKE` is true only of what its pattern accepts. -/
theorem accepts_of_evalLike {k pat : Bytes}
    (h : evalLike false (.scalar (.bytes k)) (.scalar (.bytes pat)) = .ok v) :
    ∃ toks, compileLike pat = .ok toks ∧ Like.accepts toks k = true := by
  unfold evalLike at h
  rw [if_neg (by simp [Datum.isNull])] at h
  dsimp only [Datum.asBytes] at h
  cases hcomp : compileLike pat with
  | error st =>
    rw [hcomp] at h
    cases h
  | ok toks =>
    rw [hcomp] at h
    cases h
    have hsearch : some (Like.search toks k != false) = some true := truthy_ofOption hv
    refine ⟨toks, rfl, ?_⟩
    rw [← Like.search_eq_accepts]
    simpa using hsearch

theorem like_sound (hs : (BExpr.like negated x p).steady = true)
    (hrs : rangesFor ec (.like negated x p) path = .ok (some rs))
    (h : (BExpr.like negated x p).eval ec' path = .ok v) :
    Covers rs key := by
  cases negated with
  | true => cases hrs
  | false =>
    simp only [rangesFor] at hrs
    split_ifs at hrs with hx
    · match hc : constBytes ec p (1 :: path), hrs with
      | some none, hrs =>
        rw [BExpr.eval, hrow.key x _ hx, hrow.eval_const hx hs hc] at h
        cases h
        exact absurd rfl hv.2
      | some (some pat), hrs =>
        rw [BExpr.eval, hrow.key x _ hx, hrow.eval_const hx hs hc] at h
        obtain ⟨toks, hcomp, hmatch⟩ := accepts_of_evalLike hv h
        obtain ⟨hpre, hwhole⟩ := likePrefix_sound hcomp hmatch
        dsimp only at hrs
        split_ifs at hrs with hw
        · cases hrs
          exact covers_singleton.mpr (contains_keyRange.mpr (hwhole hw))
        · cases hrs
          exact covers_singleton.mpr (contains_prefixSuccessor_iff.mpr hpre)
    · cases hrs

end Keyed

theorem covers_andRanges {a b : Option (List ScanRange)} (h : andRanges a b = some rs)
    (ha : ∀ as, a = some as → Covers as key) (hb : ∀ bs, b = some bs → Covers bs key) :
    Covers rs key := by
  match a, b with
  | some as, some bs =>
    cases h
    exact covers_intersect.mpr ⟨covers_normalize.mpr (ha as rfl), covers_normalize.mpr (hb bs rfl)⟩
  | some as, none =>
    cases h
    exact ha rs rfl
  | none, some bs =>
    cases h
    exact hb rs rfl
  | none, none => cases h

theorem covers_orRanges {a b : Option (List ScanRange)} (h : orRanges a b = some rs)
    (hab : (∀ as, a = some as → Covers as key) ∨ (∀ bs, b = some bs → Covers bs key)) :
    Covers rs key := by
  match a, b with
  | some as, some bs =>
    cases h
    refine covers_normalize.mpr (covers_append.mpr ?_)
    exact hab.imp (fun ha => ha as rfl) (fun hb => hb bs rfl)
  | some as, none => cases h
  | none, some bs => cases h
  | none, none => cases h

/-- **A row for which the expression is true has its key in the ranges.** -/
theorem rangesFor_sound (hrow : RowOf ec ec' key) {e : BExpr κ} {path : List Nat}
    {rs : List ScanRange} {v : Datum κ} (hs : e.steady = true)
    (hrs : rangesFor ec e path = .ok (some rs)) (h : e.eval ec' path = .ok v) (hv : v.Truthy) :
    Covers rs key := by
  cases e with
  | and l r =>
    obtain ⟨hsl, hsr⟩ : l.steady = true ∧ r.steady = true := by
      simpa [BExpr.steady] using hs
    rw [BExpr.eval] at h
    obtain ⟨⟨a, ha, hta⟩, b, hb, htb⟩ := truthy_of_evalAnd h hv
    obtain ⟨as, bs, has, hbs, hres⟩ := rangesFor_sides hrs
    refine covers_andRanges hres.symm ?_ ?_
    · rintro as rfl
      exact rangesFor_sound hrow hsl has ha hta
    · rintro bs rfl
      exact rangesFor_sound hrow hsr hbs hb htb
  | or l r =>
    obtain ⟨hsl, hsr⟩ : l.steady = true ∧ r.steady = true := by
      simpa [BExpr.steady] using hs
    rw [BExpr.eval] at h
    obtain ⟨as, bs, has, hbs, hres⟩ := rangesFor_sides hrs
    refine covers_orRanges hres.symm ?_
    rcases truthy_of_evalOr h hv with ⟨a, ha, hta⟩ | ⟨b, hb, htb⟩
    · refine .inl ?_
      rintro as rfl
      exact rangesFor_sound hrow hsl has ha hta
    · refine .inr ?_
      rintro bs rfl
      exact rangesFor_sound hrow hsr hbs hb htb
  | compare op l r => exact compare_sound hrow hv hs hrs h
  | inList negated x items => exact inList_sound hrow hv hs hrs h
  | inUnnest negated x arr => exact inUnnest_sound hrow hv hs hrs h
  | between negated x lo hi => exact between_sound hrow hv hs hrs h
  | startsWith x p => exact startsWith_sound hrow hv hs hrs h
  | like negated x p => exact like_sound hrow hv hs hrs h
  | param | column =>
    simp only [rangesFor] at hrs
    split at hrs <;> cases hrs
  | const | groupRef | aggRef | rand | call => cases hrs

end Soundness

end Gsql
end LittleBigtable
