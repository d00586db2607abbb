import LittleBigtable.Gsql.PushdownSound

/-!
# Pushdown does not show

A run that scans only the key ranges of its `WHERE` clause gives the rows of a run that
scans the whole table, in the same order, and no row is scanned twice.  The ranges lie
apart in ascending order, so the scans together deliver a part of the table in its order;
the rows that are left out are rows that the whole scan passes over.

This needs that the constants compared with the key have one value in a run.  `RAND` is
taken for a constant though every evaluation draws a new number, so with it the ranges can
leave out rows that the condition selects.  It also needs that no parameter in the place
of a condition has the name of an operator: the ranges are then computed from arguments
that do not exist, and the run panics.
-/

namespace LittleBigtable
namespace Gsql

open Bttest
open HalfOpen
open Visit

section Scans

variable {κ ρ τ σ : Type}

/-- The environment with pushdown switched on or off. -/
def ExecEnv.pushdown (env : ExecEnv κ) (on : Bool) : ExecEnv κ :=
  { env with noPushdown := !on }

theorem pairwise_keys (rows : GoMap ρ) :
    rows.toList.Pairwise (fun a b => a.1 < b.1) :=
  Std.ExtTreeMap.ordered_keys_toList.imp Std.compare_eq_lt.mp

theorem rowOf_rowCtx (env : ExecEnv κ) (plan : QueryPlan κ ρ τ) (key : Bytes) (row : ρ) :
    RowOf (env.ctx .ranges) (env.rowCtx plan key row) key where
  params := rfl
  now := rfl
  key := by
    intro e path he
    unfold BExpr.isBaseKey at he
    split at he
    · rfl
    · cases he

theorem keyRanges_full {ec : EvalCtx κ} {cond : Option (BExpr κ)} (path : List Nat) :
    keyRanges ec true cond path = .ok [⟨[], none⟩] := by
  cases cond <;> rfl

theorem covers_full (key : Bytes) :
    Covers [(⟨[], none⟩ : ScanRange)] key :=
  covers_singleton.mpr ⟨nil_le_key key, trivial⟩

variable {noPushdown : Bool} {ranges : List ScanRange}
variable {body : σ → EvalCtx κ → Except Failure (σ × Bool)}

/-- The ranges that a run scans: all keys, or what the condition leaves of them. -/
theorem keyRanges_cases {ec : EvalCtx κ} {cond : Option (BExpr κ)} {path : List Nat}
    (h : keyRanges ec noPushdown cond path = .ok ranges) :
    ranges = [⟨[], none⟩] ∨
      ∃ e rs, cond = some e ∧ rangesFor ec e path = .ok (some rs) ∧ ranges = normalizeRanges rs := by
  cases noPushdown with
  | true =>
    rw [keyRanges_full] at h
    exact .inl (Except.ok.inj h).symm
  | false =>
    cases cond with
    | none => exact .inl (Except.ok.inj h).symm
    | some e =>
      simp only [keyRanges] at h
      match hrs : rangesFor ec e path with
      | .error p =>
        rw [hrs] at h
        cases h
      | .ok none =>
        rw [hrs] at h
        exact .inl (Except.ok.inj h).symm
      | .ok (some rs) =>
        rw [hrs] at h
        exact .inr ⟨e, rs, rfl, hrs, (Except.ok.inj h).symm⟩

theorem apart_keyRanges {ec : EvalCtx κ} {cond : Option (BExpr κ)} {path : List Nat}
    (h : keyRanges ec noPushdown cond path = .ok ranges) :
    ranges.Pairwise Apart := by
  rcases keyRanges_cases h with rfl | ⟨e, rs, _, _, rfl⟩
  · exact List.pairwise_singleton _ _
  · exact apart_normalize rs

/-- The scans of the ranges deliver the rows of the table that lie in them, in order. -/
theorem flatMap_scanRange (h : ranges.Pairwise Apart) (rows : GoMap ρ) :
    ranges.flatMap (scanRange rows) = rows.toList.filter (fun kv => decide (Covers ranges kv.1)) :=
  flatMap_part h (pairwise_keys rows)

/-- **No row is scanned twice.** -/
theorem nodup_scanned {plan : QueryPlan κ ρ τ} {env : ExecEnv κ} {rows : GoMap ρ} :
    ((plan.scanned env rows).map Prod.fst).Nodup := by
  unfold QueryPlan.scanned
  cases h : keyRanges (env.ctx .ranges) env.noPushdown plan.whereExpr [0] with
  | error p => exact List.nodup_nil
  | ok ranges =>
    dsimp only
    rw [flatMap_scanRange (apart_keyRanges h)]
    have hsorted := (pairwise_keys rows).filter (fun kv => decide (Covers ranges kv.1))
    exact (List.pairwise_map.mpr hsorted).imp (fun hlt => ne_of_lt hlt)

variable {plan : QueryPlan κ ρ τ}

/-- A row that the condition selects is in the ranges. -/
theorem keyRanges_sound {env : ExecEnv κ} (hsteady : ∀ e, plan.whereExpr = some e → e.steady = true)
    (h : keyRanges (env.ctx .ranges) noPushdown plan.whereExpr [0] = .ok ranges) {key : Bytes}
    {row : ρ} (hcond : conditionHolds (env.rowCtx plan key row) [0] plan.whereExpr = .ok true) :
    Covers ranges key := by
  rcases keyRanges_cases h with rfl | ⟨e, rs, he, hrs, rfl⟩
  · exact covers_full key
  rw [he] at hcond
  simp only [conditionHolds] at hcond
  split at hcond
  · cases hcond
  · next heval =>
      have htrue : (Datum.scalar (.bool true) : Datum κ).Truthy := by
        simp [Datum.Truthy, Datum.ofBool, Datum.null]
      exact covers_normalize.mpr
        (rangesFor_sound (rowOf_rowCtx env plan key row) (hsteady e he) hrs heval htrue)
  · cases hcond

/-- A row outside of the ranges is passed over, unless its condition fails. -/
theorem onRow_passes {env : ExecEnv κ} (hsteady : ∀ e, plan.whereExpr = some e → e.steady = true)
    (h : keyRanges (env.ctx .ranges) noPushdown plan.whereExpr [0] = .ok ranges)
    {visible : ρ → Bool} {kv : Bytes × ρ} (hkv : decide (Covers ranges kv.1) = false) {s s' : σ}
    {more : Bool} (hstep : QueryPlan.onRow visible (plan.selected env body) s kv = .ok (s', more)) :
    s' = s ∧ more = true := by
  unfold QueryPlan.onRow at hstep
  by_cases hvis : visible kv.2 = true
  · rw [if_pos hvis] at hstep
    unfold QueryPlan.selected at hstep
    match hcond : conditionHolds (env.rowCtx plan kv.1 kv.2) [0] plan.whereExpr with
    | .error st =>
      rw [hcond] at hstep
      dsimp only at hstep
      by_cases hskip : plan.skipErr st = true
      · rw [if_pos hskip] at hstep
        cases hstep
        exact ⟨rfl, rfl⟩
      · rw [if_neg hskip] at hstep
        cases hstep
    | .ok false =>
      rw [hcond] at hstep
      cases hstep
      exact ⟨rfl, rfl⟩
    | .ok true => exact absurd (keyRanges_sound hsteady h hcond) (of_decide_eq_false hkv)
  · rw [if_neg hvis] at hstep
    cases hstep
    exact ⟨rfl, rfl⟩

theorem scanSource_eq {env : ExecEnv κ}
    (h : keyRanges (env.ctx .ranges) env.noPushdown plan.whereExpr [0] = .ok ranges)
    (rows : GoMap ρ) (fn : σ → Bytes → ρ → Except Failure (σ × Bool)) (s : σ) :
    plan.scanSource env rows fn s =
      match plan.temporal (env.ctx .setup) with
      | .error st => .error (.status st)
      | .ok visible =>
        visit (QueryPlan.onRow visible fn) s
          (rows.toList.filter (fun kv => decide (Covers ranges kv.1))) := by
  unfold QueryPlan.scanSource
  rw [h]
  dsimp only
  cases plan.temporal (env.ctx .setup) with
  | error st => rfl
  | ok visible =>
    dsimp only
    rw [visit_flatMap, flatMap_scanRange (apart_keyRanges h)]

/-- The ranges are found exactly if no name is mistaken for an operator. -/
theorem keyRanges_eq_ok_iff {ec : EvalCtx κ} {cond : Option (BExpr κ)} (path : List Nat) :
    (∃ ranges, keyRanges ec false cond path = .ok ranges) ↔
      ∀ e, cond = some e → e.namesClear = true := by
  cases cond with
  | none => exact iff_of_true ⟨_, rfl⟩ (fun e he => nomatch he)
  | some e =>
    have hiff : (∀ e', some e = some e' → e'.namesClear = true) ↔ e.namesClear = true :=
      ⟨fun h => h e rfl, fun h e' he' => Option.some.inj he' ▸ h⟩
    rw [hiff, ← rangesFor_eq_ok_iff ec e path]
    simp only [keyRanges]
    cases rangesFor ec e path with
    | error p => exact iff_of_false (fun ⟨_, h⟩ => nomatch h) (fun ⟨_, h⟩ => nomatch h)
    | ok rs => exact iff_of_true ⟨_, rfl⟩ ⟨_, rfl⟩

theorem filter_covers_full (rows : GoMap ρ) :
    rows.toList.filter (fun kv => decide (Covers [(⟨[], none⟩ : ScanRange)] kv.1)) = rows.toList :=
  List.filter_eq_self.mpr (fun kv _ => decide_eq_true (covers_full kv.1))

/-- **The scan of the ranges ends as the scan of the table.** -/
theorem scanSource_pushdown (hsteady : ∀ e, plan.whereExpr = some e → e.steady = true)
    (hnames : ∀ e, plan.whereExpr = some e → e.namesClear = true) (env : ExecEnv κ) {rows : GoMap ρ}
    {s : σ} {res : σ × Bool}
    (h : plan.scanSource (env.pushdown false) rows (plan.selected env body) s = .ok res) :
    plan.scanSource (env.pushdown true) rows (plan.selected env body) s = .ok res := by
  obtain ⟨ranges, hranges⟩ := (keyRanges_eq_ok_iff [0]).mpr hnames
  have hfull : keyRanges ((env.pushdown false).ctx .ranges) (env.pushdown false).noPushdown
      plan.whereExpr [0] = .ok [⟨[], none⟩] :=
    keyRanges_full [0]
  have hpushed : keyRanges ((env.pushdown true).ctx .ranges) (env.pushdown true).noPushdown
      plan.whereExpr [0] = .ok ranges :=
    hranges
  rw [scanSource_eq hfull, filter_covers_full] at h
  rw [scanSource_eq hpushed]
  -- the temporal filter is evaluated alike
  have htemporal : plan.temporal ((env.pushdown true).ctx .setup) =
      plan.temporal ((env.pushdown false).ctx .setup) := rfl
  rw [htemporal]
  split at h
  · cases h
  rename_i visible hvis
  refine visit_filter ?_ h
  intro kv _ hkv s s' more hstep
  exact onRow_passes hsteady hranges hkv hstep

theorem scanSource_panics (hnames : ¬ ∀ e, plan.whereExpr = some e → e.namesClear = true)
    (env : ExecEnv κ) (rows : GoMap ρ) (fn : σ → Bytes → ρ → Except Failure (σ × Bool)) (s : σ) :
    ∃ p, plan.scanSource (env.pushdown true) rows fn s = .error (.panic p) := by
  have hranges : ¬ ∃ ranges, keyRanges ((env.pushdown true).ctx .ranges)
      (env.pushdown true).noPushdown plan.whereExpr [0] = .ok ranges :=
    fun h => hnames ((keyRanges_eq_ok_iff [0]).mp h)
  unfold QueryPlan.scanSource
  cases h : keyRanges ((env.pushdown true).ctx .ranges) (env.pushdown true).noPushdown
      plan.whereExpr [0] with
  | error p => exact ⟨p, rfl⟩
  | ok ranges => exact absurd ⟨ranges, h⟩ hranges

end Scans

section Runs

variable {κ ρ τ : Type}

/-- The `LIMIT` is zero, so nothing is scanned. -/
def QueryPlan.LimitZero (plan : QueryPlan κ ρ τ) (env : ExecEnv κ) : Prop :=
  ∃ offset, plan.limits (env.ctx .setup) = .ok (0, offset)

variable {plan : QueryPlan κ ρ τ} {env : ExecEnv κ} {rows : GoMap ρ} {out : List (List (Datum κ))}

theorem runRows_pushdown (hsteady : ∀ e, plan.whereExpr = some e → e.steady = true)
    (hnames : ∀ e, plan.whereExpr = some e → e.namesClear = true) {limits : Int × Int}
    (h : plan.runRows (env.pushdown false) limits rows = .ok out) :
    plan.runRows (env.pushdown true) limits rows = .ok out := by
  unfold QueryPlan.runRows at h ⊢
  cases hscan : plan.scanSource (env.pushdown false) rows
      (plan.selected (env.pushdown false) (plan.emitRow limits)) .empty with
  | error f =>
    rw [hscan] at h
    cases h
  | ok res =>
    rw [hscan] at h
    have hpushed : plan.scanSource (env.pushdown true) rows
        (plan.selected (env.pushdown true) (plan.emitRow limits)) .empty = .ok res :=
      scanSource_pushdown hsteady hnames env hscan
    rw [hpushed]
    exact h

theorem runGroups_pushdown (hsteady : ∀ e, plan.whereExpr = some e → e.steady = true)
    (hnames : ∀ e, plan.whereExpr = some e → e.namesClear = true) {limits : Int × Int}
    (h : plan.runGroups (env.pushdown false) limits rows = .ok out) :
    plan.runGroups (env.pushdown true) limits rows = .ok out := by
  unfold QueryPlan.runGroups at h ⊢
  have hlimits : aggLimits ((env.pushdown true).ctx .setup) plan.aggs 0 =
      aggLimits ((env.pushdown false).ctx .setup) plan.aggs 0 := rfl
  rw [hlimits]
  cases haggs : aggLimits ((env.pushdown false).ctx .setup) plan.aggs 0 with
  | error st =>
    rw [haggs] at h
    cases h
  | ok perAgg =>
    rw [haggs] at h
    dsimp only at h ⊢
    cases hscan : plan.scanSource (env.pushdown false) rows
        (plan.selected (env.pushdown false) (plan.groupRow perAgg)) [] with
    | error f =>
      rw [hscan] at h
      cases h
    | ok res =>
      rw [hscan] at h
      have hpushed : plan.scanSource (env.pushdown true) rows
          (plan.selected (env.pushdown true) (plan.groupRow perAgg)) [] = .ok res :=
        scanSource_pushdown hsteady hnames env hscan
      rw [hpushed]
      exact h

/-- A run of which the names are clear gives its rows with and without pushdown. -/
theorem run_pushdown (hsteady : ∀ e, plan.whereExpr = some e → e.steady = true)
    (hnames : ∀ e, plan.whereExpr = some e → e.namesClear = true)
    (h : plan.run (env.pushdown false) rows = .ok out) :
    plan.run (env.pushdown true) rows = .ok out := by
  unfold QueryPlan.run at h ⊢
  have hctx : plan.limits ((env.pushdown true).ctx .setup) =
      plan.limits ((env.pushdown false).ctx .setup) := rfl
  rw [hctx]
  cases hlimits : plan.limits ((env.pushdown false).ctx .setup) with
  | error st =>
    rw [hlimits] at h
    cases h
  | ok limits =>
    rw [hlimits] at h
    dsimp only at h ⊢
    by_cases hzero : limits.1 = 0
    · rw [if_pos hzero] at h ⊢
      exact h
    rw [if_neg hzero] at h ⊢
    by_cases haggs : plan.aggregated = true
    · rw [if_pos haggs] at h ⊢
      exact runGroups_pushdown hsteady hnames h
    · rw [if_neg haggs] at h ⊢
      exact runRows_pushdown hsteady hnames h

/-- With `LIMIT 0` nothing is scanned, with and without pushdown. -/
theorem run_limitZero (hzero : plan.LimitZero env) (on : Bool) (rows : GoMap ρ) :
    plan.run (env.pushdown on) rows = .ok [] := by
  obtain ⟨offset, hlimits⟩ := hzero
  have hlimits : plan.limits ((env.pushdown on).ctx .setup) = .ok (0, offset) := hlimits
  unfold QueryPlan.run
  rw [hlimits]
  rfl

/-- A run that gives rows without pushdown panics with it if a name is mistaken for an
operator. -/
theorem run_panics (hnames : ¬ ∀ e, plan.whereExpr = some e → e.namesClear = true)
    (hzero : ¬ plan.LimitZero env) (h : plan.run (env.pushdown false) rows = .ok out) :
    ∃ p, plan.run (env.pushdown true) rows = .error (.panic p) := by
  unfold QueryPlan.run at h ⊢
  have hctx : plan.limits ((env.pushdown true).ctx .setup) =
      plan.limits ((env.pushdown false).ctx .setup) := rfl
  rw [hctx]
  cases hlimits : plan.limits ((env.pushdown false).ctx .setup) with
  | error st =>
    rw [hlimits] at h
    cases h
  | ok limits =>
    rw [hlimits] at h
    dsimp only at h ⊢
    have hne : limits.1 ≠ 0 := by
      intro hl
      refine hzero ⟨limits.2, ?_⟩
      rw [← hl]
      exact hlimits
    rw [if_neg hne] at h ⊢
    by_cases haggs : plan.aggregated = true
    · rw [if_pos haggs] at h ⊢
      unfold QueryPlan.runGroups at h ⊢
      have hagg : aggLimits ((env.pushdown true).ctx .setup) plan.aggs 0 =
          aggLimits ((env.pushdown false).ctx .setup) plan.aggs 0 := rfl
      rw [hagg]
      cases hper : aggLimits ((env.pushdown false).ctx .setup) plan.aggs 0 with
      | error st =>
        rw [hper] at h
        cases h
      | ok perAgg =>
        obtain ⟨p, hp⟩ := scanSource_panics hnames env rows
          (plan.selected (env.pushdown true) (plan.groupRow perAgg)) []
        dsimp only
        rw [hp]
        exact ⟨p, rfl⟩
    · rw [if_neg haggs] at h ⊢
      unfold QueryPlan.runRows
      obtain ⟨p, hp⟩ := scanSource_panics hnames env rows
        (plan.selected (env.pushdown true) (plan.emitRow limits)) .empty
      rw [hp]
      exact ⟨p, rfl⟩

/-- `SELECT _key FROM t WHERE cond`. -/
def selectKey (cond : BExpr Empty) : QueryPlan Empty Unit Unit where
  temporal := fun _ => .ok (fun _ => true)
  column := fun _ _ _ => .ok .null
  whereExpr := some cond
  aggregated := false
  groupKeys := []
  aggs := []
  having := none
  outExprs := [.column "_key" 0]
  order := []
  orderNoop := false
  compareOrder := fun _ _ => .eq
  distinct := false
  limit := none
  offset := none
  mv := none
  valueKey := fun _ => []

/-- The rows `a`, `b` and `c`. -/
def letterRows : GoMap Unit :=
  ((Std.ExtTreeMap.empty.insert [0x61] ()).insert [0x62] ()).insert [0x63] ()

/-- The column `_key`. -/
def keyColumn : BExpr Empty :=
  .column "_key" 0

/-- A literal of type `BYTES`. -/
def bytesLiteral (b : Bytes) : BExpr Empty :=
  .const .bytes (.scalar (.bytes b))

/-- The output row of a key. -/
def keyRow (b : Bytes) : List (Datum Empty) :=
  [.scalar (.bytes b)]

/-- `_key >= b'c' OR _key LIKE b'a%'`. -/
def endsCondition : BExpr Empty :=
  .or (.compare .ge keyColumn (bytesLiteral [0x63]))
    (.like false keyColumn (bytesLiteral [0x61, 0x25]))

/-- `IF(cond, then, else)`. -/
def ifCall (_now : Int) (args : List (Except Status (Datum Empty))) : Except Status (Datum Empty) :=
  match args with
  | [.ok (.scalar (.bool true)), a, _] => a
  | [.ok _, _, b] => b
  | [.error st, _, _] => .error st
  | _ => .ok .null

/-- `_key = IF(RAND() < 0.5, b'a', b'b')`. -/
def coinCondition : BExpr Empty :=
  .compare .eq keyColumn
    (.call .bytes ifCall
      [.compare .lt .rand (.const .other (.scalar (.float 0x3FE0000000000000))),
        bytesLiteral [0x61], bytesLiteral [0x62]])

/-- The numbers 0.75 at the row `b` and 0.25 elsewhere. -/
def coinDraws : Site → List Nat → UInt64
  | .row [0x62], _ => 0x3FE8000000000000
  | _, _ => 0x3FD0000000000000

end Runs

end Gsql
end LittleBigtable
