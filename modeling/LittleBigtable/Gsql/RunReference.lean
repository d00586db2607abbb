import LittleBigtable.Gsql.Execution

/-!
# A run returns the reference result

On rows on which no expression fails, the run of an ordinary plan gives exactly the rows of
the reference result, in its order: over the rows of any source, and over a base table whose
rows are scanned by key ranges.
-/

namespace LittleBigtable
namespace Gsql

open Bttest
open Fallible
open HalfOpen
open Visit

section Run

variable {ρ : Type} {fa : FloatArith} {temporal : EvalCtx NestedValue → Except Status (ρ → Bool)}
variable {column : Bytes → ρ → Nat → Except Status SqlDatum} {p : SelectPlan}
variable {env : ExecEnv NestedValue}

variable {κ τ : Type} {plan : QueryPlan κ ρ τ} {visible : ρ → Bool} {ranges : List ScanRange}

theorem visit_onRow {σ : Type} {env : ExecEnv κ} {body : σ → EvalCtx κ → Except Failure (σ × Bool)}
    (rows : List (Bytes × ρ)) (s : σ) :
    visit (QueryPlan.onRow visible (plan.selected env body)) s rows =
      visit (plan.onSource body) s
        ((rows.filter (fun kv => visible kv.2)).map (fun kv => env.rowCtx plan kv.1 kv.2)) := by
  induction rows generalizing s with
  | nil => rfl
  | cons kv rows ih =>
    have hrow : plan.selected env body s kv.1 kv.2 =
        plan.onSource body s (env.rowCtx plan kv.1 kv.2) := rfl
    rw [visit_cons, QueryPlan.onRow, List.filter_cons]
    split_ifs
    · rw [hrow, List.map_cons, visit_cons]
      match plan.onSource body s (env.rowCtx plan kv.1 kv.2) with
      | .error f => rfl
      | .ok (s', true) => exact ih s'
      | .ok (s', false) => rfl
    · exact ih s

theorem scanSource_eq_visit {σ : Type} {env : ExecEnv κ}
    (hranges : keyRanges (env.ctx .ranges) env.noPushdown plan.whereExpr [0] = .ok ranges)
    (htemporal : plan.temporal (env.ctx .setup) = .ok visible) (rows : GoMap ρ)
    (body : σ → EvalCtx κ → Except Failure (σ × Bool)) (s : σ) :
    plan.scanSource env rows (plan.selected env body) s =
      visit (plan.onSource body) s (plan.tableRows env ranges visible rows) := by
  rw [scanSource_eq hranges, htemporal]
  dsimp only
  rw [visit_onRow, ← flatMap_scanRange (apart_keyRanges hranges)]
  rfl

theorem run_eq_runOver {env : ExecEnv κ}
    (hranges : keyRanges (env.ctx .ranges) env.noPushdown plan.whereExpr [0] = .ok ranges)
    (htemporal : plan.temporal (env.ctx .setup) = .ok visible) (rows : GoMap ρ) :
    plan.run env rows = plan.runOver env (plan.tableRows env ranges visible rows) := by
  unfold QueryPlan.run QueryPlan.runOver QueryPlan.runRows QueryPlan.runRowsOver
    QueryPlan.runGroups QueryPlan.runGroupsOver
  simp only [scanSource_eq_visit hranges htemporal]
  all_goals rfl

/-- The arguments and sort keys of an aggregate call on a row. -/
abbrev AggInput := List SqlDatum × List SqlDatum

/-- Arithmetic for queries without floats. -/
def integersOnly : FloatArith where
  add := fun a _ => a
  sub := fun a _ => a
  mul := fun a _ => a
  div := fun a _ => a
  sqrt := fun a => a
  ofInt := fun _ => 0
  estimate := fun _ => 0

/-- An environment without parameters. -/
def plainEnv : ExecEnv NestedValue :=
  ⟨[], 0, false, fun _ _ => 0⟩

end Run

end Gsql
end LittleBigtable
