import LittleBigtable.Gsql.Aggregates
import LittleBigtable.Gsql.PushdownInvisible

/-!
# The run of a plan

An ordinary plan with its aggregate calls and its order, and the run of a plan over the rows
of any source.  A row of a source is the context in which the expressions of the plan are
evaluated on it.
-/

namespace LittleBigtable
namespace Gsql

open Bttest
open Fallible
open HalfOpen
open Visit

section Plan

/-- `queryPlan` of an ordinary query; `onTable` holds if the source is a base table. -/
structure SelectPlan where
  onTable : Bool
  whereExpr : Option (BExpr NestedValue)
  groupKeys : List (BExpr NestedValue)
  aggs : List AggCall
  having : Option (BExpr NestedValue)
  outExprs : List (BExpr NestedValue)
  order : List OrderSpec
  distinct : Bool
  limit : Option (BExpr NestedValue)
  offset : Option (BExpr NestedValue)

def SelectPlan.aggregated (p : SelectPlan) : Bool :=
  !p.groupKeys.isEmpty || !p.aggs.isEmpty

/-- The order is that of the scan of a base table: ascending by its key. -/
def SelectPlan.orderNoop (p : SelectPlan) : Bool :=
  match p.order with
  | [] => false
  | s :: _ => !p.aggregated && p.onTable && s.expr.isBaseKey && !s.desc

/-- The plan as the executor runs it, over a table with rows of type `ρ`. -/
def SelectPlan.plan {ρ : Type} (fa : FloatArith)
    (temporal : EvalCtx NestedValue → Except Status (ρ → Bool))
    (column : Bytes → ρ → Nat → Except Status SqlDatum)
    (p : SelectPlan) : QueryPlan NestedValue ρ AggRunner where
  temporal := temporal
  column := column
  whereExpr := p.whereExpr
  aggregated := p.aggregated
  groupKeys := p.groupKeys
  aggs := p.aggs.map (AggCall.spec fa)
  having := p.having
  outExprs := p.outExprs
  order := p.order.map OrderSpec.expr
  orderNoop := p.orderNoop
  compareOrder := compareOrder p.order
  distinct := p.distinct
  limit := p.limit
  offset := p.offset
  mv := none
  valueKey := fun vs => tupleKey (vs.map Datum.value)

end Plan

section Source

variable {κ ρ τ σ : Type}

/-- The callback of `run` on a row of any source. -/
def QueryPlan.onSource (plan : QueryPlan κ ρ τ) (body : σ → EvalCtx κ → Except Failure (σ × Bool))
    (s : σ) (ec : EvalCtx κ) : Except Failure (σ × Bool) :=
  match conditionHolds ec [0] plan.whereExpr with
  | .error st => if plan.skipErr st then .ok (s, true) else .error (.status st)
  | .ok false => .ok (s, true)
  | .ok true => body s ec

/-- `run` without groups, over the rows of a source. -/
def QueryPlan.runRowsOver (plan : QueryPlan κ ρ τ) (limits : Int × Int)
    (ctxs : List (EvalCtx κ)) : Except Failure (List (List (Datum κ))) :=
  (visit (plan.onSource (plan.emitRow limits)) .empty ctxs).map
    (fun res => plan.finish limits res.1)

/-- `run` with groups, over the rows of a source. -/
def QueryPlan.runGroupsOver (plan : QueryPlan κ ρ τ) (env : ExecEnv κ) (limits : Int × Int)
    (ctxs : List (EvalCtx κ)) : Except Failure (List (List (Datum κ))) :=
  match aggLimits (env.ctx .setup) plan.aggs 0 with
  | .error st => .error (.status st)
  | .ok perAgg =>
    match visit (plan.onSource (plan.groupRow perAgg)) [] ctxs with
    | .error f => .error f
    | .ok (groups, _) =>
      (visit (plan.emitGroup env limits) .empty (plan.allGroups perAgg groups)).map
        (fun res => plan.finish limits res.1)

/-- `run` over the rows of a source. -/
def QueryPlan.runOver (plan : QueryPlan κ ρ τ) (env : ExecEnv κ)
    (ctxs : List (EvalCtx κ)) : Except Failure (List (List (Datum κ))) :=
  match plan.limits (env.ctx .setup) with
  | .error st => .error (.status st)
  | .ok limits =>
    if limits.1 = 0 then
      .ok []
    else if plan.aggregated then
      plan.runGroupsOver env limits ctxs
    else
      plan.runRowsOver limits ctxs

/-- The rows that the scan of a base table hands to the callback. -/
def QueryPlan.tableRows (plan : QueryPlan κ ρ τ) (env : ExecEnv κ) (ranges : List ScanRange)
    (visible : ρ → Bool) (rows : GoMap ρ) : List (EvalCtx κ) :=
  ((ranges.flatMap (scanRange rows)).filter (fun kv => visible kv.2)).map
    (fun kv => env.rowCtx plan kv.1 kv.2)

end Source

end Gsql
end LittleBigtable
