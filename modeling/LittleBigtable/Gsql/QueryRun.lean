import LittleBigtable.Gsql.Pushdown
import LittleBigtable.Lib.Visit

/-!
# The run of a query over a base table

The executor scans the rows of the key ranges, tests the `WHERE` clause on each visible
row and hands the rows that pass to the output or to their groups; the output applies
`DISTINCT`, `ORDER BY`, `OFFSET` and `LIMIT`.

The columns of a row, the aggregate functions, the sort order and the keys by which values
are told apart are parameters of the plan.  A place is the path of an expression in its
clause, with the number of the clause at the end.
-/

namespace LittleBigtable
namespace Gsql

open Bttest
open HalfOpen
open Visit

section Plan

/-- An aggregate call and its runner. -/
structure AggSpec (κ τ : Type) where
  name : String
  args : List (BExpr κ)
  orderBy : List (BExpr κ)
  limit : Option (BExpr κ)
  newRunner : Int → τ
  add : τ → List (Datum κ) → List (Datum κ) → Except Status τ
  result : τ → Except Status (Datum κ)

/-- The output rules of a continuous materialized view. -/
structure MvSpec (κ : Type) where
  accept : List (Datum κ) → Bool
  less : List (Datum κ) → List (Datum κ) → Bool

/-- `queryPlan` over a base table with rows of type `ρ`. -/
structure QueryPlan (κ ρ τ : Type) where
  /-- The temporal filter, as the test for visible rows. -/
  temporal : EvalCtx κ → Except Status (ρ → Bool)
  /-- The columns behind the key. -/
  column : Bytes → ρ → Nat → Except Status (Datum κ)
  whereExpr : Option (BExpr κ)
  aggregated : Bool
  groupKeys : List (BExpr κ)
  aggs : List (AggSpec κ τ)
  having : Option (BExpr κ)
  outExprs : List (BExpr κ)
  order : List (BExpr κ)
  orderNoop : Bool
  compareOrder : List (Datum κ) → List (Datum κ) → Ordering
  distinct : Bool
  limit : Option (BExpr κ)
  offset : Option (BExpr κ)
  mv : Option (MvSpec κ)
  valueKey : List (Datum κ) → Bytes

/-- Where in a run an expression is evaluated. -/
inductive Site
  | setup
  | ranges
  | row (key : Bytes)
  | group (idx : Nat)
deriving DecidableEq

/-- `execEnv`; `rand` gives the numbers that are drawn in the run. -/
structure ExecEnv (κ : Type) where
  params : List (Datum κ)
  now : Int
  noPushdown : Bool
  rand : Site → List Nat → UInt64

/-- How a run ends without a result. -/
inductive Failure
  | status (st : Status)
  | panic (p : Panic)
deriving DecidableEq

variable {κ ρ τ : Type}

/-- The context outside of rows and groups. -/
def ExecEnv.ctx (env : ExecEnv κ) (site : Site) : EvalCtx κ :=
  ⟨none, env.params, [], [], env.now, env.rand site⟩

/-- The context of a row; the key is the first column. -/
def ExecEnv.rowCtx (env : ExecEnv κ) (plan : QueryPlan κ ρ τ) (key : Bytes) (row : ρ) : EvalCtx κ :=
  { env.ctx (.row key) with
    row := some (fun i => if i = 0 then .ok (.scalar (.bytes key)) else plan.column key row i) }

/-- The context of a group. -/
def ExecEnv.groupCtx (env : ExecEnv κ) (idx : Nat) (keys aggs : List (Datum κ)) : EvalCtx κ :=
  { env.ctx (.group idx) with group := keys, aggs := aggs }

/-- `isEvalError`. -/
def isEvalError (st : Status) : Bool :=
  st.code == .outOfRange || st.code == .invalidArgument

/-- A view skips rows whose evaluation fails. -/
def QueryPlan.skipErr (plan : QueryPlan κ ρ τ) (st : Status) : Bool :=
  plan.mv.isSome && isEvalError st

/-- A constant that must be a non-negative integer. -/
def nonNegative (ec : EvalCtx κ) (path : List Nat) (invalid : Status)
    (e : BExpr κ) : Except Status Int :=
  match e.eval ec path with
  | .error st => .error st
  | .ok (.scalar (.int64 n)) => if n < 0 then .error invalid else .ok n
  | .ok _ => .error invalid

/-- `limits`; without `LIMIT` the limit is `-1`. -/
def QueryPlan.limits (plan : QueryPlan κ ρ τ) (ec : EvalCtx κ) : Except Status (Int × Int) := do
  let limit ← (match plan.limit with
    | none => .ok (-1)
    | some e => nonNegative ec [7] (invalidf "LIMIT must be a non-negative, non-NULL INT64" []) e)
  let offset ← (match plan.offset with
    | none => .ok 0
    | some e => nonNegative ec [8] (invalidf "OFFSET must be a non-negative, non-NULL INT64" []) e)
  .ok (limit, offset)

/-- The results of a list of expressions of one clause. -/
def evalClause (ec : EvalCtx κ) (path : List Nat)
    (es : List (BExpr κ)) : Except Status (List (Datum κ)) :=
  collect (BExpr.evalAll ec es path 0)

/-- The condition is absent or true. -/
def conditionHolds (ec : EvalCtx κ) (path : List Nat)
    (cond : Option (BExpr κ)) : Except Status Bool :=
  match cond with
  | none => .ok true
  | some e =>
    match e.eval ec path with
    | .error st => .error st
    | .ok (.scalar (.bool true)) => .ok true
    | .ok _ => .ok false

/-- The output values and the sort keys. -/
def QueryPlan.project (plan : QueryPlan κ ρ τ)
    (ec : EvalCtx κ) : Except Status (List (Datum κ) × List (Datum κ)) := do
  let vals ← evalClause ec [4] plan.outExprs
  let keys ← (if plan.order.isEmpty || plan.orderNoop then .ok []
    else evalClause ec [5] plan.order)
  .ok (vals, keys)

end Plan

section Output

variable {κ ρ τ : Type}

/-- `sink`. -/
structure Sink (κ : Type) where
  seen : List Bytes
  rows : List (List (Datum κ) × List (Datum κ))
  skipped : Int
  emitted : Int
  out : List (List (Datum κ))

def Sink.empty : Sink κ :=
  ⟨[], [], 0, 0, []⟩

def Sink.push (limits : Int × Int) (s : Sink κ) (vals : List (Datum κ)) : Sink κ × Bool :=
  if s.skipped < limits.2 then
    ({ s with skipped := s.skipped + 1 }, true)
  else if 0 ≤ limits.1 ∧ limits.1 ≤ s.emitted then
    (s, false)
  else
    ({ s with out := s.out ++ [vals], emitted := s.emitted + 1 },
      decide (limits.1 < 0 ∨ s.emitted + 1 < limits.1))

def QueryPlan.sorting (plan : QueryPlan κ ρ τ) : Bool :=
  (!plan.order.isEmpty && !plan.orderNoop) || plan.mv.isSome

/-- `add`, behind the rules of the view and `DISTINCT`. -/
def QueryPlan.addKept (plan : QueryPlan κ ρ τ) (limits : Int × Int) (s : Sink κ)
    (vals keys : List (Datum κ)) : Sink κ × Bool :=
  if plan.sorting then
    ({ s with rows := s.rows ++ [(vals, keys)] }, true)
  else
    s.push limits vals

def QueryPlan.add (plan : QueryPlan κ ρ τ) (limits : Int × Int) (s : Sink κ)
    (vals keys : List (Datum κ)) : Sink κ × Bool :=
  if plan.mv.any (fun mv => !mv.accept vals) then
    (s, true)
  else if plan.distinct then
    if plan.valueKey vals ∈ s.seen then
      (s, true)
    else
      plan.addKept limits { s with seen := plan.valueKey vals :: s.seen } vals keys
  else
    plan.addKept limits s vals keys

/-- The order of the buffered rows. -/
def QueryPlan.less (plan : QueryPlan κ ρ τ) (a b : List (Datum κ) × List (Datum κ)) : Bool :=
  match plan.mv with
  | some mv => mv.less a.1 b.1
  | none => plan.compareOrder a.2 b.2 == .lt

def pushAll (limits : Int × Int) : Sink κ → List (List (Datum κ) × List (Datum κ)) → Sink κ
  | s, [] => s
  | s, r :: rs =>
    match s.push limits r.1 with
    | (s', true) => pushAll limits s' rs
    | (s', false) => s'

/-- The buffered rows in a stable sort are pushed until the limit is reached. -/
def QueryPlan.finish (plan : QueryPlan κ ρ τ) (limits : Int × Int)
    (s : Sink κ) : List (List (Datum κ)) :=
  if plan.sorting then
    (pushAll limits s (s.rows.insertionSort (fun a b => plan.less b a = false))).out
  else
    s.out

end Output

section Scan

variable {κ ρ τ σ : Type}

/-- The rows that `Catalog.Scan` delivers for a range. -/
def scanRange (rows : GoMap ρ) (r : ScanRange) : List (Bytes × ρ) :=
  part Prod.fst rows.toList r

/-- The callback of `scan` on a row of the table. -/
def QueryPlan.onRow (visible : ρ → Bool) (fn : σ → Bytes → ρ → Except Failure (σ × Bool)) (s : σ)
    (kv : Bytes × ρ) : Except Failure (σ × Bool) :=
  if visible kv.2 then fn s kv.1 kv.2 else .ok (s, true)

/-- `scanSource` on a base table. -/
def QueryPlan.scanSource (plan : QueryPlan κ ρ τ) (env : ExecEnv κ) (rows : GoMap ρ)
    (fn : σ → Bytes → ρ → Except Failure (σ × Bool)) (s : σ) : Except Failure (σ × Bool) :=
  match keyRanges (env.ctx .ranges) env.noPushdown plan.whereExpr [0] with
  | .error p => .error (.panic p)
  | .ok ranges =>
    match plan.temporal (env.ctx .setup) with
    | .error st => .error (.status st)
    | .ok visible =>
      visit (fun s r => visit (QueryPlan.onRow visible fn) s (scanRange rows r)) s ranges

/-- The rows that are delivered if the scan is not stopped. -/
def QueryPlan.scanned (plan : QueryPlan κ ρ τ) (env : ExecEnv κ)
    (rows : GoMap ρ) : List (Bytes × ρ) :=
  match keyRanges (env.ctx .ranges) env.noPushdown plan.whereExpr [0] with
  | .error _ => []
  | .ok ranges => ranges.flatMap (scanRange rows)

/-- The test of the `WHERE` clause that comes before everything else on a row. -/
def QueryPlan.selected (plan : QueryPlan κ ρ τ) (env : ExecEnv κ)
    (body : σ → EvalCtx κ → Except Failure (σ × Bool)) (s : σ) (key : Bytes)
    (row : ρ) : Except Failure (σ × Bool) :=
  match conditionHolds (env.rowCtx plan key row) [0] plan.whereExpr with
  | .error st => if plan.skipErr st then .ok (s, true) else .error (.status st)
  | .ok false => .ok (s, true)
  | .ok true => body s (env.rowCtx plan key row)

end Scan

section Run

variable {κ ρ τ : Type}

/-- The part of a result that a view may skip. -/
def QueryPlan.orSkip {α σ : Type} (plan : QueryPlan κ ρ τ) (s : σ) (res : Except Status α)
    (next : α → Except Failure (σ × Bool)) : Except Failure (σ × Bool) :=
  match res with
  | .error st => if plan.skipErr st then .ok (s, true) else .error (.status st)
  | .ok a => next a

/-- What a plan without groups does with a row. -/
def QueryPlan.emitRow (plan : QueryPlan κ ρ τ) (limits : Int × Int) (s : Sink κ)
    (ec : EvalCtx κ) : Except Failure (Sink κ × Bool) :=
  plan.orSkip s (plan.project ec) (fun out => .ok (plan.add limits s out.1 out.2))

/-- `group`, with the text by which it is found. -/
structure Group (κ τ : Type) where
  id : Bytes
  keys : List (Datum κ)
  runners : List τ

/-- The limits of the aggregate calls. -/
def aggLimits (ec : EvalCtx κ) : List (AggSpec κ τ) → Nat → Except Status (List Int)
  | [], _ => .ok []
  | s :: aggs, i => do
    let limit ← (match s.limit with
      | none => .ok (-1)
      | some e =>
        nonNegative ec [i, 9] (invalidf
          "LIMIT in aggregate function %s must be a non-negative INT64" [.text s.name]) e)
    let rest ← aggLimits ec aggs (i + 1)
    .ok (limit :: rest)

def QueryPlan.newGroup (plan : QueryPlan κ ρ τ) (limits : List Int) (id : Bytes)
    (keys : List (Datum κ)) : Group κ τ :=
  ⟨id, keys, List.zipWith (fun s limit => s.newRunner limit) plan.aggs limits⟩

/-- The arguments and the sort keys of the aggregate calls on a row. -/
def aggInputs (ec : EvalCtx κ) :
    List (AggSpec κ τ) → Nat → Except Status (List (List (Datum κ) × List (Datum κ)))
  | [], _ => .ok []
  | s :: aggs, i => do
    let args ← evalClause ec [i, 2] s.args
    let keys ← evalClause ec [i, 3] s.orderBy
    let rest ← aggInputs ec aggs (i + 1)
    .ok ((args, keys) :: rest)

/-- Every runner takes its arguments; a view passes over runners that fail. -/
def QueryPlan.addRunners (plan : QueryPlan κ ρ τ) :
    List (AggSpec κ τ) → List τ → List (List (Datum κ) × List (Datum κ)) → Except Status (List τ)
  | s :: aggs, r :: runners, i :: inputs =>
    match s.add r i.1 i.2 with
    | .error st =>
      if plan.skipErr st then
        (QueryPlan.addRunners plan aggs runners inputs).map (fun rs => r :: rs)
      else
        .error st
    | .ok r' => (QueryPlan.addRunners plan aggs runners inputs).map (fun rs => r' :: rs)
  | _, runners, _ => .ok runners

/-- The group with this text takes the row. -/
def QueryPlan.addToGroup (plan : QueryPlan κ ρ τ) (id : Bytes)
    (inputs : List (List (Datum κ) × List (Datum κ))) :
    List (Group κ τ) → Except Status (List (Group κ τ))
  | [] => .ok []
  | g :: groups =>
    if g.id = id then
      (plan.addRunners plan.aggs g.runners inputs).map
        (fun rs => { g with runners := rs } :: groups)
    else
      (QueryPlan.addToGroup plan id inputs groups).map (fun gs => g :: gs)

/-- What a plan with groups does with a row. -/
def QueryPlan.groupRow (plan : QueryPlan κ ρ τ) (limits : List Int) (groups : List (Group κ τ))
    (ec : EvalCtx κ) : Except Failure (List (Group κ τ) × Bool) :=
  plan.orSkip groups (evalClause ec [1] plan.groupKeys) (fun keys =>
    plan.orSkip groups (aggInputs ec plan.aggs 0) (fun inputs =>
      let id := plan.valueKey keys
      let groups :=
        if groups.any (fun g => g.id = id) then groups
        else groups ++ [plan.newGroup limits id keys]
      match plan.addToGroup id inputs groups with
      | .error st => .error (.status st)
      | .ok groups => .ok (groups, true)))

/-- The output of a group. -/
def QueryPlan.emitGroup (plan : QueryPlan κ ρ τ) (env : ExecEnv κ) (limits : Int × Int) (s : Sink κ)
    (g : Nat × Group κ τ) : Except Failure (Sink κ × Bool) :=
  plan.orSkip s (collect (List.zipWith (fun a r => a.result r) plan.aggs g.2.runners)) (fun aggs =>
      let ec := env.groupCtx g.1 g.2.keys aggs
      plan.orSkip s (conditionHolds ec [6] plan.having) (fun holds =>
        if holds then plan.emitRow limits s ec else .ok (s, true)))

/-- Without group keys there is one group even if there are no rows. -/
def QueryPlan.allGroups (plan : QueryPlan κ ρ τ) (limits : List Int)
    (groups : List (Group κ τ)) : List (Nat × Group κ τ) :=
  let groups :=
    if groups.isEmpty && plan.groupKeys.isEmpty then [plan.newGroup limits [] []] else groups
  groups.zipIdx.map (fun g => (g.2, g.1))

/-- `run` of a plan without groups. -/
def QueryPlan.runRows (plan : QueryPlan κ ρ τ) (env : ExecEnv κ) (limits : Int × Int)
    (rows : GoMap ρ) : Except Failure (List (List (Datum κ))) :=
  (plan.scanSource env rows (plan.selected env (plan.emitRow limits)) .empty).map
    (fun res => plan.finish limits res.1)

/-- `run` of a plan with groups. -/
def QueryPlan.runGroups (plan : QueryPlan κ ρ τ) (env : ExecEnv κ) (limits : Int × Int)
    (rows : GoMap ρ) : Except Failure (List (List (Datum κ))) :=
  match aggLimits (env.ctx .setup) plan.aggs 0 with
  | .error st => .error (.status st)
  | .ok perAgg =>
    match plan.scanSource env rows (plan.selected env (plan.groupRow perAgg)) [] with
    | .error f => .error f
    | .ok (groups, _) =>
      (visit (plan.emitGroup env limits) .empty (plan.allGroups perAgg groups)).map
        (fun res => plan.finish limits res.1)

/-- `run`: the output rows in order. -/
def QueryPlan.run (plan : QueryPlan κ ρ τ) (env : ExecEnv κ)
    (rows : GoMap ρ) : Except Failure (List (List (Datum κ))) :=
  match plan.limits (env.ctx .setup) with
  | .error st => .error (.status st)
  | .ok limits =>
    if limits.1 = 0 then
      .ok []
    else if plan.aggregated then
      plan.runGroups env limits rows
    else
      plan.runRows env limits rows

end Run

end Gsql
end LittleBigtable
