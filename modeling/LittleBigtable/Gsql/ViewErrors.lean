import LittleBigtable.Gsql.RunReference

/-!
# Rows of a materialized view that raise errors

A materialized view passes over evaluation errors.  A row on which the `WHERE` clause, a
group key or an argument cannot be evaluated is left out before any aggregate sees it.  The
aggregates take the other rows one after the other, and an aggregate that refuses a row
(an overflow in `SUM`, an invalid sketch) does not keep the others from taking it, nor the
group from being there.

A row that raises an error counts nowhere exactly if it does not split its group
(`Splits`): if an aggregate refuses it, the group is there already and the aggregates that
do not refuse it stay as they are (`error_rows_count_nowhere`).  A sum that overflows next
to a count is counted (`overflow_is_counted`).
-/

namespace LittleBigtable
namespace Gsql

open Bttest List
open Fallible
open Visit

section Plan

/-- `mvAggregates`. -/
def AggFunction.inView : AggFunction → Bool
  | .count => true
  | .countStar => true
  | .sumInt => true
  | .sumFloat => true
  | .minMax _ => true
  | .avg => true
  | .anyValue => true
  | .bit _ => true
  | .hllInit _ => true
  | .hllMerge => true
  | .hllMergePartial => true
  | _ => false

/-- The calls that a view may have; those that allow `ORDER BY`, `LIMIT` or `IGNORE NULLS`
are not among its aggregate functions. -/
structure AggCall.InView (c : AggCall) : Prop where
  fn : c.fn.inView = true
  distinct : c.distinct = false
  ignoreNulls : c.ignoreNulls = false
  orderBy : c.orderBy = []
  limit : c.limit = none

/-- The plan of a view with `GROUP BY`; `HAVING`, `DISTINCT`, `LIMIT` and `OFFSET` are not
supported. -/
structure AggregatedView where
  whereExpr : Option (BExpr NestedValue)
  groupKeys : List (BExpr NestedValue)
  aggs : List AggCall
  outExprs : List (BExpr NestedValue)
  columns : MvPlan
  grouped : groupKeys ≠ []
  calls : ∀ c ∈ aggs, c.InView

/-- An output column of a view with groups is a scalar. -/
def Datum.column : SqlDatum → SqlValue
  | .scalar v => .scalar v
  | _ => .map []

def MvPlan.spec (m : MvPlan) : MvSpec NestedValue where
  accept := fun vals => m.accept (vals.map Datum.column)
  less := fun a b => m.less (a.map Datum.column) (b.map Datum.column)

def AggregatedView.plan {ρ : Type} (fa : FloatArith)
    (temporal : EvalCtx NestedValue → Except Status (ρ → Bool))
    (column : Bytes → ρ → Nat → Except Status SqlDatum)
    (v : AggregatedView) : QueryPlan NestedValue ρ AggRunner where
  temporal := temporal
  column := column
  whereExpr := v.whereExpr
  aggregated := true
  groupKeys := v.groupKeys
  aggs := v.aggs.map (AggCall.spec fa)
  having := none
  outExprs := v.outExprs
  order := []
  orderNoop := false
  compareOrder := compareOrder []
  distinct := false
  limit := none
  offset := none
  mv := some v.columns.spec
  valueKey := fun vs => tupleKey (vs.map Datum.value)

end Plan

section Steps

/-- The accumulator refuses the row: the sum overflows, or the sketch is invalid. -/
def AggState.refuses (st : AggState) (args : List NestedValue) : Bool :=
  match st with
  | .sum true _ i _ => !(arg args).isNull && (addInt64 i (arg args).asInt).isNone
  | .hll _ _ true _ => !(arg args).isNull && !(decodeHLL (arg args).asWord).isOk
  | _ => false

/-- The runner refuses the row; a runner that keeps its rows refuses none. -/
def AggCall.refuses (c : AggCall) (r : AggRunner) (args : List SqlDatum) : Bool :=
  !c.buffered r.limit && r.st.refuses (args.map Datum.value)

variable {fa : FloatArith}

/-- An accumulator fails on the rows that it refuses and on no others. -/
theorem AggState.add_or_refuses (fa : FloatArith) (st : AggState) (args : List NestedValue) :
    (st.refuses args = true → ∃ e, st.add fa args = .error e ∧ isEvalError e = true) ∧
      (st.refuses args = false → ∃ st', st.add fa args = .ok st') := by
  cases st with
  | sum isInt any i f =>
    unfold AggState.add AggState.refuses
    cases isInt with
    | false =>
      refine ⟨nofun, fun _ => ?_⟩
      dsimp only
      cases (arg args).isNull <;> exact ⟨_, rfl⟩
    | true =>
      dsimp only
      cases (arg args).isNull with
      | true => exact ⟨nofun, fun _ => ⟨_, rfl⟩⟩
      | false =>
        cases addInt64 i (arg args).asInt with
        | none => exact ⟨fun _ => ⟨_, rfl, rfl⟩, nofun⟩
        | some i' => exact ⟨nofun, fun _ => ⟨_, rfl⟩⟩
  | hll h precision merge counted =>
    unfold AggState.add AggState.refuses
    cases merge with
    | false =>
      refine ⟨nofun, fun _ => ?_⟩
      dsimp only
      cases (arg args).isNull <;> exact ⟨_, rfl⟩
    | true =>
      dsimp only
      cases (arg args).isNull with
      | true => exact ⟨nofun, fun _ => ⟨_, rfl⟩⟩
      | false =>
        cases decodeHLL (arg args).asWord with
        | error text => exact ⟨fun _ => ⟨_, rfl, rfl⟩, nofun⟩
        | ok o => exact ⟨nofun, fun _ => ⟨_, rfl⟩⟩
  | stringAgg isStr parts delim any =>
    refine ⟨nofun, fun _ => ?_⟩
    unfold AggState.add
    dsimp only
    split
    · exact ⟨_, rfl⟩
    · split
      · split <;> exact ⟨_, rfl⟩
      · exact ⟨_, rfl⟩
  | arrayAgg vals any concat =>
    refine ⟨nofun, fun _ => ?_⟩
    unfold AggState.add
    dsimp only
    split
    · split <;> exact ⟨_, rfl⟩
    · exact ⟨_, rfl⟩
  | _ =>
    refine ⟨nofun, fun _ => ?_⟩
    unfold AggState.add
    dsimp only
    split_ifs <;> exact ⟨_, rfl⟩

theorem AggCall.add_or_refuses (fa : FloatArith) {c : AggCall} (hc : c.InView) (r : AggRunner)
    (input : AggInput) :
    (c.refuses r input.1 = true →
      ∃ e, c.add fa r input.1 input.2 = .error e ∧ isEvalError e = true) ∧
      (c.refuses r input.1 = false → ∃ r', c.add fa r input.1 input.2 = .ok r') := by
  have hadd : c.add fa r input.1 input.2 = c.take fa r input.1 input.2 := by
    unfold AggCall.add
    rw [hc.ignoreNulls, hc.distinct]
    rfl
  rw [hadd]
  unfold AggCall.take AggCall.refuses
  cases hbuffered : c.buffered r.limit with
  | true => exact ⟨nofun, fun _ => ⟨_, rfl⟩⟩
  | false =>
    obtain ⟨herror, hok⟩ := AggState.add_or_refuses fa r.st (input.1.map Datum.value)
    refine ⟨fun h => ?_, fun h => ?_⟩
    · obtain ⟨e, he, heval⟩ := herror h
      exact ⟨e, by rw [he]; rfl, heval⟩
    · obtain ⟨st, hst⟩ := hok h
      exact ⟨_, by rw [hst]; rfl⟩

/-- The runner after a row. -/
def AggCall.afterStep (fa : FloatArith) (c : AggCall) (r : AggRunner)
    (input : AggInput) : AggRunner :=
  match c.add fa r input.1 input.2 with
  | .ok r' => r'
  | .error _ => r

/-- The runners after a row. -/
def afterSteps (fa : FloatArith) : List AggCall → List AggRunner → List AggInput → List AggRunner
  | c :: calls, r :: runners, input :: inputs =>
    c.afterStep fa r input :: afterSteps fa calls runners inputs
  | _, runners, _ => runners

theorem afterSteps_eq_self_iff {calls : List AggCall} {runners : List AggRunner}
    {inputs : List AggInput} :
    afterSteps fa calls runners inputs = runners ↔
      ∀ s ∈ calls.zip (runners.zip inputs), s.1.afterStep fa s.2.1 s.2.2 = s.2.1 := by
  induction calls generalizing runners inputs with
  | nil => simp [afterSteps]
  | cons c calls ih =>
    cases runners with
    | nil => simp [afterSteps]
    | cons r runners =>
      cases inputs with
      | nil => simp [afterSteps]
      | cons input inputs =>
        simp only [afterSteps, List.cons.injEq, ih, zip_cons_cons, forall_mem_cons]

variable {ρ : Type} {plan : QueryPlan NestedValue ρ AggRunner}

/-- The aggregates of a view take the row or pass over it. -/
theorem addRunners_eq (hmv : plan.mv.isSome = true) {calls : List AggCall}
    (hcalls : ∀ c ∈ calls, c.InView) (runners : List AggRunner) (inputs : List AggInput) :
    plan.addRunners (calls.map (AggCall.spec fa)) runners inputs =
      .ok (afterSteps fa calls runners inputs) := by
  induction calls generalizing runners inputs with
  | nil => rfl
  | cons c calls ih =>
    obtain ⟨hc, hcalls⟩ := forall_mem_cons.mp hcalls
    cases runners with
    | nil => rfl
    | cons r runners =>
      cases inputs with
      | nil => rfl
      | cons input inputs =>
        obtain ⟨herror, hok⟩ := AggCall.add_or_refuses fa hc r input
        have hspec : (c.spec fa).add r input.1 input.2 = c.add fa r input.1 input.2 := rfl
        rw [map_cons, QueryPlan.addRunners, hspec, ih hcalls, afterSteps]
        unfold AggCall.afterStep
        cases hrefuses : c.refuses r input.1 with
        | true =>
          obtain ⟨e, he, heval⟩ := herror hrefuses
          have hskip : plan.skipErr e = true := by
            unfold QueryPlan.skipErr
            rw [hmv, heval]
            rfl
          rw [he]
          dsimp only
          rw [if_pos hskip]
          rfl
        | false =>
          obtain ⟨r', hr'⟩ := hok hrefuses
          rw [hr']
          rfl

end Steps

section Groups

variable {κ τ : Type}

/-- The runners of the group with this text change. -/
def updateGroup (id : Bytes) (f : List τ → List τ) : List (Group κ τ) → List (Group κ τ)
  | [] => []
  | g :: groups =>
    if g.id = id then { g with runners := f g.runners } :: groups
    else g :: updateGroup id f groups

theorem length_updateGroup (id : Bytes) (f : List τ → List τ) (groups : List (Group κ τ)) :
    (updateGroup id f groups).length = groups.length := by
  induction groups with
  | nil => rfl
  | cons g groups ih =>
    rw [updateGroup]
    split_ifs
    · rfl
    · rw [length_cons, ih, length_cons]

theorem updateGroup_eq_self_iff {id : Bytes} {f : List τ → List τ} {groups : List (Group κ τ)} :
    updateGroup id f groups = groups ↔
      ∀ g, groups.find? (fun g => g.id = id) = some g → f g.runners = g.runners := by
  induction groups with
  | nil => exact iff_of_true rfl nofun
  | cons g groups ih =>
    rw [updateGroup, List.find?_cons]
    by_cases hid : g.id = id
    · rw [if_pos hid, decide_eq_true hid]
      dsimp only
      rw [List.cons.injEq]
      constructor
      · rintro ⟨heq, _⟩ g' hg'
        cases hg'
        exact congrArg Group.runners heq
      · intro h
        refine ⟨?_, rfl⟩
        rw [h g rfl]
    · rw [if_neg hid, decide_eq_false hid, List.cons.injEq]
      exact ⟨fun h => ih.mp h.2, fun h => ⟨rfl, ih.mpr h⟩⟩

end Groups

section Rows

namespace AggregatedView

variable {ρ : Type} (fa : FloatArith) (v : AggregatedView)

/-- The group keys of a row and the inputs of the aggregates, unless it is filtered out. -/
def rowInputs (ec : EvalCtx NestedValue) : Except Status (Option (List SqlDatum × List AggInput)) :=
  (conditionHolds ec [0] v.whereExpr).bind (fun holds =>
    if holds then
      (evalClause ec [1] v.groupKeys).bind (fun keys =>
        (aggInputs ec (v.aggs.map (AggCall.spec fa)) 0).map (fun inputs => some (keys, inputs)))
    else
      .ok none)

/-- The text by which the group with these keys is found. -/
def groupId (keys : List SqlDatum) : Bytes :=
  tupleKey (keys.map Datum.value)

/-- A group without rows. -/
def newGroup (keys : List SqlDatum) : Group NestedValue AggRunner :=
  ⟨groupId keys, keys, v.aggs.map (fun c => c.newAggRunner (-1))⟩

/-- The runners that are to take a row with these keys. -/
def runnersFor (groups : List (Group NestedValue AggRunner))
    (keys : List SqlDatum) : List AggRunner :=
  ((groups.find? (fun g => g.id = groupId keys)).getD (v.newGroup keys)).runners

/-- The aggregates on a row, each with its runner and its input. -/
def steps (groups : List (Group NestedValue AggRunner)) (keys : List SqlDatum)
    (inputs : List AggInput) : List (AggCall × AggRunner × AggInput) :=
  v.aggs.zip ((v.runnersFor groups keys).zip inputs)

/-- An aggregate refuses the row. -/
def refused (groups : List (Group NestedValue AggRunner)) (keys : List SqlDatum)
    (inputs : List AggInput) : Bool :=
  (v.steps groups keys inputs).any (fun s => s.1.refuses s.2.1 s.2.2.1)

/-- The groups after every aggregate has been handed the row. -/
def absorb (groups : List (Group NestedValue AggRunner)) (keys : List SqlDatum)
    (inputs : List AggInput) : List (Group NestedValue AggRunner) :=
  updateGroup (groupId keys) (fun runners => afterSteps fa v.aggs runners inputs)
    (if groups.any (fun g => g.id = groupId keys) then groups
      else groups ++ [v.newGroup keys])

/-- The row raises an evaluation error. -/
def raises (groups : List (Group NestedValue AggRunner)) (ec : EvalCtx NestedValue) : Bool :=
  match v.rowInputs fa ec with
  | .error st => isEvalError st
  | .ok none => false
  | .ok (some (keys, inputs)) => v.refused groups keys inputs

/-- What is to become of a row: all aggregates of its group take it, or, if it raises an
evaluation error, none. -/
def allOrNone (groups : List (Group NestedValue AggRunner))
    (ec : EvalCtx NestedValue) : Except Failure (List (Group NestedValue AggRunner) × Bool) :=
  if v.raises fa groups ec then
    .ok (groups, true)
  else
    match v.rowInputs fa ec with
    | .error st => .error (.status st)
    | .ok none => .ok (groups, true)
    | .ok (some (keys, inputs)) => .ok (v.absorb fa groups keys inputs, true)

/-- An aggregate refuses the row, but the group is new or another aggregate takes it. -/
def Splits (groups : List (Group NestedValue AggRunner)) (ec : EvalCtx NestedValue) : Prop :=
  ∃ keys inputs, v.rowInputs fa ec = .ok (some (keys, inputs)) ∧
    v.refused groups keys inputs = true ∧
      ((∀ g ∈ groups, g.id ≠ groupId keys) ∨
        ∃ s ∈ v.steps groups keys inputs, s.1.refuses s.2.1 s.2.2.1 = false ∧
          s.1.add fa s.2.1 s.2.2.1 s.2.2.2 ≠ .ok s.2.1)

end AggregatedView

variable {fa : FloatArith} {v : AggregatedView}

theorem afterStep_eq_self_iff {c : AggCall} (hc : c.InView) {r : AggRunner} {input : AggInput} :
    c.afterStep fa r input = r ↔
      (c.refuses r input.1 = false → c.add fa r input.1 input.2 = .ok r) := by
  obtain ⟨herror, hok⟩ := AggCall.add_or_refuses fa hc r input
  unfold AggCall.afterStep
  cases hrefuses : c.refuses r input.1 with
  | true =>
    obtain ⟨e, he, _⟩ := herror hrefuses
    rw [he]
    exact iff_of_true rfl nofun
  | false =>
    obtain ⟨r', hr'⟩ := hok hrefuses
    rw [hr']
    exact ⟨fun h _ => congrArg Except.ok h, fun h => Except.ok.inj (h rfl)⟩

variable {groups : List (Group NestedValue AggRunner)}

/-- The groups stay as they are if the group is there and no aggregate changes. -/
theorem absorb_eq_self_iff {keys : List SqlDatum} {inputs : List AggInput} :
    v.absorb fa groups keys inputs = groups ↔
      (∃ g ∈ groups, g.id = AggregatedView.groupId keys) ∧
        ∀ s ∈ v.steps groups keys inputs, s.1.refuses s.2.1 s.2.2.1 = false →
          s.1.add fa s.2.1 s.2.2.1 s.2.2.2 = .ok s.2.1 := by
  have hsteps : ∀ {runners : List AggRunner},
      afterSteps fa v.aggs runners inputs = runners ↔
        ∀ s ∈ v.aggs.zip (runners.zip inputs), s.1.refuses s.2.1 s.2.2.1 = false →
          s.1.add fa s.2.1 s.2.2.1 s.2.2.2 = .ok s.2.1 := by
    intro runners
    rw [afterSteps_eq_self_iff]
    refine forall₂_congr fun s hs => afterStep_eq_self_iff (v.calls s.1 ?_)
    exact (of_mem_zip hs).1
  unfold AggregatedView.absorb
  by_cases hgroup : ∃ g ∈ groups, g.id = AggregatedView.groupId keys
  · have hany : groups.any (fun g => g.id = AggregatedView.groupId keys) = true := by
      simpa using hgroup
    obtain ⟨g, hfind⟩ := Option.isSome_iff_exists.mp
      (List.find?_isSome.mpr (by simpa using hgroup) :
        (groups.find? (fun g => g.id = AggregatedView.groupId keys)).isSome = true)
    rw [if_pos hany, updateGroup_eq_self_iff, and_iff_right hgroup]
    unfold AggregatedView.steps AggregatedView.runnersFor
    rw [hfind, Option.getD_some, ← hsteps]
    exact ⟨fun h => h g rfl, fun h g' hg' => by cases hg'; exact h⟩
  · have hany : ¬ groups.any (fun g => g.id = AggregatedView.groupId keys) = true := by
      simpa using hgroup
    rw [if_neg hany]
    refine iff_of_false (fun h => ?_) (fun h => hgroup h.1)
    have hlen := congrArg List.length h
    rw [length_updateGroup, length_append] at hlen
    simp at hlen

variable {ρ : Type} {temporal : EvalCtx NestedValue → Except Status (ρ → Bool)}
variable {column : Bytes → ρ → Nat → Except Status SqlDatum}

/-- No aggregate of a view has a limit. -/
def AggregatedView.limits (v : AggregatedView) : List Int :=
  v.aggs.map (fun _ => -1)

theorem aggLimits_eq (ec : EvalCtx NestedValue) {calls : List AggCall}
    (hcalls : ∀ c ∈ calls, c.InView) (n : Nat) :
    aggLimits ec (calls.map (AggCall.spec fa)) n = .ok (calls.map (fun _ => -1)) := by
  induction calls generalizing n with
  | nil => rfl
  | cons c calls ih =>
    obtain ⟨hc, hcalls⟩ := forall_mem_cons.mp hcalls
    have hlimit : (c.spec fa).limit = none := hc.limit
    rw [map_cons, aggLimits, hlimit, ih hcalls]
    rfl

theorem newGroup_eq (keys : List SqlDatum) :
    (v.plan fa temporal column).newGroup v.limits (AggregatedView.groupId keys) keys =
      v.newGroup keys := by
  have hrunners : ∀ calls : List AggCall,
      zipWith (fun (s : AggSpec NestedValue AggRunner) limit => s.newRunner limit)
          (calls.map (AggCall.spec fa)) (calls.map (fun _ => -1)) =
        calls.map (fun c => c.newAggRunner (-1)) := by
    intro calls
    induction calls with
    | nil => rfl
    | cons c calls ih =>
      rw [map_cons, map_cons, zipWith_cons_cons, ih]
      rfl
  unfold QueryPlan.newGroup AggregatedView.newGroup
  exact congrArg (Group.mk _ _) (hrunners v.aggs)

theorem addToGroup_eq (id : Bytes) (inputs : List AggInput)
    (groups : List (Group NestedValue AggRunner)) :
    (v.plan fa temporal column).addToGroup id inputs groups =
      .ok (updateGroup id (fun runners => afterSteps fa v.aggs runners inputs) groups) := by
  induction groups with
  | nil => rfl
  | cons g groups ih =>
    have hadd : (v.plan fa temporal column).addRunners (v.plan fa temporal column).aggs
        g.runners inputs = .ok (afterSteps fa v.aggs g.runners inputs) :=
      addRunners_eq rfl v.calls g.runners inputs
    rw [QueryPlan.addToGroup, updateGroup, hadd, ih]
    split_ifs <;> rfl

/-- What the run of a view does with a row. -/
def AggregatedView.rowStep (fa : FloatArith)
    (temporal : EvalCtx NestedValue → Except Status (ρ → Bool))
    (column : Bytes → ρ → Nat → Except Status SqlDatum) (v : AggregatedView) :
    List (Group NestedValue AggRunner) → EvalCtx NestedValue →
      Except Failure (List (Group NestedValue AggRunner) × Bool) :=
  (v.plan fa temporal column).onSource ((v.plan fa temporal column).groupRow v.limits)

theorem rowStep_eq (groups : List (Group NestedValue AggRunner)) (ec : EvalCtx NestedValue) :
    v.rowStep fa temporal column groups ec =
      match v.rowInputs fa ec with
      | .error st => if isEvalError st then .ok (groups, true) else .error (.status st)
      | .ok none => .ok (groups, true)
      | .ok (some (keys, inputs)) => .ok (v.absorb fa groups keys inputs, true) := by
  have hskip : ∀ st, (v.plan fa temporal column).skipErr st = isEvalError st := fun _ => rfl
  have hwhere : (v.plan fa temporal column).whereExpr = v.whereExpr := rfl
  unfold AggregatedView.rowStep QueryPlan.onSource AggregatedView.rowInputs
  rw [hwhere]
  match conditionHolds ec [0] v.whereExpr with
  | .error st => rfl
  | .ok false => rfl
  | .ok true =>
    unfold QueryPlan.groupRow QueryPlan.orSkip
    have hkeys : (v.plan fa temporal column).groupKeys = v.groupKeys := rfl
    have haggs : (v.plan fa temporal column).aggs = v.aggs.map (AggCall.spec fa) := rfl
    dsimp only [Except.bind]
    rw [hkeys, haggs]
    match evalClause ec [1] v.groupKeys with
    | .error st => rfl
    | .ok keys =>
      dsimp only [Except.bind]
      match aggInputs ec (v.aggs.map (AggCall.spec fa)) 0 with
      | .error st => rfl
      | .ok inputs =>
        dsimp only [Except.map]
        have hid : (v.plan fa temporal column).valueKey keys =
            AggregatedView.groupId keys := rfl
        rw [hid, newGroup_eq, addToGroup_eq]
        rfl

/-- **A row is taken by all aggregates or by none, unless it splits its group.** -/
theorem rowStep_eq_allOrNone_iff {ec : EvalCtx NestedValue} :
    v.rowStep fa temporal column groups ec = v.allOrNone fa groups ec ↔
      ¬ v.Splits fa groups ec := by
  rw [rowStep_eq]
  unfold AggregatedView.allOrNone AggregatedView.raises AggregatedView.Splits
  match hrow : v.rowInputs fa ec with
  | .error st =>
    refine iff_of_true ?_ (by rintro ⟨_, _, h, _⟩; cases h)
    dsimp only
  | .ok none => exact iff_of_true rfl (by rintro ⟨_, _, h, _⟩; cases h)
  | .ok (some (keys, inputs)) =>
    dsimp only
    by_cases hrefused : v.refused groups keys inputs = true
    · rw [if_pos hrefused, Except.ok.injEq, Prod.mk.injEq, and_iff_left rfl, absorb_eq_self_iff]
      constructor
      · rintro ⟨⟨g, hg, hid⟩, hsteps⟩ ⟨_, _, h, _, hnew | ⟨s, hs, htakes, hadd⟩⟩
        · cases h
          exact hnew g hg hid
        · cases h
          exact hadd (hsteps s hs htakes)
      · intro h
        refine ⟨?_, fun s hs htakes => ?_⟩
        · by_contra hnone
          exact h ⟨keys, inputs, rfl, hrefused, .inl fun g hg hid => hnone ⟨g, hg, hid⟩⟩
        · by_contra hadd
          exact h ⟨keys, inputs, rfl, hrefused, .inr ⟨s, hs, htakes, hadd⟩⟩
    · rw [if_neg hrefused]
      refine iff_of_true rfl ?_
      rintro ⟨_, _, h, hsplit, _⟩
      cases h
      exact hrefused hsplit

end Rows

section Run

variable {ρ : Type}

/-- **The rows of a view that raise errors count nowhere, unless one of them splits its
group.** -/
theorem error_rows_count_nowhere
    (fa : FloatArith) (temporal : EvalCtx NestedValue → Except Status (ρ → Bool))
    (column : Bytes → ρ → Nat → Except Status SqlDatum) (v : AggregatedView)
    (env : ExecEnv NestedValue) (ctxs : List (EvalCtx NestedValue)) :
    (∀ groups ec, Reaches (v.rowStep fa temporal column) [] ctxs groups ec →
        v.rowStep fa temporal column groups ec = v.allOrNone fa groups ec) ∧
      (v.plan fa temporal column).runOver env ctxs =
        (v.plan fa temporal column).runOver env
          (survivors (v.rowStep fa temporal column) (v.raises fa) [] ctxs) ↔
    ∀ groups ec, Reaches (v.rowStep fa temporal column) [] ctxs groups ec →
      ¬ v.Splits fa groups ec := by
  constructor
  · rintro ⟨hrows, _⟩ groups ec hreaches
    exact rowStep_eq_allOrNone_iff.mp (hrows groups ec hreaches)
  intro h
  have hrows : ∀ groups ec, Reaches (v.rowStep fa temporal column) [] ctxs groups ec →
      v.rowStep fa temporal column groups ec = v.allOrNone fa groups ec :=
    fun groups ec hreaches => rowStep_eq_allOrNone_iff.mpr (h groups ec hreaches)
  refine ⟨hrows, ?_⟩
  have hvisit : visit (v.rowStep fa temporal column) []
      (survivors (v.rowStep fa temporal column) (v.raises fa) [] ctxs) =
        visit (v.rowStep fa temporal column) [] ctxs := by
    refine visit_survivors fun groups ec hreaches hraises => ?_
    rw [hrows groups ec hreaches]
    exact if_pos hraises
  have hlimits : aggLimits (env.ctx .setup) (v.plan fa temporal column).aggs 0 =
      .ok v.limits := aggLimits_eq _ v.calls 0
  have hrun : ∀ ctxs, (v.plan fa temporal column).runOver env ctxs =
      (v.plan fa temporal column).runGroupsOver env (-1, 0) ctxs := fun _ => rfl
  rw [hrun, hrun]
  unfold QueryPlan.runGroupsOver
  rw [hlimits]
  unfold AggregatedView.rowStep at hvisit
  dsimp only [AggregatedView.rowStep]
  rw [hvisit]

/-- `SELECT g, SUM(x) AS s, COUNT(*) AS c FROM t GROUP BY g`. -/
def sumAndCount : AggregatedView where
  whereExpr := none
  groupKeys := [.column "g" 1]
  aggs := [⟨"SUM", .sumInt, [.column "x" 2], false, false, [], none⟩,
    ⟨"COUNT", .countStar, [], false, false, [], none⟩]
  outExprs := [.groupRef 0, .aggRef 0, .aggRef 1]
  columns := ⟨[0], none, [1, 2]⟩
  grouped := nofun
  calls := by
    intro c hc
    rw [List.mem_cons, List.mem_singleton] at hc
    rcases hc with rfl | rfl <;> exact ⟨rfl, rfl, rfl, rfl, rfl⟩

/-- A row of the group `a` with this number. -/
def numberRow (n : Int) : EvalCtx NestedValue :=
  ⟨some (fun i => .ok (.scalar (if i = 1 then .string [0x61] else .int64 n))), [], [], [], 0,
    fun _ => 0⟩

/-- **A row whose number overflows the sum is counted**, although it raises an error: without
it the count is one. -/
theorem overflow_is_counted :
    (sumAndCount.plan integersOnly (fun _ => .ok (fun _ : Unit => true))
        (fun _ _ _ => .ok .null)).runOver plainEnv [numberRow 9223372036854775807, numberRow 1] =
      .ok [[.scalar (.string [0x61]), .scalar (.int64 9223372036854775807), .scalar (.int64 2)]] ∧
    survivors (sumAndCount.rowStep integersOnly (fun _ => .ok (fun _ : Unit => true))
        (fun _ _ _ => .ok .null)) (sumAndCount.raises integersOnly) []
          [numberRow 9223372036854775807, numberRow 1] = [numberRow 9223372036854775807] ∧
    (sumAndCount.plan integersOnly (fun _ => .ok (fun _ : Unit => true))
        (fun _ _ _ => .ok .null)).runOver plainEnv [numberRow 9223372036854775807] =
      .ok [[.scalar (.string [0x61]), .scalar (.int64 9223372036854775807), .scalar (.int64 1)]] :=
  ⟨rfl, rfl, rfl⟩

end Run

end Gsql
end LittleBigtable
