import LittleBigtable.Gsql.QueryRun
import LittleBigtable.Gsql.ValueKey

/-!
# Aggregate functions

The accumulators of the aggregate functions, and the runner that applies `IGNORE NULLS`,
`DISTINCT`, `ORDER BY` and `LIMIT` of an aggregate call in front of its accumulator.

The arithmetic of floats and the estimate of a sketch are parameters.
-/

namespace LittleBigtable
namespace Gsql

open Bttest

section Values

/-- The runtime values of expressions. -/
abbrev SqlDatum := Datum NestedValue

/-- The value; an array of scalars is an array. -/
def Datum.value : SqlDatum → NestedValue
  | .scalar v => .scalar v
  | .array vs => .array (vs.map .scalar)
  | .compound c => c

/-- The value as the result of an expression. -/
def Datum.ofValue : NestedValue → SqlDatum
  | .scalar v => .scalar v
  | v => .compound v

end Values

section Order

/-- `orderSpec`. -/
structure OrderSpec where
  expr : BExpr NestedValue
  desc : Bool
  nullsLast : Bool

/-- The comparison of two values under one specification; `DESC` does not move `NULL`. -/
def OrderSpec.compare (s : OrderSpec) (x y : NestedValue) : Ordering :=
  match x.isNull, y.isNull with
  | true, true => .eq
  | true, false => if s.nullsLast then .gt else .lt
  | false, true => if s.nullsLast then .lt else .gt
  | false, false => if s.desc then (x.compareValues y).swap else x.compareValues y

/-- `compareOrder`. -/
def compareOrder : List OrderSpec → List SqlDatum → List SqlDatum → Ordering
  | s :: specs, x :: a, y :: b => (s.compare x.value y.value).then (compareOrder specs a b)
  | _, _, _ => .eq

end Order

section States

/-- The arithmetic of floats, as bit patterns. -/
structure FloatArith where
  add : UInt64 → UInt64 → UInt64
  sub : UInt64 → UInt64 → UInt64
  mul : UInt64 → UInt64 → UInt64
  div : UInt64 → UInt64 → UInt64
  sqrt : UInt64 → UInt64
  ofInt : Int → UInt64
  /-- `Estimate`. -/
  estimate : HLL → Int

inductive BitOp
  | and
  | or
  | xor
deriving DecidableEq

inductive MomentKind
  | varSamp
  | varPop
  | stddevSamp
  | stddevPop
  | corr
  | covarPop
  | covarSamp
deriving DecidableEq

/-- `aggState`. -/
inductive AggState
  | count (star cond : Bool) (n : Int)
  | sum (isInt any : Bool) (i : Int) (f : UInt64)
  | avg (n : Int) (s c : UInt64)
  | minMax (max : Bool) (v : NestedValue) (nan : Bool)
  | anyValue (v : NestedValue)
  | logical (and v seen : Bool)
  | bit (op : BitOp) (v : Int) (seen : Bool)
  | arrayAgg (vals : List NestedValue) (any concat : Bool)
  | stringAgg (isStr : Bool) (parts : List Bytes) (delim : Bytes) (any : Bool)
  | moment (kind : MomentKind) (n : Int) (mx my m2x m2y cxy : UInt64)
  | hll (h : Option HLL) (precision : Nat) (merge counted : Bool)

/-- The aggregate function of a call, with what `newState` closes over. -/
inductive AggFunction
  | count
  | countStar
  | countIf
  | sumInt
  | sumFloat
  | avg
  | minMax (max : Bool)
  | anyValue
  | logical (and : Bool)
  | bit (op : BitOp)
  | arrayAgg
  | arrayConcatAgg
  | stringAgg (isStr : Bool)
  | approxCountDistinct
  | hllInit (precision : Nat)
  | hllMerge
  | hllMergePartial
  | moment (kind : MomentKind)
deriving DecidableEq

/-- `newState`. -/
def AggFunction.newState : AggFunction → AggState
  | .count => .count false false 0
  | .countStar => .count true false 0
  | .countIf => .count false true 0
  | .sumInt => .sum true false 0 0
  | .sumFloat => .sum false false 0 0
  | .avg => .avg 0 0 0
  | .minMax max => .minMax max .null false
  | .anyValue => .anyValue .null
  | .logical and => .logical and false false
  | .bit op => .bit op 0 false
  | .arrayAgg => .arrayAgg [] false false
  | .arrayConcatAgg => .arrayAgg [] false true
  | .stringAgg isStr => .stringAgg isStr [] [0x2C] false
  | .approxCountDistinct => .hll none hllDefaultPrecision false true
  | .hllInit precision => .hll none precision false false
  | .hllMerge => .hll none 0 true true
  | .hllMergePartial => .hll none 0 true false
  | .moment kind => .moment kind 0 0 0 0 0 0

/-- `addInt64`: an overflow changes the sign against both operands. -/
def addInt64 (a b : Int) : Option Int :=
  let x := BitVec.ofInt 64 a
  let y := BitVec.ofInt 64 b
  let c := x + y
  if ((x ^^^ c) &&& (y ^^^ c)).toInt < 0 then none else some c.toInt

/-- The first argument. -/
def arg (args : List NestedValue) : NestedValue :=
  args.headD .null

def NestedValue.asInt : NestedValue → Int
  | .scalar (.int64 n) => n
  | _ => 0

def NestedValue.asBool : NestedValue → Bool
  | .scalar (.bool b) => b
  | _ => false

def NestedValue.asWord : NestedValue → Bytes
  | .scalar (.string s) => s
  | .scalar (.bytes b) => b
  | _ => []

def NestedValue.isNaN : NestedValue → Bool
  | .scalar (.float bits) => Gsql.isNaN bits
  | _ => false

/-- `toF64`. -/
def FloatArith.toF64 (fa : FloatArith) : NestedValue → UInt64
  | .scalar (.float bits) => bits
  | .scalar (.int64 n) => fa.ofInt n
  | _ => fa.ofInt 0

def BitOp.apply (op : BitOp) (a b : Int) : Int :=
  match op with
  | .and => (BitVec.ofInt 64 a &&& BitVec.ofInt 64 b).toInt
  | .or => (BitVec.ofInt 64 a ||| BitVec.ofInt 64 b).toInt
  | .xor => (BitVec.ofInt 64 a ^^^ BitVec.ofInt 64 b).toInt

/-- `hllItem`. -/
def hllItem : NestedValue → Bytes
  | .scalar (.int64 n) => int64Bytes n
  | .scalar (.string s) => s
  | .scalar (.bytes b) => b
  | v => v.valueKey

/-- `add` of an accumulator. -/
def AggState.add (fa : FloatArith) (st : AggState)
    (args : List NestedValue) : Except Status AggState :=
  let a := arg args
  match st with
  | .count star cond n =>
    if star then .ok (.count star cond (n + 1))
    else if cond then .ok (.count star cond (if a.asBool then n + 1 else n))
    else .ok (.count star cond (if a.isNull then n else n + 1))
  | .sum isInt any i f =>
    if a.isNull then .ok (.sum isInt any i f)
    else if isInt then
      match addInt64 i a.asInt with
      | none => .error (evalErrorf "int64 overflow in SUM" [])
      | some i' => .ok (.sum isInt true i' f)
    else
      .ok (.sum isInt true i (fa.add f (fa.toF64 a)))
  | .avg n s c =>
    if a.isNull then .ok (.avg n s c)
    else
      let y := fa.sub (fa.toF64 a) c
      let t := fa.add s y
      .ok (.avg (n + 1) t (fa.sub (fa.sub t s) y))
  | .minMax max v nan =>
    if a.isNull then .ok (.minMax max v nan)
    else if a.isNaN then .ok (.minMax max v true)
    else if v.isNull then .ok (.minMax max a nan)
    else if a.compareValues v = (if max then .gt else .lt) then .ok (.minMax max a nan)
    else .ok (.minMax max v nan)
  | .anyValue v => .ok (.anyValue (if v.isNull then a else v))
  | .logical and v seen =>
    if a.isNull then .ok (.logical and v seen)
    else if seen then
      .ok (.logical and (if and then v && a.asBool else v || a.asBool) true)
    else
      .ok (.logical and a.asBool true)
  | .bit op v seen =>
    if a.isNull then .ok (.bit op v seen)
    else .ok (.bit op (if seen then op.apply v a.asInt else a.asInt) true)
  | .arrayAgg vals any concat =>
    if concat then
      match a with
      | .array elems => .ok (.arrayAgg (vals ++ elems) true concat)
      | _ => .ok (.arrayAgg vals any concat)
    else
      .ok (.arrayAgg (vals ++ [a]) true concat)
  | .stringAgg isStr parts delim any =>
    if a.isNull then .ok (.stringAgg isStr parts delim any)
    else
      match any, args with
      | false, _ :: d :: _ =>
        if d.isNull then .ok (.stringAgg isStr parts delim any)
        else .ok (.stringAgg isStr (parts ++ [a.asWord]) d.asWord true)
      | _, _ => .ok (.stringAgg isStr (parts ++ [a.asWord]) delim true)
  | .moment kind n mx my m2x m2y cxy =>
    if a.isNull || (args.drop 1).head?.any NestedValue.isNull then
      .ok (.moment kind n mx my m2x m2y cxy)
    else
      let x := fa.toF64 a
      let y := ((args.drop 1).head?.map fa.toF64).getD x
      let k := fa.ofInt (n + 1)
      let dx := fa.sub x mx
      let mx := fa.add mx (fa.div dx k)
      let dy := fa.sub y my
      let my := fa.add my (fa.div dy k)
      .ok (.moment kind (n + 1) mx my (fa.add m2x (fa.mul dx (fa.sub x mx)))
        (fa.add m2y (fa.mul dy (fa.sub y my))) (fa.add cxy (fa.mul dx (fa.sub y my))))
  | .hll h precision merge counted =>
    if a.isNull then .ok (.hll h precision merge counted)
    else if merge then
      match decodeHLL a.asWord with
      | .error text => .error (evalErrorf "invalid HLL++ sketch: %v" [.text text])
      | .ok o => .ok (.hll (some ((h.map (fun h => h.merge o)).getD o)) precision merge counted)
    else
      .ok (.hll (some ((h.getD (newHLLPrecision precision)).add (hllItem a))) precision merge
        counted)

/-- `result` of the moments. -/
def momentResult (fa : FloatArith) (kind : MomentKind) (n : Int)
    (m2x m2y cxy : UInt64) : NestedValue :=
  let k := fa.ofInt n
  let k1 := fa.ofInt (n - 1)
  match kind with
  | .varPop => if n < 1 then .null else .scalar (.float (fa.div m2x k))
  | .stddevPop => if n < 1 then .null else .scalar (.float (fa.sqrt (fa.div m2x k)))
  | .varSamp => if n < 2 then .null else .scalar (.float (fa.div m2x k1))
  | .stddevSamp => if n < 2 then .null else .scalar (.float (fa.sqrt (fa.div m2x k1)))
  | .covarPop => if n < 1 then .null else .scalar (.float (fa.div cxy k))
  | .covarSamp => if n < 2 then .null else .scalar (.float (fa.div cxy k1))
  | .corr =>
    if n < 2 then .null
    else
      let d := fa.sqrt (fa.mul m2x m2y)
      .scalar (.float (if floatPlace d = 0 then canonicalNaN else fa.div cxy d))

/-- The texts with the delimiter between them. -/
def joinParts (delim : Bytes) : List Bytes → Bytes
  | [] => []
  | [p] => p
  | p :: ps => p ++ delim ++ joinParts delim ps

/-- `result` of an accumulator; no accumulator fails here. -/
def AggState.result (fa : FloatArith) : AggState → NestedValue
  | .count _ _ n => .scalar (.int64 n)
  | .sum isInt any i f =>
    if !any then .null
    else if isInt then .scalar (.int64 i) else .scalar (.float f)
  | .avg n s _ => if n = 0 then .null else .scalar (.float (fa.div s (fa.ofInt n)))
  | .minMax _ v nan => if nan then .scalar (.float canonicalNaN) else v
  | .anyValue v => v
  | .logical _ v seen => if seen then .scalar (.bool v) else .null
  | .bit _ v seen => if seen then .scalar (.int64 v) else .null
  | .arrayAgg vals any _ => if any then .array vals else .null
  | .stringAgg isStr parts delim any =>
    if !any then .null
    else if isStr then .scalar (.string (joinParts delim parts))
    else .scalar (.bytes (joinParts delim parts))
  | .moment kind n _ _ m2x m2y cxy => momentResult fa kind n m2x m2y cxy
  | .hll h _ _ counted =>
    if counted then .scalar (.int64 ((h.map fa.estimate).getD 0))
    else (h.map (fun h => NestedValue.scalar (.bytes h.encode))).getD .null

end States

section Runner

/-- `aggSpec`. -/
structure AggCall where
  name : String
  fn : AggFunction
  args : List (BExpr NestedValue)
  distinct : Bool
  ignoreNulls : Bool
  orderBy : List OrderSpec
  limit : Option (BExpr NestedValue)

/-- `aggRunner`; `rows` are kept for `ORDER BY` and `LIMIT`. -/
structure AggRunner where
  st : AggState
  seen : List Bytes
  rows : List (List SqlDatum × List SqlDatum)
  limit : Int

def AggCall.newAggRunner (c : AggCall) (limit : Int) : AggRunner :=
  ⟨c.fn.newState, [], [], limit⟩

/-- The first argument is `NULL`; `COUNT(*)` has none. -/
def firstIsNull (args : List SqlDatum) : Bool :=
  args.head?.any (fun a => a.value.isNull)

/-- The key of the first argument. -/
def firstKey (args : List SqlDatum) : Bytes :=
  ((args.head?.map Datum.value).getD .null).valueKey

/-- The rows are kept until the result is asked for. -/
def AggCall.buffered (c : AggCall) (limit : Int) : Bool :=
  !c.orderBy.isEmpty || decide (0 ≤ limit)

/-- `add`, behind `IGNORE NULLS` and `DISTINCT`. -/
def AggCall.take (fa : FloatArith) (c : AggCall) (r : AggRunner)
    (args keys : List SqlDatum) : Except Status AggRunner :=
  if c.buffered r.limit then
    .ok { r with rows := r.rows ++ [(args, keys)] }
  else
    (r.st.add fa (args.map Datum.value)).map (fun st => { r with st := st })

def AggCall.add (fa : FloatArith) (c : AggCall) (r : AggRunner)
    (args keys : List SqlDatum) : Except Status AggRunner :=
  if c.ignoreNulls && firstIsNull args then
    .ok r
  else if c.distinct then
    if firstIsNull args then
      .ok r
    else if firstKey args ∈ r.seen then
      .ok r
    else
      c.take fa { r with seen := firstKey args :: r.seen } args keys
  else
    c.take fa r args keys

/-- The kept rows in the order of the call, up to its limit. -/
def AggCall.ordered (c : AggCall) (limit : Int)
    (rows : List (List SqlDatum × List SqlDatum)) : List (List SqlDatum × List SqlDatum) :=
  let rows :=
    if c.orderBy.isEmpty then rows
    else rows.insertionSort (fun a b => compareOrder c.orderBy b.2 a.2 ≠ .lt)
  if 0 ≤ limit then rows.take limit.toNat else rows

/-- The accumulator on a list of arguments. -/
def AggState.addAll (fa : FloatArith) (st : AggState)
    (rows : List (List SqlDatum × List SqlDatum)) : Except Status AggState :=
  rows.foldlM (fun st row => st.add fa (row.1.map Datum.value)) st

def AggCall.result (fa : FloatArith) (c : AggCall) (r : AggRunner) : Except Status SqlDatum :=
  if c.buffered r.limit then
    (r.st.addAll fa (c.ordered r.limit r.rows)).map (fun st => .ofValue (st.result fa))
  else
    .ok (.ofValue (r.st.result fa))

/-- The call in a plan. -/
def AggCall.spec (fa : FloatArith) (c : AggCall) : AggSpec NestedValue AggRunner where
  name := c.name
  args := c.args
  orderBy := c.orderBy.map OrderSpec.expr
  limit := c.limit
  newRunner := c.newAggRunner
  add := c.add fa
  result := c.result fa

/-- The runner on the rows of a group. -/
def AggCall.run (fa : FloatArith) (c : AggCall) (limit : Int)
    (rows : List (List SqlDatum × List SqlDatum)) : Except Status SqlDatum :=
  (rows.foldlM (fun r row => c.add fa r row.1 row.2) (c.newAggRunner limit)).bind (c.result fa)

end Runner

end Gsql
end LittleBigtable
