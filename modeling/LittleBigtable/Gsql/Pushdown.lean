import LittleBigtable.Bttest.Listing
import LittleBigtable.Gsql.ViewQuery
import LittleBigtable.Lib.HalfOpen
import LittleBigtable.Lib.Like

/-!
# Key ranges of a query

Bound expressions, how they are evaluated on a row, and the row ranges that the `WHERE`
clause of a query over a base table leaves to be scanned.

The operators that the ranges are read from are modelled one by one, over scalar values;
every other call is a function of the results of its arguments.  `RAND` draws a number
at each evaluation: the context gives the number for each place of an expression.
-/

namespace LittleBigtable
namespace Gsql

open Bttest
open HalfOpen

section Values

/-- A runtime value; maps and structs are looked into by other calls only. -/
inductive Datum (κ : Type)
  | scalar (v : ScalarValue)
  | array (vs : List ScalarValue)
  | compound (c : κ)
deriving DecidableEq

variable {κ : Type}

def Datum.null : Datum κ :=
  .scalar .null

def Datum.ofBool (b : Bool) : Datum κ :=
  .scalar (.bool b)

def Datum.isNull : Datum κ → Bool
  | .scalar .null => true
  | _ => false

def Datum.asBytes : Datum κ → Bytes
  | .scalar (.string s) => s
  | .scalar (.bytes b) => b
  | _ => []

/-- `sqlEquals`; `none` is `NULL`. -/
def sqlEquals : ScalarValue → ScalarValue → Option Bool
  | .null, _ => none
  | _, .null => none
  | .float x, .float y => some (!isNaN x && !isNaN y && decide (floatPlace x = floatPlace y))
  | x, y => some (decide (x = y))

def isNaNValue : ScalarValue → Bool
  | .float x => isNaN x
  | _ => false

inductive CompareOp
  | eq
  | ne
  | lt
  | le
  | gt
  | ge
deriving DecidableEq

/-- The comparison of two values that are not `NULL`. -/
def CompareOp.holds (op : CompareOp) (x y : ScalarValue) : Option Bool :=
  match op with
  | .eq => sqlEquals x y
  | .ne => (sqlEquals x y).map (fun b => !b)
  | .lt => some (!(isNaNValue x || isNaNValue y) && decide (compareValues x y = .lt))
  | .le => some (!(isNaNValue x || isNaNValue y) && decide (compareValues x y ≠ .gt))
  | .gt => some (!(isNaNValue x || isNaNValue y) && decide (compareValues x y = .gt))
  | .ge => some (!(isNaNValue x || isNaNValue y) && decide (compareValues x y ≠ .lt))

def Datum.ofOption : Option Bool → Datum κ
  | none => .null
  | some b => .ofBool b

/-- A comparison call; it is strict in `NULL`. -/
def CompareOp.call (op : CompareOp) : Datum κ → Datum κ → Datum κ
  | .scalar x, .scalar y => if x = .null ∨ y = .null then .null else .ofOption (op.holds x y)
  | _, _ => .null

/-- `inResult`. -/
def inResult (x : ScalarValue) (vals : List ScalarValue) : Option Bool :=
  if x = .null then
    none
  else if vals.any (fun v => decide (sqlEquals x v = some true)) then
    some true
  else if vals.any (fun v => decide (sqlEquals x v = none)) then
    none
  else
    some false

/-- The value of a test or, for the negated operator, its negation. -/
def negate (negated : Bool) (res : Option Bool) : Datum κ :=
  .ofOption (res.map (fun b => b != negated))

def Datum.toScalar : Datum κ → ScalarValue
  | .scalar v => v
  | _ => .null

/-- `x IN UNNEST(arr)`. -/
def inUnnest (negated : Bool) (x arr : Datum κ) : Datum κ :=
  match arr with
  | .array (v :: vs) => negate negated (inResult x.toScalar (v :: vs))
  | _ => .ofBool negated

/-- One side of `BETWEEN`. -/
def betweenSide (a b : ScalarValue) : Option Bool :=
  if a = .null ∨ b = .null then
    none
  else
    some (!(isNaNValue a || isNaNValue b) && decide (compareValues a b ≠ .gt))

def betweenResult (x lo hi : ScalarValue) : Option Bool :=
  match betweenSide lo x, betweenSide x hi with
  | some false, _ => some false
  | _, some false => some false
  | none, _ => none
  | _, none => none
  | some true, some true => some true

end Values

section Like

/-- `evalErrorf`. -/
def evalErrorf (format : String) (args : List FmtArg) : Status :=
  errorf .outOfRange format args

/-- The tokens of a pattern over `BYTES`; `afterMany` holds if the last token was `%`. -/
def compileTokens (afterMany : Bool) : Bytes → Except Status (List (Like.Token UInt8))
  | [] => .ok []
  | [c] =>
    if c = 0x5C then
      .error (evalErrorf "LIKE pattern ends with a backslash" [])
    else if c = 0x25 then
      .ok (if afterMany then [] else [.many])
    else if c = 0x5F then
      .ok [.one]
    else
      .ok [.exact c]
  | c :: d :: rest =>
    if c = 0x5C then
      (compileTokens false rest).map (fun toks => .exact d :: toks)
    else if c = 0x25 then
      (compileTokens true (d :: rest)).map (fun toks => if afterMany then toks else .many :: toks)
    else if c = 0x5F then
      (compileTokens false (d :: rest)).map (fun toks => .one :: toks)
    else
      (compileTokens false (d :: rest)).map (fun toks => .exact c :: toks)

def compileLike (pat : Bytes) : Except Status (List (Like.Token UInt8)) :=
  compileTokens false pat

/-- The letters that a pattern starts with, and whether it consists of them only. -/
def likePrefix : Bytes → Bytes × Bool
  | [] => ([], true)
  | [c] => if c = 0x5C ∨ c = 0x25 ∨ c = 0x5F then ([], false) else ([c], true)
  | c :: d :: rest =>
    if c = 0x5C then
      (d :: (likePrefix rest).1, (likePrefix rest).2)
    else if c = 0x25 ∨ c = 0x5F then
      ([], false)
    else
      (c :: (likePrefix (d :: rest)).1, (likePrefix (d :: rest)).2)

end Like

section Expressions

/-- What the ranges read of a type. -/
inductive ExprType
  | bytes
  | other
deriving DecidableEq

/-- A bound expression.  Comparisons, `IN` and `BETWEEN` are those of scalars, `LIKE` is
that of `BYTES`; the others are among the other calls. -/
inductive BExpr (κ : Type)
  | const (typ : ExprType) (v : Datum κ)
  | param (typ : ExprType) (name : String) (idx : Nat)
  | column (name : String) (idx : Nat)
  | groupRef (idx : Nat)
  | aggRef (idx : Nat)
  | and (l r : BExpr κ)
  | or (l r : BExpr κ)
  | compare (op : CompareOp) (l r : BExpr κ)
  | inList (negated : Bool) (x : BExpr κ) (items : List (BExpr κ))
  | inUnnest (negated : Bool) (x arr : BExpr κ)
  | between (negated : Bool) (x lo hi : BExpr κ)
  | startsWith (x p : BExpr κ)
  | like (negated : Bool) (x p : BExpr κ)
  | rand
  | call (typ : ExprType)
      (fn : Int → List (Except Status (Datum κ)) → Except Status (Datum κ)) (args : List (BExpr κ))

variable {κ : Type}

/-- `evalCtx`; `rand` gives the number that is drawn at each place. -/
structure EvalCtx (κ : Type) where
  row : Option (Nat → Except Status (Datum κ))
  params : List (Datum κ)
  group : List (Datum κ)
  aggs : List (Datum κ)
  now : Int
  rand : List Nat → UInt64

/-- The first error, or all results. -/
def collect : List (Except Status (Datum κ)) → Except Status (List (Datum κ))
  | [] => .ok []
  | .error st :: _ => .error st
  | .ok v :: rs => (collect rs).map (fun vs => v :: vs)

/-- `evalAnd`, from the results of both sides. -/
def evalAnd (l r : Except Status (Datum κ)) : Except Status (Datum κ) :=
  match l with
  | .error st => .error st
  | .ok (.scalar (.bool false)) => .ok (.ofBool false)
  | .ok a =>
    match r with
    | .error st => .error st
    | .ok (.scalar (.bool false)) => .ok (.ofBool false)
    | .ok b => .ok (if a.isNull || b.isNull then .null else .ofBool true)

/-- `evalOr`, from the results of both sides. -/
def evalOr (l r : Except Status (Datum κ)) : Except Status (Datum κ) :=
  match l with
  | .error st => .error st
  | .ok (.scalar (.bool true)) => .ok (.ofBool true)
  | .ok a =>
    match r with
    | .error st => .error st
    | .ok (.scalar (.bool true)) => .ok (.ofBool true)
    | .ok b => .ok (if a.isNull || b.isNull then .null else .ofBool false)

/-- `LIKE` on two values; it is strict in `NULL`. -/
def evalLike (negated : Bool) (x p : Datum κ) : Except Status (Datum κ) :=
  if x.isNull || p.isNull then
    .ok .null
  else
    match compileLike p.asBytes with
    | .error st => .error st
    | .ok toks => .ok (.ofBool (Like.search toks x.asBytes != negated))

mutual

/-- `eval`; the path is the place of the expression in its clause. -/
def BExpr.eval (ec : EvalCtx κ) : BExpr κ → List Nat → Except Status (Datum κ)
  | .const _ v, _ => .ok v
  | .param _ _ idx, _ => .ok (ec.params.getD idx .null)
  | .column _ idx, _ =>
    match ec.row with
    | none => .error (errorf .internal "column reference evaluated without a row" [])
    | some cells => cells idx
  | .groupRef idx, _ => .ok (ec.group.getD idx .null)
  | .aggRef idx, _ => .ok (ec.aggs.getD idx .null)
  | .and l r, path => evalAnd (l.eval ec (0 :: path)) (r.eval ec (1 :: path))
  | .or l r, path => evalOr (l.eval ec (0 :: path)) (r.eval ec (1 :: path))
  | .compare op l r, path => do
    let a ← l.eval ec (0 :: path)
    let b ← r.eval ec (1 :: path)
    .ok (op.call a b)
  | .inList negated x items, path => do
    let v ← x.eval ec (0 :: path)
    let vals ← collect (BExpr.evalAll ec items path 1)
    .ok (negate negated (inResult v.toScalar (vals.map Datum.toScalar)))
  | .inUnnest negated x arr, path => do
    let v ← x.eval ec (0 :: path)
    let vals ← arr.eval ec (1 :: path)
    .ok (Gsql.inUnnest negated v vals)
  | .between negated x lo hi, path => do
    let v ← x.eval ec (0 :: path)
    let a ← lo.eval ec (1 :: path)
    let b ← hi.eval ec (2 :: path)
    .ok (negate negated (betweenResult v.toScalar a.toScalar b.toScalar))
  | .startsWith x p, path => do
    let v ← x.eval ec (0 :: path)
    let w ← p.eval ec (1 :: path)
    .ok (if v.isNull || w.isNull then .null else .ofBool (w.asBytes.isPrefixOf v.asBytes))
  | .like negated x p, path => do
    let v ← x.eval ec (0 :: path)
    let w ← p.eval ec (1 :: path)
    evalLike negated v w
  | .rand, path => .ok (.scalar (.float (ec.rand path)))
  | .call _ fn args, path => fn ec.now (BExpr.evalAll ec args path 0)

/-- The results of the arguments, from the `i`-th on. -/
def BExpr.evalAll (ec : EvalCtx κ) :
    List (BExpr κ) → List Nat → Nat → List (Except Status (Datum κ))
  | [], _, _ => []
  | e :: es, path, i => e.eval ec (i :: path) :: BExpr.evalAll ec es path (i + 1)

end

mutual

/-- The expression can be evaluated without a row. -/
def BExpr.isConst : BExpr κ → Bool
  | .const _ _ => true
  | .param _ _ _ => true
  | .column _ _ => false
  | .groupRef _ => false
  | .aggRef _ => false
  | .and l r => l.isConst && r.isConst
  | .or l r => l.isConst && r.isConst
  | .compare _ l r => l.isConst && r.isConst
  | .inList _ x items => x.isConst && BExpr.allConst items
  | .inUnnest _ x arr => x.isConst && arr.isConst
  | .between _ x lo hi => x.isConst && lo.isConst && hi.isConst
  | .startsWith x p => x.isConst && p.isConst
  | .like _ x p => x.isConst && p.isConst
  | .rand => true
  | .call _ _ args => BExpr.allConst args

def BExpr.allConst : List (BExpr κ) → Bool
  | [] => true
  | e :: es => e.isConst && BExpr.allConst es

end

def BExpr.typ : BExpr κ → ExprType
  | .const typ _ => typ
  | .param typ _ _ => typ
  | .call typ _ _ => typ
  | _ => .other

end Expressions

section Ranges

/-- `keyRange`; a missing start is the empty key. -/
abbrev ScanRange := Range Bytes

def keySuccessor (k : Bytes) : Bytes :=
  k ++ [0]

/-- The last byte that can be incremented is; the bytes behind it are dropped. -/
def prefixSuccessor (p : Bytes) : Option Bytes :=
  match p.reverse.dropWhile (fun b => decide (b = 0xFF)) with
  | [] => none
  | b :: rest => some (((b + 1) :: rest).reverse)

/-- `normalizeRanges`. -/
def normalizeRanges (rs : List ScanRange) : List ScanRange :=
  normalize rs

/-- `intersectRanges`. -/
def intersectRanges (a b : List ScanRange) : List ScanRange :=
  intersect a b

variable {κ : Type}

/-- The key of a base table is its first column. -/
def BExpr.isBaseKey : BExpr κ → Bool
  | .column _ 0 => true
  | _ => false

/-- `constBytes`: `none` if the expression is no constant of type `BYTES`, `some none` if
it is `NULL`. -/
def constBytes (ec : EvalCtx κ) (e : BExpr κ) (path : List Nat) : Option (Option Bytes) :=
  if e.isConst = true ∧ e.typ = .bytes then
    match e.eval ec path with
    | .ok (.scalar .null) => some none
    | .ok (.scalar (.bytes b)) => some (some b)
    | _ => none
  else
    none

/-- A runtime panic. -/
inductive Panic
  | indexOutOfRange
deriving DecidableEq

/-- The names at which `rangesFor` reads the arguments of an expression unchecked. -/
def operatorNames : List String :=
  ["$and", "$or", "$eq", "$lt", "$le", "$gt", "$ge", "$in", "$in_unnest", "$between", "$like"]

/-- The operator with its sides exchanged. -/
def CompareOp.mirror : CompareOp → CompareOp
  | .eq => .eq
  | .ne => .ne
  | .lt => .gt
  | .le => .ge
  | .gt => .lt
  | .ge => .le

/-- The key that is equal to the value. -/
def keyRange (v : Bytes) : ScanRange :=
  ⟨v, some (keySuccessor v)⟩

/-- The keys that compare with the value as the operator says. -/
def compareRange (op : CompareOp) (v : Bytes) : List ScanRange :=
  match op with
  | .eq => [keyRange v]
  | .ne => []
  | .lt => [⟨[], some v⟩]
  | .le => [⟨[], some (keySuccessor v)⟩]
  | .gt => [⟨keySuccessor v, none⟩]
  | .ge => [⟨v, none⟩]

/-- The ranges of a comparison of the key with `c`. -/
def rangesForCompare (ec : EvalCtx κ) (op : CompareOp) (c : BExpr κ)
    (path : List Nat) : Option (List ScanRange) :=
  match constBytes ec c path with
  | none => none
  | some none => some []
  | some (some v) => some (compareRange op v)

/-- The ranges of the items of `IN`, from the `i`-th on. -/
def rangesForItems (ec : EvalCtx κ)
    (path : List Nat) : List (BExpr κ) → Nat → Option (List ScanRange)
  | [], _ => some []
  | x :: items, i =>
    match constBytes ec x (i :: path), rangesForItems ec path items (i + 1) with
    | some none, some rs => some rs
    | some (some v), some rs => some (keyRange v :: rs)
    | _, _ => none

/-- The ranges of the elements of an array. -/
def rangesForElements (vs : List ScalarValue) : List ScanRange :=
  vs.filterMap (fun v =>
    match v with
    | .bytes b => some (keyRange b)
    | _ => none)

/-- The ranges of `AND`: one side is enough. -/
def andRanges : Option (List ScanRange) → Option (List ScanRange) → Option (List ScanRange)
  | some l, some r => some (intersectRanges (normalizeRanges l) (normalizeRanges r))
  | some l, none => some l
  | none, r => r

/-- The ranges of `OR`: both sides are needed. -/
def orRanges : Option (List ScanRange) → Option (List ScanRange) → Option (List ScanRange)
  | some l, some r => some (normalizeRanges (l ++ r))
  | _, _ => none

/-- `rangesFor`: ranges that contain every row for which the expression may be true, or
`none` if it does not constrain the key.  An expression is told apart by its name, and
the name of a parameter or column can be that of an operator. -/
def rangesFor (ec : EvalCtx κ) : BExpr κ → List Nat → Except Panic (Option (List ScanRange))
  | .and l r, path => do
    let l ← rangesFor ec l (0 :: path)
    let r ← rangesFor ec r (1 :: path)
    .ok (andRanges l r)
  | .or l r, path => do
    let l ← rangesFor ec l (0 :: path)
    let r ← rangesFor ec r (1 :: path)
    .ok (orRanges l r)
  | .compare .ne _ _, _ => .ok none
  | .compare op l r, path =>
    if l.isBaseKey then
      .ok (rangesForCompare ec op r (1 :: path))
    else if r.isBaseKey then
      .ok (rangesForCompare ec op.mirror l (0 :: path))
    else
      .ok none
  | .inList false x items, path =>
    if x.isBaseKey then .ok (rangesForItems ec path items 1) else .ok none
  | .inUnnest false x arr, path =>
    if x.isBaseKey && arr.isConst then
      match arr.eval ec (1 :: path) with
      | .error _ => .ok none
      | .ok (.array vs) => .ok (some (rangesForElements vs))
      | .ok _ => .ok (some [])
    else
      .ok none
  | .between false x lo hi, path =>
    if x.isBaseKey then
      match constBytes ec lo (1 :: path), constBytes ec hi (2 :: path) with
      | some (some lo), some (some hi) => .ok (some [⟨lo, some (keySuccessor hi)⟩])
      | some _, some _ => .ok (some [])
      | _, _ => .ok none
    else
      .ok none
  | .startsWith x p, path =>
    if x.isBaseKey then
      match constBytes ec p (1 :: path) with
      | none => .ok none
      | some none => .ok (some [])
      | some (some pre) => .ok (some [⟨pre, prefixSuccessor pre⟩])
    else
      .ok none
  | .like false x p, path =>
    if x.isBaseKey then
      match constBytes ec p (1 :: path) with
      | none => .ok none
      | some none => .ok (some [])
      | some (some pat) =>
        if (likePrefix pat).2 then
          .ok (some [keyRange (likePrefix pat).1])
        else
          .ok (some [⟨(likePrefix pat).1, prefixSuccessor (likePrefix pat).1⟩])
    else
      .ok none
  | .param _ name _, _ => if name ∈ operatorNames then .error .indexOutOfRange else .ok none
  | .column name _, _ => if name ∈ operatorNames then .error .indexOutOfRange else .ok none
  | _, _ => .ok none

/-- `keyRanges`. -/
def keyRanges (ec : EvalCtx κ) (noPushdown : Bool) (whereExpr : Option (BExpr κ))
    (path : List Nat) : Except Panic (List ScanRange) :=
  match noPushdown, whereExpr with
  | false, some e =>
    (rangesFor ec e path).map (fun rs =>
      match rs with
      | none => [⟨[], none⟩]
      | some rs => normalizeRanges rs)
  | _, _ => .ok [⟨[], none⟩]

end Ranges

end Gsql
end LittleBigtable
