import LittleBigtable.Bttest.Row

/-!
# Row filters

`validateFilter` checks the arguments of a filter tree, and `evalFilter` runs
the tree on a row.  The row that collects the cells of sinks is threaded through
the evaluation.

Regular expressions are abstract: `compile` is the engine, which rejects a
pattern with an error text or returns the set of strings it matches.  The random
number of a row sample is `draw` at the path of its node, since a node is
evaluated at most once for a row.
-/

namespace LittleBigtable
namespace Bttest

/-- The filter message is absent. -/
def RowFilter.isNil : RowFilter → Bool
  | .nil => true
  | _ => false

/-- The regular-expression engine. -/
abbrev RegexpCompiler := Bytes → Except String (Bytes → Bool)

/-- Bounds recursion on hostile or malformed filter trees. -/
def maxFilterDepth : Nat := 20

/-- Labels are 1-15 characters of `[a-z0-9-]`. -/
def validLabelTransformer (label : Bytes) : Bool :=
  decide (1 ≤ label.length ∧ label.length ≤ 15) && label.all (fun c =>
      (97 ≤ c && c ≤ 122) || (48 ≤ c && c ≤ 57) || c == 45)

/-- The digit `0`-`9` or `A`-`F` of a number below 16. -/
def hexDigit (n : UInt8) : UInt8 :=
  if n < 10 then 48 + n else 55 + n

/-- Escape the bytes above 127 of a pattern: byte `a1` becomes `\xA1`. -/
def escapeUTF (pat : Bytes) : Bytes :=
  pat.flatMap (fun (c : UInt8) =>
    if c > 127 then [92, 120, hexDigit (c >>> 4), hexDigit (c &&& 0xF)] else [c])

/-- Compile `^(?:pat)$`, which matches the entire target. -/
def newRegexp (compile : RegexpCompiler) (pat : Bytes) : Except String (Bytes → Bool) :=
  compile ([94, 40, 63, 58] ++ escapeUTF pat ++ [41, 36])

/-- The error of a regular-expression filter whose pattern is rejected. -/
def regexpError (compile : RegexpCompiler) (field : String) (pat : Bytes) : Option Status :=
  match newRegexp compile pat with
  | .ok _ => none
  | .error e => some (errorf .invalidArgument ("Error in field '" ++ field ++ "' : %v") [.text e])

mutual

/-- The filter can attach a label to a cell it passes on. -/
def containsLabelTransformer : RowFilter → Bool
  | .applyLabelTransformer _ => true
  | .chain filters => anyContainsLabelTransformer filters
  | .interleave filters => anyContainsLabelTransformer filters
  | .condition _ trueFilter falseFilter =>
    containsLabelTransformer trueFilter || containsLabelTransformer falseFilter
  | _ => false

def anyContainsLabelTransformer : List RowFilter → Bool
  | [] => false
  | sub :: filters => containsLabelTransformer sub || anyContainsLabelTransformer filters

end

/-- A check with its error. -/
def require (ok : Bool) (format : String) : Option Status :=
  if ok then none else some (errorf .invalidArgument format [])

def depthError (depth : Nat) : Option Status :=
  if depth > maxFilterDepth then
    some (errorf .invalidArgument "filter nesting exceeds %d levels" [.int maxFilterDepth])
  else
    none

def labelError (label : Bytes) : Option Status :=
  if validLabelTransformer label then
    none
  else
    some (errorf .invalidArgument
      "apply_label_transformer must match RE2([a-z0-9\\-]+) and be at most 15 characters, but found %v"
      [.bytes label])

def timestampPrecisionError (range : TimestampRange) : Option Status :=
  if range.startTimestampMicros % 1000 ≠ 0 ∨ range.endTimestampMicros % 1000 ≠ 0 then
    some (errorf .invalidArgument
      "Error in field 'timestamp_range_filter'. Maximum precision allowed in filter is millisecond.\nGot:\nStart: %v\nEnd: %v"
      [.int range.startTimestampMicros, .int range.endTimestampMicros])
  else
    none

mutual

def validateFilterAt (compile : RegexpCompiler) :
    RowFilter → Nat → Bool → Option Status
  | .nil, _, _ => none
  | .unset, depth, _ => depthError depth
  | .chain filters, depth, inCondition =>
    (depthError depth).or <|
    (require (decide (2 ≤ filters.length)) "Chain must contain at least two RowFilters").or <|
    (validateFiltersAt compile filters (depth + 1) inCondition).or <|
    require (decide ((filters.filter containsLabelTransformer).length ≤ 1))
      "a Chain may contain at most one sub-filter with apply_label_transformer"
  | .interleave filters, depth, inCondition =>
    (depthError depth).or <|
    (require (decide (2 ≤ filters.length)) "Interleave must contain at least two RowFilters").or <|
    validateFiltersAt compile filters (depth + 1) inCondition
  | .condition predicateFilter trueFilter falseFilter, depth, _ =>
    (depthError depth).or <|
    (validateFilterAt compile predicateFilter (depth + 1) true).or <|
    (validateFilterAt compile trueFilter (depth + 1) true).or <|
    validateFilterAt compile falseFilter (depth + 1) true
  | .sink flag, depth, inCondition =>
    (depthError depth).or <|
    (require flag "sink must be true if set").or <|
    require (!inCondition) "sink cannot be used within a Condition filter"
  | .passAllFilter flag, depth, _ =>
    (depthError depth).or <|
    require flag "pass_all_filter must be true if set"
  | .blockAllFilter flag, depth, _ =>
    (depthError depth).or <|
    require flag "block_all_filter must be true if set"
  | .rowKeyRegexFilter pat, depth, _ =>
    (depthError depth).or <| regexpError compile "rowkey_regex_filter" pat
  | .rowSampleFilter probability, depth, _ =>
    (depthError depth).or <|
    require (decide (0 < probability ∧ probability < 1))
      "row_sample_filter argument must be between 0.0 and 1.0"
  | .familyNameRegexFilter pat, depth, _ =>
    (depthError depth).or <| regexpError compile "family_name_regex_filter" pat
  | .columnQualifierRegexFilter pat, depth, _ =>
    (depthError depth).or <|
    regexpError compile "column_qualifier_regex_filter" pat
  | .valueRegexFilter pat, depth, _ =>
    (depthError depth).or <| regexpError compile "value_regex_filter" pat
  | .columnRangeFilter familyName _ _, depth, _ =>
    (depthError depth).or <|
    require (decide (familyName ≠ [])) "column_range_filter requires a family_name"
  | .timestampRangeFilter range, depth, _ =>
    (depthError depth).or <|
    (timestampPrecisionError range).or <|
    require (decide (0 ≤ range.startTimestampMicros ∧
        0 ≤ range.endTimestampMicros))
      "timestamp_range_filter bounds must not be negative"
  | .cellsPerRowOffsetFilter n, depth, _ =>
    (depthError depth).or <|
    require (decide (0 ≤ n)) "cells_per_row_offset_filter must not be negative"
  | .cellsPerRowLimitFilter n, depth, _ =>
    (depthError depth).or <|
    require (decide (0 ≤ n)) "cells_per_row_limit_filter must not be negative"
  | .cellsPerColumnLimitFilter n, depth, _ =>
    (depthError depth).or <|
    require (decide (0 ≤ n)) "cells_per_column_limit_filter must not be negative"
  | .applyLabelTransformer label, depth, _ => (depthError depth).or <| labelError label
  | .stripValueTransformer flag, depth, _ =>
    (depthError depth).or <|
    require flag "strip_value_transformer must be true if set"
  | .valueBitmaskFilter mask, depth, _ =>
    (depthError depth).or <|
    require (decide (mask ≠ [])) "value_bitmask_filter requires a non-empty mask"
  | .valueRangeFilter _ _, depth, _ => depthError depth

/-- The first error of the sub-filters of a chain or an interleave. -/
def validateFiltersAt (compile : RegexpCompiler) :
    List RowFilter → Nat → Bool → Option Status
  | [], _, _ => none
  | sub :: filters, depth, inCondition =>
    (validateFilterAt compile sub depth inCondition).or <|
    validateFiltersAt compile filters depth inCondition

end

def validateFilter (compile : RegexpCompiler) (f : RowFilter) : Option Status :=
  validateFilterAt compile f 0 false

/-- Append every cell of `src` to `dst`, preserving duplicates. -/
def mergeCells (dst src : Row) : Row :=
  Row.normalize
    { dst with
      families := FiniteMap.update dst.families src.families (fun _ old fam =>
          let df := old.getD ⟨fam.order, [], ∅⟩
          { df with
            cells := FiniteMap.update df.cells fam.cells
              (fun _ old cs => old.getD [] ++ cs) }) }

/-- `key` lies between the bounds. -/
def withinBounds (startBound endBound : Bound) (key : Bytes) : Bool :=
  (match startBound with
    | .opened s => decide (s < key)
    | .closed s => decide (s ≤ key)
    | .unset => true) &&
  (match endBound with
    | .closed e => decide (key ≤ e)
    | .opened e => decide (key < e)
    | .unset => true)

/-- A value matches when it has the length of the mask and all its bits. -/
def matchesMask (mask value : Bytes) : Bool :=
  decide (mask.length = value.length) && (value.zip mask).all (fun x => x.1 &&& x.2 == x.2)

/-- Match one string of a cell against the pattern of a regular-expression
filter. -/
def includeRegexp (compile : RegexpCompiler) (field : String)
    (pat target : Bytes) : Except Status Bool :=
  match newRegexp compile pat with
  | .ok rx => .ok (rx target)
  | .error e => .error (errorf .invalidArgument ("Error in field '" ++ field ++ "' : %v") [.text e])

def includeCell (compile : RegexpCompiler) (f : RowFilter) (fam col : Bytes)
    (c : Cell) : Except Status Bool :=
  match f with
  | .stripValueTransformer _ => .ok true
  | .applyLabelTransformer _ => .ok true
  | .familyNameRegexFilter pat => includeRegexp compile "family_name_regex_filter" pat fam
  | .columnQualifierRegexFilter pat => includeRegexp compile "column_qualifier_regex_filter" pat col
  | .valueRegexFilter pat => includeRegexp compile "value_regex_filter" pat c.value
  | .columnRangeFilter familyName startQualifier endQualifier =>
    .ok (decide (fam = familyName) && withinBounds startQualifier endQualifier col)
  | .timestampRangeFilter range =>
    match timestampPrecisionError range with
    | some st => .error st
    | none =>
      .ok (decide (c.ts ≥ range.startTimestampMicros) &&
        (decide (range.endTimestampMicros = 0) || decide (c.ts < range.endTimestampMicros)))
  | .valueBitmaskFilter mask => .ok (matchesMask mask c.value)
  | .valueRangeFilter startValue endValue => .ok (withinBounds startValue endValue c.value)
  | _ => .error (errorf .unimplemented "unsupported filter type %T" [])

def modifyCell (f : RowFilter) (c : Cell) : Except Status Cell :=
  match f with
  | .stripValueTransformer _ => .ok { c with value := [] }
  | .applyLabelTransformer label =>
    match labelError label with
    | some st => .error st
    | none => .ok { c with labels := [label] }
  | _ => .ok c

/-- The cell that a per-cell filter or transformer makes of a cell. -/
def filterCell (compile : RegexpCompiler) (f : RowFilter) (fam col : Bytes)
    (c : Cell) : Except Status (Option Cell) :=
  match includeCell compile f fam col c with
  | .error st => .error st
  | .ok false => .ok none
  | .ok true => (modifyCell f c).map some

/-- The loop of the per-cell filters: the first cell with an error stops it. -/
def filterCells (compile : RegexpCompiler) (f : RowFilter) (input : Row) : Except Status Row :=
  let failure := input.families.toList.findSome? (fun fam =>
    fam.2.cells.toList.findSome? (fun col =>
      col.2.findSome? (fun c =>
        match filterCell compile f fam.1 col.1 c with
        | .error st => some st
        | .ok _ => none)))
  match failure with
  | some st => .error st
  | none =>
    .ok (Row.normalize
      { input with
        families := input.families.map (fun name fam =>
          { fam with
            colNames := []
            cells := fam.cells.map (fun col cs =>
              cs.filterMap (fun c =>
                match filterCell compile f name col c with
                | .ok kept => kept
                | .error _ => none)) }) })

/-- Keep the newest `lim` cells of each column. -/
def limitColumns (lim : Nat) (input : Row) : Row :=
  Row.normalize
    { input with
      families := input.families.map (fun _ fam =>
        { fam with cells := fam.cells.map (fun _ cs => cs.take lim) }) }

/-- A loop over the columns of a family that carries a count of cells. -/
def sliceColumns (slice : Nat → List Cell → Nat × List Cell) :
    Nat → List Bytes → GoMap (List Cell) → Nat × GoMap (List Cell)
  | n, [], cells => (n, cells)
  | n, col :: cols, cells =>
    let (n', cs) := slice n (cells[col]?.getD [])
    sliceColumns slice n' cols (cells.insert col cs)

/-- The same loop over all families in creation order. -/
def sliceFamilies (slice : Nat → List Cell → Nat × List Cell) :
    Nat → List (Bytes × Family) → GoMap Family → GoMap Family
  | _, [], families => families
  | n, (name, fam) :: fams, families =>
    let (n', cells) := sliceColumns slice n fam.colNames fam.cells
    sliceFamilies slice n' fams (families.insert name { fam with cells := cells })

def sliceRow (slice : Nat → List Cell → Nat × List Cell) (n : Nat) (input : Row) : Row :=
  Row.normalize
    { input with
      families := sliceFamilies slice n input.sortedFamilies input.families }

/-- `cells_per_row_limit_filter`: `remaining` cells may still be emitted. -/
def limitSlice (remaining : Nat) (cs : List Cell) : Nat × List Cell :=
  let cs := if cs.length > remaining then cs.take remaining else cs
  (remaining - cs.length, cs)

/-- `cells_per_row_offset_filter`: `skip` cells are still to be skipped. -/
def offsetSlice (skip : Nat) (cs : List Cell) : Nat × List Cell :=
  if skip ≥ cs.length then
    (skip - cs.length, [])
  else
    (0, cs.drop skip)

mutual

/-- The cells that `f` passes to its parent, with the row that collects the
cells of sinks. -/
def evalFilter (compile : RegexpCompiler) (draw : List Nat → ℚ) (path : List Nat) :
    RowFilter → Row → Row → Except Status (Row × Row)
  | .nil, input, sink => .ok (input, sink)
  | .unset, input, sink => .ok (input, sink)
  | .passAllFilter _, input, sink => .ok (input, sink)
  | .blockAllFilter _, input, sink => .ok (newRow input.key, sink)
  | .sink _, input, sink => .ok (newRow input.key, mergeCells sink input)
  | .chain filters, input, sink => evalChain compile draw path 0 filters input sink
  | .interleave filters, input, sink =>
    match evalInterleave compile draw path 0 filters input (newRow input.key) sink with
    | .error st => .error st
    | .ok (out, sink) => .ok (out.normalize, sink)
  | .condition predicateFilter trueFilter falseFilter, input, sink =>
    match evalFilter compile draw (path ++ [0]) predicateFilter input (newRow input.key) with
    | .error st => .error st
    | .ok (predicate, _) =>
      if predicate.isEmpty = false then
        if trueFilter.isNil then
          .ok (newRow input.key, sink)
        else
          evalFilter compile draw (path ++ [1]) trueFilter input sink
      else
        if falseFilter.isNil then
          .ok (newRow input.key, sink)
        else
          evalFilter compile draw (path ++ [2]) falseFilter input sink
  | .rowKeyRegexFilter pat, input, sink =>
    match includeRegexp compile "rowkey_regex_filter" pat input.key with
    | .error st => .error st
    | .ok true => .ok (input, sink)
    | .ok false => .ok (newRow input.key, sink)
  | .rowSampleFilter probability, input, sink =>
    if draw path < probability then
      .ok (input, sink)
    else
      .ok (newRow input.key, sink)
  | .cellsPerColumnLimitFilter n, input, sink => .ok (limitColumns n.toNat input, sink)
  | .cellsPerRowLimitFilter n, input, sink => .ok (sliceRow limitSlice n.toNat input, sink)
  | .cellsPerRowOffsetFilter n, input, sink => .ok (sliceRow offsetSlice n.toNat input, sink)
  | .familyNameRegexFilter pat, input, sink =>
    (filterCells compile (.familyNameRegexFilter pat) input).map (·, sink)
  | .columnQualifierRegexFilter pat, input, sink =>
    (filterCells compile (.columnQualifierRegexFilter pat) input).map (·, sink)
  | .columnRangeFilter familyName startQualifier endQualifier, input, sink =>
    (filterCells compile
      (.columnRangeFilter familyName startQualifier endQualifier) input).map (·, sink)
  | .timestampRangeFilter range, input, sink =>
    (filterCells compile (.timestampRangeFilter range) input).map (·, sink)
  | .valueRegexFilter pat, input, sink =>
    (filterCells compile (.valueRegexFilter pat) input).map (·, sink)
  | .valueRangeFilter startValue endValue, input, sink =>
    (filterCells compile (.valueRangeFilter startValue endValue) input).map (·, sink)
  | .valueBitmaskFilter mask, input, sink =>
    (filterCells compile (.valueBitmaskFilter mask) input).map (·, sink)
  | .stripValueTransformer flag, input, sink =>
    (filterCells compile (.stripValueTransformer flag) input).map (·, sink)
  | .applyLabelTransformer label, input, sink =>
    (filterCells compile (.applyLabelTransformer label) input).map (·, sink)

/-- The loop of a chain from sub-filter number `i` on. -/
def evalChain (compile : RegexpCompiler) (draw : List Nat → ℚ) (path : List Nat) :
    Nat → List RowFilter → Row → Row → Except Status (Row × Row)
  | _, [], cur, sink => .ok (cur, sink)
  | i, sub :: filters, cur, sink =>
    match evalFilter compile draw (path ++ [i]) sub cur sink with
    | .error st => .error st
    | .ok (next, sink) => evalChain compile draw path (i + 1) filters next sink

/-- The loop of an interleave from branch number `i` on. -/
def evalInterleave (compile : RegexpCompiler) (draw : List Nat → ℚ) (path : List Nat) :
    Nat → List RowFilter → Row → Row → Row → Except Status (Row × Row)
  | _, [], _, out, sink => .ok (out, sink)
  | i, sub :: filters, input, out, sink =>
    match evalFilter compile draw (path ++ [i]) sub input sink with
    | .error st => .error st
    | .ok (branch, sink) =>
      evalInterleave compile draw path (i + 1) filters input (mergeCells out branch) sink

end

/-- Replace the cells of a row by the cells that `f` selects, those emitted
through a sink included; the flag tells whether at least one cell remains. -/
def filterRow (compile : RegexpCompiler) (draw : List Nat → ℚ) (f : RowFilter)
    (r : Row) : Except Status (Bool × Row) :=
  if f.isNil then
    .ok (!r.isEmpty, r)
  else
    match validateFilter compile f with
    | some st => .error st
    | none =>
      match evalFilter compile draw [] f r (newRow r.key) with
      | .error st => .error st
      | .ok (out, sink) =>
        let result := { r with families := (mergeCells out sink).normalize.families }
        .ok (!result.isEmpty, result)

end Bttest
end LittleBigtable
