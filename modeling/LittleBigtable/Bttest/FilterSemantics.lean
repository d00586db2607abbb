import LittleBigtable.Bttest.Listing

/-!
# The meaning of row filters

A filter denotes a function on listings, with two results: the cells it passes to
its parent, and the cells it sends through sinks to the final output.  Evaluating
a filter that `validateFilter` accepts on a row computes this function.
-/

namespace LittleBigtable
namespace Bttest

open StableSort List
open Grouped

section Semantics

/-- The string matches the pattern of a regular-expression filter. -/
def matchesRegexp (compile : RegexpCompiler) (pat target : Bytes) : Bool :=
  match newRegexp compile pat with
  | .ok rx => rx target
  | .error _ => false

/-- The cells that a per-cell filter selects. -/
def selects (compile : RegexpCompiler) (f : RowFilter) (fam col : Bytes) (c : Cell) : Bool :=
  match f with
  | .familyNameRegexFilter pat => matchesRegexp compile pat fam
  | .columnQualifierRegexFilter pat => matchesRegexp compile pat col
  | .valueRegexFilter pat => matchesRegexp compile pat c.value
  | .columnRangeFilter familyName startQualifier endQualifier =>
    decide (fam = familyName) && withinBounds startQualifier endQualifier col
  | .timestampRangeFilter range =>
    decide (range.startTimestampMicros ≤ c.ts) &&
      (decide (range.endTimestampMicros = 0) || decide (c.ts < range.endTimestampMicros))
  | .valueBitmaskFilter mask => matchesMask mask c.value
  | .valueRangeFilter startValue endValue => withinBounds startValue endValue c.value
  | _ => true

/-- What a transformer makes of a cell. -/
def transforms (f : RowFilter) (c : Cell) : Cell :=
  match f with
  | .stripValueTransformer _ => { c with value := [] }
  | .applyLabelTransformer label => { c with labels := [label] }
  | _ => c

/-- The cells that a per-cell filter or transformer passes on. -/
def denoteCells (compile : RegexpCompiler) (f : RowFilter)
    (l : List ListedCell) : List ListedCell :=
  (l.filter (fun x => selects compile f x.family x.column x.cell)).map
    (fun x => { x with cell := transforms f x.cell })

mutual

/-- The meaning of a filter on the listing of the row with the key `key`. -/
def denote (compile : RegexpCompiler) (key : Bytes) :
    RowFilter → List ListedCell → List ListedCell × List ListedCell
  | .nil, l => (l, [])
  | .unset, l => (l, [])
  | .passAllFilter _, l => (l, [])
  | .blockAllFilter _, _ => ([], [])
  | .sink _, l => ([], l)
  | .chain filters, l => denoteChain compile key filters l
  | .interleave filters, l =>
    (sortListing (denoteBranches compile key filters l).1, (denoteBranches compile key filters l).2)
  | .condition predicateFilter trueFilter falseFilter, l =>
    -- an absent branch passes nothing
    if (denote compile key predicateFilter l).1 = [] then
      if falseFilter.isNil then ([], []) else denote compile key falseFilter l
    else
      if trueFilter.isNil then ([], []) else denote compile key trueFilter l
  | .rowKeyRegexFilter pat, l => if matchesRegexp compile pat key then (l, []) else ([], [])
  -- sampling is random and has no meaning here
  | .rowSampleFilter _, l => (l, [])
  | .cellsPerColumnLimitFilter n, l => (limitPerGroup ListedCell.place n.toNat l, [])
  | .cellsPerRowLimitFilter n, l => (l.take n.toNat, [])
  | .cellsPerRowOffsetFilter n, l => (l.drop n.toNat, [])
  | .familyNameRegexFilter pat, l => (denoteCells compile (.familyNameRegexFilter pat) l, [])
  | .columnQualifierRegexFilter pat, l =>
    (denoteCells compile (.columnQualifierRegexFilter pat) l, [])
  | .columnRangeFilter familyName startQualifier endQualifier, l =>
    (denoteCells compile (.columnRangeFilter familyName startQualifier endQualifier) l, [])
  | .timestampRangeFilter range, l => (denoteCells compile (.timestampRangeFilter range) l, [])
  | .valueRegexFilter pat, l => (denoteCells compile (.valueRegexFilter pat) l, [])
  | .valueRangeFilter startValue endValue, l =>
    (denoteCells compile (.valueRangeFilter startValue endValue) l, [])
  | .valueBitmaskFilter mask, l => (denoteCells compile (.valueBitmaskFilter mask) l, [])
  | .stripValueTransformer flag, l => (denoteCells compile (.stripValueTransformer flag) l, [])
  | .applyLabelTransformer label, l => (denoteCells compile (.applyLabelTransformer label) l, [])

/-- A chain is the composition of its sub-filters. -/
def denoteChain (compile : RegexpCompiler) (key : Bytes) :
    List RowFilter → List ListedCell → List ListedCell × List ListedCell
  | [], l => (l, [])
  | sub :: filters, l =>
    ((denoteChain compile key filters (denote compile key sub l).1).1,
      (denote compile key sub l).2 ++
        (denoteChain compile key filters (denote compile key sub l).1).2)

/-- The outputs of the branches of an interleave, one after the other. -/
def denoteBranches (compile : RegexpCompiler) (key : Bytes) :
    List RowFilter → List ListedCell → List ListedCell × List ListedCell
  | [], _ => ([], [])
  | sub :: filters, l =>
    ((denote compile key sub l).1 ++ (denoteBranches compile key filters l).1,
      (denote compile key sub l).2 ++ (denoteBranches compile key filters l).2)

end

/-- The listing that a filter leaves: the cells it passes on and the cells of its
sinks. -/
def filterListing (compile : RegexpCompiler) (key : Bytes) (f : RowFilter)
    (l : List ListedCell) : List ListedCell :=
  sortListing ((denote compile key f l).1 ++ (denote compile key f l).2)

mutual

/-- The filter has no row sample. -/
def RowFilter.sampleFree : RowFilter → Bool
  | .rowSampleFilter _ => false
  | .chain filters => allSampleFree filters
  | .interleave filters => allSampleFree filters
  | .condition predicateFilter trueFilter falseFilter =>
    RowFilter.sampleFree predicateFilter && RowFilter.sampleFree trueFilter &&
      RowFilter.sampleFree falseFilter
  | _ => true

def allSampleFree : List RowFilter → Bool
  | [] => true
  | sub :: filters => RowFilter.sampleFree sub && allSampleFree filters

end

end Semantics

section Evaluation

variable {compile : RegexpCompiler} {draw : List Nat → ℚ} {ord : Bytes → Nat} {key : Bytes}

theorem includeRegexp_of_valid {field : String} {pat : Bytes}
    (h : regexpError compile field pat = none) (field' : String) (target : Bytes) :
    includeRegexp compile field' pat target = .ok (matchesRegexp compile pat target) := by
  unfold regexpError at h
  unfold includeRegexp matchesRegexp
  cases hrx : newRegexp compile pat with
  | ok rx => rfl
  | error e => simp [hrx] at h

/-- What an evaluation step does to the listings. -/
structure Denotes (ord : Bytes → Nat) (key : Bytes) (sink : Row)
    (expected : List ListedCell × List ListedCell) (result : Row × Row) : Prop where
  out_evaluable : result.1.Evaluable ord key
  out_listing : result.1.listing = expected.1
  sink_evaluable : result.2.Evaluable ord key
  sink_listing : result.2.listing = sortListing (sink.listing ++ expected.2)

variable {r : Row}

theorem sortListing_listing (h : r.Normal) :
    sortListing (r.listing ++ []) = r.listing := by
  rw [append_nil]
  exact sortDesc_eq_self _ h.descending_listing

theorem Row.Evaluable.denotes {out sink : Row} (hout : out.Evaluable ord key)
    (hsink : sink.Evaluable ord key) {l : List ListedCell} (hlisting : out.listing = l) :
    Denotes ord key sink (l, []) (out, sink) where
  out_evaluable := hout
  out_listing := hlisting
  sink_evaluable := hsink
  sink_listing := (sortListing_listing hsink.normal).symm

/-- A per-cell filter that is checked evaluates without errors. -/
theorem Row.Evaluable.filterCells_denotes {f : RowFilter} {input sink : Row}
    (hinput : input.Evaluable ord key) (hsink : sink.Evaluable ord key)
    (hinclude : ∀ fam col c, includeCell compile f fam col c = .ok (selects compile f fam col c))
    (hmodify : ∀ c, modifyCell f c = .ok (transforms f c)) :
    ∃ result,
      (filterCells compile f input).map (·, sink) = .ok result ∧
      Denotes ord key sink (denoteCells compile f input.listing, []) result := by
  obtain ⟨out, hout, hevaluable, hlisting⟩ := hinput.filterCells_listing
    (selects compile f) (transforms f)
    (by
      intro c
      unfold transforms
      split <;> rfl)
    (by
      intro fam col c
      unfold filterCell
      rw [hinclude, hmodify]
      cases selects compile f fam col c <;> rfl)
  exact ⟨(out, sink), by rw [hout]; rfl, hevaluable.denotes hsink hlisting⟩

mutual

/-- Evaluating a checked filter computes its meaning. -/
theorem evalFilter_denotes {f : RowFilter} (path : List Nat) {depth : Nat} {inCondition : Bool}
    (hvalid : validateFilterAt compile f depth inCondition = none) (hsample : f.sampleFree = true)
    {input sink : Row} (hinput : input.Evaluable ord key) (hsink : sink.Evaluable ord key) :
    ∃ result,
      evalFilter compile draw path f input sink = .ok result ∧
      Denotes ord key sink (denote compile key f input.listing) result := by
  cases f with simp only [validateFilterAt, Option.or_eq_none_iff] at hvalid
  | nil | unset | passAllFilter => exact ⟨_, rfl, hinput.denotes hsink rfl⟩
  | blockAllFilter flag =>
    refine ⟨_, rfl, ?_⟩
    rw [hinput.key_eq]
    exact (newRow_evaluable).denotes hsink (newRow_listing key)
  | sink flag =>
    refine ⟨_, rfl, ?_⟩
    rw [hinput.key_eq]
    exact ⟨newRow_evaluable, newRow_listing key,
      hsink.mergeCells hinput, hsink.mergeCells_listing hinput⟩
  | chain filters =>
    exact evalChain_denotes path 0 hvalid.2.2.1 hsample hinput hsink
  | interleave filters =>
    obtain ⟨result, hres, hdenotes⟩ := evalInterleave_denotes path 0
      hvalid.2.2 hsample hinput (newRow_evaluable) hsink
    refine ⟨(result.1.normalize, result.2), by simp only [evalFilter, hinput.key_eq, hres], ?_⟩
    rw [hdenotes.out_evaluable.normal.normalize_eq]
    refine ⟨hdenotes.out_evaluable, ?_, hdenotes.sink_evaluable, hdenotes.sink_listing⟩
    rw [hdenotes.out_listing, newRow_listing, nil_append]
    rfl
  | condition predicateFilter trueFilter falseFilter =>
    simp only [RowFilter.sampleFree, Bool.and_eq_true] at hsample
    obtain ⟨⟨predicate, _⟩, hpred, hdenotes⟩ := evalFilter_denotes (path ++ [0]) hvalid.2.1 hsample.1.1 hinput
      (newRow_evaluable)
    have hempty : predicate.isEmpty = true ↔
        (denote compile key predicateFilter input.listing).1 = [] := by
      rw [← hdenotes.out_listing]
      exact hdenotes.out_evaluable.normal.isEmpty_iff_listing
    have hnothing : Denotes ord key sink ([], []) (newRow key, sink) :=
      (newRow_evaluable).denotes hsink (newRow_listing key)
    simp only [evalFilter, denote, hinput.key_eq, hpred]
    cases hp : predicate.isEmpty with
    | true =>
      rw [if_neg (by simp), if_pos (hempty.mp hp)]
      split_ifs with hnil
      · exact ⟨_, rfl, hnothing⟩
      · exact evalFilter_denotes (path ++ [2]) hvalid.2.2.2 hsample.2 hinput hsink
    | false =>
      have hne : (denote compile key predicateFilter input.listing).1 ≠ [] := by
        rw [ne_eq, ← hempty, hp]
        simp
      rw [if_pos rfl, if_neg hne]
      split_ifs with hnil
      · exact ⟨_, rfl, hnothing⟩
      · exact evalFilter_denotes (path ++ [1]) hvalid.2.2.1 hsample.1.2 hinput hsink
  | rowKeyRegexFilter pat =>
    simp only [evalFilter, denote, hinput.key_eq, includeRegexp_of_valid hvalid.2]
    cases matchesRegexp compile pat key with
    | true => exact ⟨_, rfl, hinput.denotes hsink rfl⟩
    | false => exact ⟨_, rfl, (newRow_evaluable).denotes hsink (newRow_listing key)⟩
  | rowSampleFilter probability => cases hsample
  | cellsPerColumnLimitFilter n =>
    obtain ⟨hout, hlisting⟩ := hinput.limitColumns_listing n.toNat
    exact ⟨_, rfl, hout.denotes hsink hlisting⟩
  | cellsPerRowLimitFilter n =>
    obtain ⟨hout, hlisting⟩ := limitSlice_slicesAs.sliceRow_listing hinput n.toNat
    exact ⟨_, rfl, hout.denotes hsink hlisting⟩
  | cellsPerRowOffsetFilter n =>
    obtain ⟨hout, hlisting⟩ := offsetSlice_slicesAs.sliceRow_listing hinput n.toNat
    exact ⟨_, rfl, hout.denotes hsink hlisting⟩
  | familyNameRegexFilter pat =>
    exact hinput.filterCells_denotes hsink
      (fun fam _ _ => includeRegexp_of_valid hvalid.2 _ fam) (fun _ => rfl)
  | columnQualifierRegexFilter pat =>
    exact hinput.filterCells_denotes hsink
      (fun _ col _ => includeRegexp_of_valid hvalid.2 _ col) (fun _ => rfl)
  | valueRegexFilter pat =>
    exact hinput.filterCells_denotes hsink
      (fun _ _ c => includeRegexp_of_valid hvalid.2 _ c.value) (fun _ => rfl)
  | columnRangeFilter | valueRangeFilter | valueBitmaskFilter | stripValueTransformer =>
    exact hinput.filterCells_denotes hsink (fun _ _ _ => rfl) (fun _ => rfl)
  | timestampRangeFilter range =>
    refine hinput.filterCells_denotes hsink (fun _ _ c => ?_) (fun _ => rfl)
    simp only [includeCell, hvalid.2.1]
    rfl
  | applyLabelTransformer label =>
    refine hinput.filterCells_denotes hsink (fun _ _ _ => rfl) (fun c => ?_)
    simp only [modifyCell, hvalid.2]
    rfl

/-- Evaluating the sub-filters of a chain composes their meanings. -/
theorem evalChain_denotes {filters : List RowFilter} (path : List Nat) (i : Nat) {depth : Nat}
    {inCondition : Bool} (hvalid : validateFiltersAt compile filters depth inCondition = none)
    (hsample : allSampleFree filters = true) {input sink : Row} (hinput : input.Evaluable ord key)
    (hsink : sink.Evaluable ord key) :
    ∃ result,
      evalChain compile draw path i filters input sink = .ok result ∧
      Denotes ord key sink (denoteChain compile key filters input.listing)
        result := by
  cases filters with
  | nil => exact ⟨_, rfl, hinput.denotes hsink rfl⟩
  | cons sub filters =>
    simp only [validateFiltersAt, Option.or_eq_none_iff] at hvalid
    simp only [allSampleFree, Bool.and_eq_true] at hsample
    obtain ⟨⟨next, sink'⟩, hsub, hnext⟩ := evalFilter_denotes (path ++ [i])
      hvalid.1 hsample.1 hinput hsink
    obtain ⟨result, hrest, hres⟩ := evalChain_denotes path (i + 1)
      hvalid.2 hsample.2 hnext.out_evaluable hnext.sink_evaluable
    refine ⟨result, by simp only [evalChain, hsub, hrest], ?_⟩
    rw [hnext.out_listing] at hres
    refine ⟨hres.out_evaluable, hres.out_listing, hres.sink_evaluable, ?_⟩
    rw [hres.sink_listing, hnext.sink_listing]
    unfold sortListing
    rw [sortDesc_append_sortDesc_left, append_assoc]
    rfl

/-- Evaluating the branches of an interleave merges their outputs. -/
theorem evalInterleave_denotes {filters : List RowFilter} (path : List Nat) (i : Nat) {depth : Nat}
    {inCondition : Bool} (hvalid : validateFiltersAt compile filters depth inCondition = none)
    (hsample : allSampleFree filters = true) {input out sink : Row}
    (hinput : input.Evaluable ord key) (hout : out.Evaluable ord key)
    (hsink : sink.Evaluable ord key) :
    ∃ result,
      evalInterleave compile draw path i filters input out sink = .ok result ∧
      Denotes ord key sink
        (sortListing (out.listing ++ (denoteBranches compile key filters input.listing).1),
        (denoteBranches compile key filters input.listing).2) result := by
  cases filters with
  | nil =>
    refine ⟨_, rfl, hout.denotes hsink ?_⟩
    exact (sortListing_listing hout.normal).symm
  | cons sub filters =>
    simp only [validateFiltersAt, Option.or_eq_none_iff] at hvalid
    simp only [allSampleFree, Bool.and_eq_true] at hsample
    obtain ⟨⟨branch, sink'⟩, hsub, hbranch⟩ := evalFilter_denotes
      (path ++ [i]) hvalid.1 hsample.1 hinput hsink
    obtain ⟨result, hrest, hres⟩ := evalInterleave_denotes path
      (i + 1) hvalid.2 hsample.2 hinput
      (hout.mergeCells hbranch.out_evaluable) hbranch.sink_evaluable
    refine ⟨result, by simp only [evalInterleave, hsub, hrest], ?_⟩
    refine ⟨hres.out_evaluable, ?_, hres.sink_evaluable, ?_⟩
    · rw [hres.out_listing, hout.mergeCells_listing hbranch.out_evaluable, hbranch.out_listing]
      unfold sortListing
      rw [sortDesc_append_sortDesc_left, append_assoc]
      rfl
    · rw [hres.sink_listing, hbranch.sink_listing]
      unfold sortListing
      rw [sortDesc_append_sortDesc_left, append_assoc]
      rfl

end

theorem Row.Normal.evaluable (h : r.Normal) :
    r.Evaluable r.orders r.key where
  normal := h
  ordered := orderedBy_orders r
  key_eq := rfl

/-- What a checked filter leaves of a row. -/
theorem filterRow_denotes {f : RowFilter} (hvalid : validateFilter compile f = none)
    (hsample : f.sampleFree = true) (draw : List Nat → ℚ) (hr : r.Normal) :
    ∃ r',
      filterRow compile draw f r = .ok (!r'.isEmpty, r') ∧
      r'.Normal ∧
      r'.key = r.key ∧
      r'.listing = filterListing compile r.key f r.listing := by
  unfold filterRow
  by_cases hnil : f.isNil = true
  · have hf : f = .nil := by
      cases f <;> first | rfl | cases hnil
    subst hf
    refine ⟨r, by rw [if_pos hnil], hr, rfl, (sortListing_listing hr).symm⟩
  obtain ⟨⟨out, sink⟩, heval, hdenotes⟩ : ∃ result,
      evalFilter compile draw [] f r (newRow r.key) = .ok result ∧
      Denotes r.orders r.key (newRow r.key) (denote compile r.key f r.listing) result :=
    evalFilter_denotes [] hvalid hsample hr.evaluable (newRow_evaluable)
  have hmerged := hdenotes.out_evaluable.mergeCells hdenotes.sink_evaluable
  have hres : ({ r with
      families := (mergeCells out sink).normalize.families } : Row) =
        mergeCells out sink := by
    rw [hmerged.normal.normalize_eq, ← hmerged.key_eq]
  refine ⟨mergeCells out sink, ?_, hmerged.normal, hmerged.key_eq, ?_⟩
  · rw [if_neg hnil, hvalid, heval]
    simp only [hres]
  rw [hdenotes.out_evaluable.mergeCells_listing hdenotes.sink_evaluable,
    hdenotes.out_listing, hdenotes.sink_listing, newRow_listing,
    nil_append]
  unfold sortListing
  rw [sortDesc_append_sortDesc_right]
  rfl

/-- Filtering a row with a filter that is accepted and has no row sample leaves
the cells that the meaning of the filter selects from the listing of the row. -/
theorem filterRow_listing (compile : RegexpCompiler) (draw : List Nat → ℚ) (f : RowFilter)
    (hvalid : validateFilter compile f = none) (hsample : f.sampleFree = true) (r : Row)
    (hr : r.Normal) :
    ∃ r',
      filterRow compile draw f r = .ok (!(filterListing compile r.key f r.listing).isEmpty, r') ∧
      r'.Normal ∧
      r'.key = r.key ∧
      r'.listing = filterListing compile r.key f r.listing := by
  obtain ⟨r', hrun, hnormal, hkey, hlisting⟩ := filterRow_denotes hvalid hsample draw hr
  have hflag : r'.isEmpty = (filterListing compile r.key f r.listing).isEmpty := by
    rw [← hlisting, Bool.eq_iff_iff, List.isEmpty_iff]
    exact hnormal.isEmpty_iff_listing
  exact ⟨r', by rw [hrun, hflag], hnormal, hkey, hlisting⟩

/-- A row with two versions of a cell. -/
def twoVersionRow : Row :=
  Row.normalize
    ⟨[107], (∅ : GoMap Family).insert [102]
      ⟨0, [], (∅ : GoMap (List Cell)).insert [113] [⟨1000, [1], []⟩, ⟨2000, [2], []⟩]⟩⟩

/-- An interleave of the whole row with a sink: every cell is there twice, the
copies of a cell next to each other. -/
theorem filterRow_listing_interleave_sink :
    ∃ r',
      filterRow (fun _ => .ok (fun _ => true)) (fun _ => 0)
        (.interleave [.passAllFilter true, .sink true]) twoVersionRow = .ok (true, r') ∧
      r'.listing =
        [⟨[102], 0, [113], ⟨2000, [2], []⟩⟩, ⟨[102], 0, [113], ⟨2000, [2], []⟩⟩,
          ⟨[102], 0, [113], ⟨1000, [1], []⟩⟩,
          ⟨[102], 0, [113], ⟨1000, [1], []⟩⟩] := by
  obtain ⟨r', hrun, _, _, hlisting⟩ := filterRow_listing
    (fun _ => .ok (fun _ => true)) (fun _ => 0)
    (.interleave [.passAllFilter true, .sink true]) (by decide) (by decide)
    twoVersionRow (normalize_normal _)
  have hmeaning : filterListing (fun _ => .ok (fun _ => true)) twoVersionRow.key
      (.interleave [.passAllFilter true, .sink true]) twoVersionRow.listing =
        [⟨[102], 0, [113], ⟨2000, [2], []⟩⟩, ⟨[102], 0, [113], ⟨2000, [2], []⟩⟩,
          ⟨[102], 0, [113], ⟨1000, [1], []⟩⟩,
          ⟨[102], 0, [113], ⟨1000, [1], []⟩⟩] := by
    decide +kernel
  rw [hmeaning] at hrun hlisting
  exact ⟨r', hrun, hlisting⟩

end Evaluation

end Bttest
end LittleBigtable
