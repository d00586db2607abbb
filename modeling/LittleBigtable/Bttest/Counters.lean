import LittleBigtable.Bttest.RowInvariant

/-!
# Counters

`ReadModifyWriteRow` reads the newest visible cell of a column, computes a value
and writes it with a timestamp that is not older.  The rules read a collected
copy of the row and write both copies.

The abstract counter of a column is its newest value.  A rule computes the next
value from it, whatever the clock reads; a request computes with its rules in
order.  In families without GC rule, the newest stored cells and the answers of
every sequence of requests are those of the abstract counters.
-/

namespace LittleBigtable
namespace Bttest

open StrictDescending List Std

section AbstractCounters

/-- The newest value of each column of a row. -/
abbrev Counters := Bytes → Bytes → Option Bytes

def Counters.set (c : Counters) (fam col : Bytes) (v : Bytes) : Counters :=
  fun fam' col' => if fam' = fam ∧ col' = col then some v else c fam' col'

/-- What a rule computes from the newest value of its column.  An increment
needs eight bytes or no value; no value counts as 0. -/
inductive RuleComputes (rule : ReadModifyWriteRule) (prev : Option Bytes) :
    Bytes → Prop
  | append
      (value : Bytes)
      (hrule : rule.rule = .appendValue value) :
      RuleComputes rule prev (prev.getD [] ++ value)
  | increment
      (amount : Int) (v : Bytes)
      (hrule : rule.rule = .incrementAmount amount)
      (hprev : ∀ b, prev = some b → b.length = 8)
      (hlength : v.length = 8)
      (hvalue : (BigEndian.value v : Int) = (BigEndian.value (prev.getD []) + amount) % 2 ^ 64) :
      RuleComputes rule prev v

/-- The values that the rules compute in order; each rule sees what the rules
before it computed. -/
inductive RulesCompute :
    Counters → List ReadModifyWriteRule → List Bytes → Counters → Prop
  | nil (c : Counters) : RulesCompute c [] [] c
  | cons
      {c c' : Counters} {rule : ReadModifyWriteRule} {rules : List ReadModifyWriteRule} {v : Bytes}
      {values : List Bytes}
      (hrule : RuleComputes rule (c rule.familyName rule.columnQualifier) v)
      (hrules : RulesCompute (c.set rule.familyName rule.columnQualifier v) rules values c') :
      RulesCompute c (rule :: rules) (v :: values) c'

/-- Some rule writes to the column. -/
def touches (rules : List ReadModifyWriteRule) (fam col : Bytes) : Bool :=
  rules.any (fun rule => rule.familyName = fam ∧ rule.columnQualifier = col)

/-- A rule computes one value. -/
theorem RuleComputes.unique {rule : ReadModifyWriteRule} {prev : Option Bytes} {v v' : Bytes}
    (h : RuleComputes rule prev v) (h' : RuleComputes rule prev v') :
    v = v' := by
  cases h with
  | append value hrule =>
    cases h' with
    | append value' hrule' =>
      rw [hrule] at hrule'
      cases hrule'
      rfl
    | increment amount v' hrule' =>
      rw [hrule] at hrule'
      cases hrule'
  | increment amount v hrule hprev hlen hvalue =>
    cases h' with
    | append value' hrule' =>
      rw [hrule] at hrule'
      cases hrule'
    | increment amount' v' hrule' hprev' hlen' hvalue' =>
      rw [hrule] at hrule'
      cases hrule'
      refine BigEndian.value_injective (hlen.trans hlen'.symm) ?_
      have hcast := hvalue.trans hvalue'.symm
      exact_mod_cast hcast

end AbstractCounters

section Rules

variable {rule : ReadModifyWriteRule}

theorem ruleValue_computes {i : Nat} {prev : Option Cell} {v : Bytes} (hset : rule.rule ≠ .unset)
    (h : ruleValue i rule prev = .ok v) :
    RuleComputes rule (prev.map Cell.value) v := by
  unfold ruleValue at h
  cases hrule : rule.rule with
  | unset => exact absurd hrule hset
  | appendValue value =>
    simp only [hrule] at h
    cases h
    exact .append value hrule
  | incrementAmount amount =>
    simp only [hrule] at h
    cases prev with
    | none =>
      cases h
      refine .increment amount _ hrule (by simp) ?_ ?_
      · exact length_encodeInt64 _
      · simp [value_encodeInt64]
    | some c =>
      simp only [ne_eq, ite_not] at h
      split_ifs at h with hlen
      cases h
      refine .increment amount _ hrule ?_ ?_ ?_
      · intro b hb
        cases hb
        exact hlen
      · exact length_encodeInt64 _
      · rw [value_encodeInt64, Int.add_emod, decodeInt64_mod, ← Int.add_emod]
        rfl

theorem ruleValue_total (i : Nat) {prev : Option Cell} {v : Bytes}
    (h : RuleComputes rule (prev.map Cell.value) v) :
    ∃ v', ruleValue i rule prev = .ok v' := by
  unfold ruleValue
  cases h with
  | append value hrule => simp [hrule]
  | increment amount v hrule hprev =>
    simp only [hrule]
    cases prev with
    | none => exact ⟨_, rfl⟩
    | some c => simp [hprev c.value rfl]

/-- A cell that is not older than the newest one becomes the newest. -/
theorem head?_appendOrReplaceCell {cs : List Cell} (h : StrictDesc Cell.ts cs) {n : Cell}
    (hnewest : ∀ c, cs.head? = some c → c.ts ≤ n.ts) :
    (appendOrReplaceCell n cs).head? = some n := by
  have hmem := mem_appendOrReplaceCell_self h n
  have hstrict := strictDesc_appendOrReplaceCell h n
  cases hcs : appendOrReplaceCell n cs with
  | nil =>
    rw [hcs] at hmem
    cases hmem
  | cons d ds =>
    rw [hcs] at hmem hstrict
    rcases mem_cons.mp hmem with rfl | htail
    · rfl
    -- otherwise the head is an old cell, newer than the newest old one
    have hlt : n.ts < d.ts := (pairwise_cons.mp hstrict).1 n htail
    have hd : d ∈ cs := by
      have hdmem : d ∈ appendOrReplaceCell n cs := by
        simp [hcs]
      rcases mem_appendOrReplaceCell h hdmem with rfl | hold
      · omega
      · exact hold
    cases cs with
    | nil => cases hd
    | cons c cs =>
      have hc := hnewest c rfl
      rcases mem_cons.mp hd with rfl | hd
      · omega
      · have hdc : d.ts < c.ts := (pairwise_cons.mp h).1 d hd
        omega

end Rules

section Requests

/-- The newest value of each column of a row. -/
def Row.newest (r : Row) : Counters :=
  fun fam col => (r.column fam col).head?.map Cell.value

/-- The families of the rules have no GC rule. -/
def Uncollected (tbl : Table) (rules : List ReadModifyWriteRule) : Prop :=
  ∀ rule ∈ rules, tbl.gcRules[rule.familyName]? = none

/-- The rows of a request after the rules `done`, against the counters `c`: the
collected copy and the row agree where nothing is collected, and the cells to
answer are those of the columns written so far. -/
structure RuleInvariant (tbl : Table) (c : Counters) (done : List ReadModifyWriteRule)
    (s : RuleState) : Prop where
  row : s.row.WellFormed tbl.families tbl.granularity
  visible : s.visible.WellFormed tbl.families tbl.granularity
  visible_eq : ∀ fam col, tbl.gcRules[fam]? = none → s.visible.column fam col = s.row.column fam col
  newest : ∀ fam col, tbl.gcRules[fam]? = none → s.row.newest fam col = c fam col
  normal : s.result.Normal
  result : ∀ fam col, s.result.newest fam col = if touches done fam col then c fam col else none

variable {tbl : Table}

theorem updateColumn_newest (r : Row) (fam : Bytes) (order : Nat) (col : Bytes)
    {change : List Cell → List Cell} {n : Cell}
    (hhead : (change (r.column fam col)).head? = some n) :
    (r.updateColumn fam order col change).newest = r.newest.set fam col n.value := by
  funext fam' col'
  unfold Row.newest Counters.set
  rw [updateColumn_column]
  split_ifs
  · rw [hhead]
    rfl
  · rfl

theorem touches_append_singleton (done : List ReadModifyWriteRule) (rule : ReadModifyWriteRule)
    (fam col : Bytes) :
    touches (done ++ [rule]) fam col = true ↔
      touches done fam col = true ∨ fam = rule.familyName ∧ col = rule.columnQualifier := by
  simp only [touches, any_append, Bool.or_eq_true, any_cons, any_nil,
    Bool.or_false, decide_eq_true_eq]
  constructor
  · rintro (h | ⟨rfl, rfl⟩)
    · exact .inl h
    · exact .inr ⟨rfl, rfl⟩
  · rintro (h | ⟨rfl, rfl⟩)
    · exact .inl h
    · exact .inr ⟨rfl, rfl⟩

variable {done : List ReadModifyWriteRule} {rule : ReadModifyWriteRule} {c : Counters}
variable {s : RuleState} {nowNanos : Nat → Nat} {rules : List ReadModifyWriteRule}
variable {view : Option ViewPolicy} {req : ReadModifyWriteRowRequest} {db : Store} {key : Bytes}

/-- One rule computes with the newest value of its column. -/
theorem applyRule_computes {nowNanos i : Nat} {s' : RuleState} {cf : ColumnFamily}
    (hcf : tbl.families[rule.familyName]? = some cf) (hset : rule.rule ≠ .unset)
    (hgc : tbl.gcRules[rule.familyName]? = none) (hinv : RuleInvariant tbl c done s)
    (h : applyRule tbl.families nowNanos i rule s = .ok s') :
    ∃ v, RuleComputes rule (c rule.familyName rule.columnQualifier) v ∧
      RuleInvariant tbl (c.set rule.familyName rule.columnQualifier v) (done ++ [rule]) s' := by
  obtain ⟨_, hrow', hvis'⟩ := applyRule_wellFormed hcf hinv.row hinv.visible h
  unfold applyRule at h
  simp only [familyOf_eq hcf] at h
  split at h
  · cases h
  rename_i v hvalue
  have hcolumn := hinv.visible_eq rule.familyName rule.columnQualifier hgc
  have hprev : ((s.visible.column rule.familyName rule.columnQualifier).head?).map
      Cell.value = c rule.familyName rule.columnQualifier := by
    rw [hcolumn]
    exact hinv.newest _ _ hgc
  have hcomputes := ruleValue_computes hset hvalue
  rw [hprev] at hcomputes
  refine ⟨v, hcomputes, ?_⟩
  cases h
  generalize hn : (⟨_, v, []⟩ : Cell) = n at hrow' hvis' ⊢
  -- the clock reading is raised to the timestamp of the newest cell
  have hhead : (appendOrReplaceCell n
      (s.row.column rule.familyName rule.columnQualifier)).head? = some n := by
    refine head?_appendOrReplaceCell (hinv.row.strict _ _) (fun c' hc' => ?_)
    rw [← hcolumn] at hc'
    rw [← hn, hc']
    exact le_max_right _ _
  have hv : n.value = v := by
    rw [← hn]
  refine ⟨hrow', hvis', ?_, ?_, ?_, ?_⟩
  · intro fam col hfam
    rw [updateColumn_column, updateColumn_column, hcolumn, hinv.visible_eq fam col hfam]
  · intro fam col hfam
    rw [updateColumn_newest _ _ _ _ hhead, hv]
    unfold Counters.set
    rw [hinv.newest fam col hfam]
  · exact hinv.normal.updateColumn _ _ _ (by simp) (by simp [StableSort.Descending])
  intro fam col
  rw [updateColumn_newest _ _ _ _ rfl, hv]
  unfold Counters.set
  rw [hinv.result fam col]
  by_cases hcol : fam = rule.familyName ∧ col = rule.columnQualifier
  · rw [if_pos hcol, if_pos ((touches_append_singleton _ _ _ _).mpr (.inr hcol)), if_pos hcol]
  have htouches : touches (done ++ [rule]) fam col = touches done fam col := by
    rw [Bool.eq_iff_iff, touches_append_singleton]
    exact or_iff_left hcol
  rw [if_neg hcol, if_neg hcol, htouches]

/-- What the checks and the schema say about the rules of a request. -/
def RulesValid (tbl : Table) (rules : List ReadModifyWriteRule) : Prop :=
  ∀ rule ∈ rules, (∃ cf, tbl.families[rule.familyName]? = some cf) ∧
    rule.rule ≠ .unset ∧ tbl.gcRules[rule.familyName]? = none

theorem applyRules_compute (i : Nat) (hrules : RulesValid tbl rules) {s' : RuleState}
    (hinv : RuleInvariant tbl c done s) (h : applyRules tbl.families nowNanos i rules s = .ok s') :
    ∃ values c', RulesCompute c rules values c' ∧ RuleInvariant tbl c' (done ++ rules) s' := by
  induction rules generalizing i c done s with
  | nil =>
    cases h
    exact ⟨[], c, .nil c, by simpa using hinv⟩
  | cons rule rules ih =>
    unfold applyRules at h
    split at h
    · cases h
    rename_i s₁ hrule
    obtain ⟨⟨cf, hcf⟩, hset, hgc⟩ := hrules rule (by simp)
    obtain ⟨v, hv, hinv₁⟩ := applyRule_computes hcf hset hgc hinv hrule
    obtain ⟨values, c', hvalues, hinv'⟩ := ih (i + 1)
      (fun rule' hmem => hrules rule' (mem_cons_of_mem rule hmem)) hinv₁ h
    refine ⟨v :: values, c', .cons hv hvalues, ?_⟩
    simpa using hinv'

theorem applyRules_total (nowNanos : Nat → Nat) (i : Nat) (hrules : RulesValid tbl rules)
    {c' : Counters} {values : List Bytes} (hinv : RuleInvariant tbl c done s)
    (h : RulesCompute c rules values c') :
    ∃ s', applyRules tbl.families nowNanos i rules s = .ok s' := by
  induction h generalizing i done s with
  | nil c => exact ⟨s, rfl⟩
  | @cons c c' rule rules v values hrule _ ih =>
    obtain ⟨⟨cf, hcf⟩, hset, hgc⟩ := hrules rule (by simp)
    have hseen := hrule
    rw [← hinv.newest _ _ hgc, Row.newest, ← hinv.visible_eq _ _ hgc] at hseen
    obtain ⟨v₁, hv₁⟩ := ruleValue_total i hseen
    obtain ⟨s₁, hs₁⟩ : ∃ s₁, applyRule tbl.families (nowNanos i) i rule s = .ok s₁ := by
      unfold applyRule
      simp only [hv₁]
      exact ⟨_, rfl⟩
    obtain ⟨v', hv', hinv₁⟩ := applyRule_computes hcf hset hgc hinv hs₁
    rw [← hrule.unique hv'] at hinv₁
    obtain ⟨s', hs'⟩ := ih (i + 1)
      (fun rule' hmem => hrules rule' (mem_cons_of_mem rule hmem)) hinv₁
    refine ⟨s', ?_⟩
    unfold applyRules
    simp only [hs₁]
    exact hs'

theorem ruleInvariant_start {r : Row} (hr : r.WellFormed tbl.families tbl.granularity)
    {visibleMicros : Int} {key : Bytes} :
    RuleInvariant tbl r.newest [] ⟨r, r.gc tbl.gcRules visibleMicros, newRow key, []⟩ where
  row := hr
  visible := hr.gcWithChanges tbl.gcRules visibleMicros
  visible_eq fam col hfam := gc_column_of_no_rule hr.normal hfam visibleMicros col
  newest fam col _ := rfl
  normal := newRow_normal key
  result fam col := by
    simp [Row.newest, touches]

/-- The value that an answer shows for a column. -/
def answerValue (answer : List (Bytes × List (Bytes × Option Cell)))
    (fam col : Bytes) : Option Bytes :=
  (answer.find? (fun f => f.1 = fam)).bind (fun f =>
    (f.2.find? (fun c => c.1 = col)).bind (fun c => c.2.map Cell.value))

/-- In a list of distinct keys, the entry of a key is the first with that key. -/
theorem find?_fst_eq_some {β : Type} {l : List (Bytes × β)} {a : Bytes} {b : β}
    (hunique : ∀ b', (a, b') ∈ l → b' = b) (hmem : (a, b) ∈ l) :
    l.find? (fun x => x.1 = a) = some (a, b) := by
  cases hfind : l.find? (fun x => x.1 = a) with
  | none =>
    have hne := List.find?_eq_none.mp hfind (a, b) hmem
    simp at hne
  | some x =>
    obtain ⟨a', b'⟩ := x
    have ha : a' = a := by
      simpa using List.find?_some hfind
    subst ha
    rw [hunique b' (mem_of_find?_eq_some hfind)]

/-- The answer shows the newest value of each column of the result. -/
theorem answerValue_ruleResponse {r : Row} (hr : r.Normal) (fam col : Bytes) :
    answerValue (ruleResponse r) fam col = r.newest fam col := by
  unfold answerValue ruleResponse Row.newest Row.column
  cases hfam : r.families[fam]? with
  | none =>
    have hnone : (r.sortedFamilies.map (fun f => (f.1, f.2.colNames.map (fun col =>
        (col, (f.2.cells[col]?.getD []).head?))))).find? (fun f => f.1 = fam) = none := by
      rw [List.find?_eq_none]
      intro x hx
      obtain ⟨⟨fam', f⟩, hf, rfl⟩ := mem_map.mp hx
      rw [mem_sortedFamilies] at hf
      simp only [decide_eq_true_eq]
      rintro rfl
      rw [hfam] at hf
      cases hf
    rw [hnone]
    rfl
  | some f =>
    rw [find?_fst_eq_some (b := f.colNames.map (fun col =>
      (col, (f.cells[col]?.getD []).head?)))]
    · simp only [Option.bind_some]
      cases hcol : f.cells[col]? with
      | none =>
        have hnone : (f.colNames.map (fun col =>
            (col, (f.cells[col]?.getD []).head?))).find? (fun c => c.1 = col) = none := by
          rw [List.find?_eq_none]
          intro x hx
          obtain ⟨col', hcol', rfl⟩ := mem_map.mp hx
          rw [(hr fam f hfam).colNames_eq, ExtTreeMap.mem_keys] at hcol'
          simp only [decide_eq_true_eq]
          rintro rfl
          rw [ExtTreeMap.mem_iff_isSome_getElem?, hcol] at hcol'
          cases hcol'
        rw [hnone]
        rfl
      | some cs =>
        rw [find?_fst_eq_some (b := cs.head?)]
        · rfl
        · intro b hb
          obtain ⟨col', _, heq⟩ := mem_map.mp hb
          cases heq
          simp [hcol]
        · refine mem_map.mpr ⟨col, ?_, by simp [hcol]⟩
          rw [(hr fam f hfam).colNames_eq, ExtTreeMap.mem_keys,
            ExtTreeMap.mem_iff_isSome_getElem?, hcol]
          rfl
    · intro b hb
      obtain ⟨⟨fam', f'⟩, hf', heq⟩ := mem_map.mp hb
      cases heq
      rw [mem_sortedFamilies, hfam] at hf'
      cases hf'
      rfl
    · exact mem_map.mpr ⟨(fam, f), mem_sortedFamilies.mpr hfam, rfl⟩

/-- A `ReadModifyWriteRow` request on a row, with its clock readings and the
failures of the storage. -/
structure CounterRequest where
  view : Option ViewPolicy
  nowNanos : Nat → Nat
  visibleMicros : Int
  env : EntryEnv
  tx : TxEnv
  rules : List ReadModifyWriteRule

def CounterRequest.call (q : CounterRequest) (tbl : Table) (key : Bytes) (db : Store) :
    Except Status (List (Bytes × List (Bytes × Option Cell))) × Store :=
  readModifyWriteRow tbl q.view q.nowNanos q.visibleMicros q.env q.tx ⟨key, q.rules⟩ db

/-- The store after a sequence of requests on a row. -/
def afterRequests (tbl : Table) (key : Bytes) (requests : List CounterRequest)
    (db : Store) : Store :=
  requests.foldl (fun db q => (q.call tbl key db).2) db

/-- A request on a row counts: what it answers and leaves as newest cells is what
its rules compute from the newest cells before it, and it is answered whenever
the rules can compute. -/
structure RequestCounts (tbl : Table) (key : Bytes) (db : Store) (q : CounterRequest) : Prop where
  failed : ∀ st db', q.call tbl key db = (.error st, db') → db' = db
  answered : ∀ answer db', q.call tbl key db = (.ok answer, db') →
    ∃ values c',
      RulesCompute (storedRow db.rows key).newest q.rules values c' ∧
      (∀ fam col, tbl.gcRules[fam]? = none → (storedRow db'.rows key).newest fam col = c' fam col) ∧
      ∀ fam col, answerValue answer fam col =
        if touches q.rules fam col then c' fam col else none
  total : readModifyWriteRowCheck tbl q.view ⟨key, q.rules⟩ = none →
    q.env.loadError = none → q.tx.failure = none →
    ∀ values c',
      RulesCompute (storedRow db.rows key).newest q.rules values c' →
      ∃ answer db', q.call tbl key db = (.ok answer, db')

theorem rulesValid_of_check (hgc : Uncollected tbl req.rules)
    (h : readModifyWriteRowCheck tbl view req = none) :
    RulesValid tbl req.rules := by
  intro rule hmem
  obtain ⟨_, hvalid⟩ := readModifyWriteRowCheck_eq_none h
  obtain ⟨cf, hcf, _, hset⟩ := validateRules_valid 0 hvalid hmem
  exact ⟨⟨cf, hcf⟩, hset, hgc rule hmem⟩

/-- A request that is answered computed with the newest cells of the row. -/
theorem readModifyWriteRow_computes {visibleMicros : Int} {env : EntryEnv} {tx : TxEnv}
    {db' : Store} {answer : List (Bytes × List (Bytes × Option Cell))}
    (hrows : RowsWellFormed tbl db.rows) (hgc : Uncollected tbl req.rules)
    (h : readModifyWriteRow tbl view nowNanos visibleMicros env tx req db = (.ok answer, db')) :
    ∃ values c',
      RulesCompute (storedRow db.rows req.rowKey).newest req.rules values c' ∧
      (∀ fam col, tbl.gcRules[fam]? = none →
        (storedRow db'.rows req.rowKey).newest fam col = c' fam col) ∧
      ∀ fam col, answerValue answer fam col =
        if touches req.rules fam col then c' fam col else none := by
  cases readModifyWriteRow_result h with
  | written commit result _ hcheck hstage hpers =>
    obtain ⟨_, hvalid⟩ := readModifyWriteRowCheck_eq_none hcheck
    obtain ⟨candidate, hcand, hafter, hkey, hwf⟩ := stage_fresh_eq_ok hrows
      (keepsWellFormed_readModifyWrite hvalid) hstage
    obtain ⟨s', hs', heq⟩ := exceptMap_eq_ok hcand
    obtain ⟨rfl, _, rfl⟩ : s'.row = candidate ∧ s'.changes = commit.userChanges ∧
        s'.result = result := by
      simpa using heq
    obtain ⟨values, c', hvalues, hinv⟩ := applyRules_compute 0
      (rulesValid_of_check hgc hcheck)
      (ruleInvariant_start (storedRow_wellFormed hrows).1) hs'
    have hstored : db'.rows[req.rowKey]? = persistedRow commit.after := by
      have hkey' : commit.after.key = req.rowKey := by
        rw [hafter]
        exact (gcWithChanges_key).trans hkey
      rw [persistWith_rows (fun _ => rfl) hpers]
      simp only [foldl_cons, foldl_nil]
      rw [save_getElem?, if_pos hkey'.symm]
    refine ⟨values, c', hvalues, fun fam col hfam => ?_, fun fam col => ?_⟩
    · rw [← hinv.newest fam col hfam]
      unfold Row.newest
      rw [storedRow_column_of_persisted hstored, hafter, gc_column_of_no_rule hwf.normal hfam]
    · rw [answerValue_ruleResponse hinv.normal, hinv.result]
      simp

/-- A request whose rules can compute is answered. -/
theorem readModifyWriteRow_total {visibleMicros : Int} {env : EntryEnv} {tx : TxEnv}
    (hrows : RowsWellFormed tbl db.rows) (hgc : Uncollected tbl req.rules)
    (hcheck : readModifyWriteRowCheck tbl view req = none) (hload : env.loadError = none)
    (htx : tx.failure = none) {values : List Bytes} {c' : Counters}
    (h : RulesCompute (storedRow db.rows req.rowKey).newest req.rules values c') :
    ∃ answer db', readModifyWriteRow tbl view nowNanos visibleMicros env tx req db =
      (.ok answer, db') := by
  obtain ⟨s', hs'⟩ := applyRules_total nowNanos 0 (rulesValid_of_check hgc hcheck)
    (ruleInvariant_start (storedRow_wellFormed hrows).1) h
  have hmutate : readModifyWrite tbl nowNanos visibleMicros req
      (storedRow db.rows req.rowKey) = .ok (s'.row, s'.changes, s'.result) := by
    unfold readModifyWrite
    rw [hs']
    rfl
  generalize hx : readModifyWriteRow tbl view nowNanos visibleMicros env tx req db = x
  cases readModifyWriteRow_result hx with
  | invalid st hinvalid =>
    rw [hcheck] at hinvalid
    cases hinvalid
  | stageError st _ hstage =>
    unfold stage stageBase SqlRows.load at hstage
    simp only [ExtTreeMap.getElem?_empty, hload] at hstage
    rw [show (db.rows[req.rowKey]?).getD (newRow req.rowKey) =
      storedRow db.rows req.rowKey from rfl, hmutate] at hstage
    cases hstage
  | txError st commit result _ _ hpers => simp [persist, persistWith, htx] at hpers
  | written commit result db' => exact ⟨_, _, rfl⟩

theorem CounterRequest.call_rowsWellFormed (q : CounterRequest)
    (hrows : RowsWellFormed tbl db.rows) :
    RowsWellFormed tbl (q.call tbl key db).2.rows :=
  (Written.readModifyWriteRow ..).rowsWellFormed hrows

theorem afterRequests_rowsWellFormed (requests : List CounterRequest)
    (hrows : RowsWellFormed tbl db.rows) :
    RowsWellFormed tbl (afterRequests tbl key requests db).rows := by
  induction requests generalizing db with
  | nil => exact hrows
  | cons q requests ih => exact ih (q.call_rowsWellFormed hrows)

theorem requestCounts_of_rowsWellFormed (hrows : RowsWellFormed tbl db.rows) {q : CounterRequest}
    (hgc : Uncollected tbl q.rules) :
    RequestCounts tbl key db q where
  failed st db' h := by
    unfold CounterRequest.call at h
    cases readModifyWriteRow_result h with
    | invalid | stageError | txError => rfl
  answered answer db' h := by
    have hcomputes := readModifyWriteRow_computes hrows (by exact hgc) h
    exact hcomputes
  total hcheck hload htx values c' h := readModifyWriteRow_total hrows hgc hcheck hload htx h

/-- Counters never lose an increment: whatever requests came before and whatever
the clocks read, the next request on a row computes with the newest stored value
of each column, answers the values it computed and leaves them as the newest
cells. -/
theorem readModifyWriteRow_counts (tbl : Table) (key : Bytes) (db : Store)
    (hrows : RowsWellFormed tbl db.rows) (requests : List CounterRequest) (q : CounterRequest)
    (hgc : Uncollected tbl q.rules) :
    RequestCounts tbl key (afterRequests tbl key requests db) q :=
  requestCounts_of_rowsWellFormed (afterRequests_rowsWellFormed requests hrows) hgc

/-- A table whose family `f` keeps all cells. -/
def counterTable : Table :=
  tableWithFamily none ⟨false⟩ false

/-- An increment of the counter `f:c`. -/
def incrementAt (nowNanos : Nat) (amount : Int) : CounterRequest :=
  ⟨none, fun _ => nowNanos, 0, ⟨0, 0, none, none, 0⟩, ⟨0, fun _ => 0, none⟩,
    [⟨[102], [99], .incrementAmount amount⟩]⟩

/-- An increment counts although the clock went back since the last one. -/
theorem readModifyWriteRow_counts_clock_back :
    RequestCounts counterTable [97]
      (afterRequests counterTable [97] [incrementAt 5000000 5] ⟨∅, ∅, []⟩)
      (incrementAt 1000000 (-7)) ∧
    ((incrementAt 1000000 (-7)).call counterTable [97]
      (afterRequests counterTable [97] [incrementAt 5000000 5] ⟨∅, ∅, []⟩)).1.toOption.map
        (fun answer => answerValue answer [102] [99]) =
      some (some (encodeInt64 (-2))) := by
  refine ⟨readModifyWriteRow_counts _ _ _ ?_ _ _ ?_, by decide +kernel⟩
  · intro key r hr
    simp at hr
  · intro rule hrule
    cases mem_singleton.mp hrule
    decide +kernel

end Requests

end Bttest
end LittleBigtable
