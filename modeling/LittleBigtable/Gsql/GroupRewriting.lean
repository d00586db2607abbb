import LittleBigtable.Gsql.Execution

/-!
# Expressions behind `GROUP BY`

`mapToGroup` replaces the parts of an expression that have the fingerprint of a group key by
references to the key, so that it can be evaluated without a row.  The rows of a group agree
on every key, because the text by which a group is found determines the keys; so the
rewritten expression gives on the group what the expression gives on each of its rows.

That equal fingerprints mean equal evaluation is an assumption here.  Floats are excluded:
the zeros have one text.
-/

namespace LittleBigtable
namespace Gsql

open Bttest List
open Fallible
open Visit

section Rewrite

variable {κ φ : Type} [DecidableEq φ]

/-- What `mapToGroup` is given beside the expression; `cols` are the columns of the scope, if
there is one. -/
structure GroupScope (κ φ : Type) where
  fingerprint : BExpr κ → φ
  keys : List (BExpr κ)
  cols : Option (List String)
  clause : String

/-- The key with the fingerprint of the expression, or what else becomes of it. -/
def GroupScope.orKey (sc : GroupScope κ φ) (e : BExpr κ)
    (rest : Except Status (BExpr κ)) : Except Status (BExpr κ) :=
  match sc.keys.findIdx? (fun k => decide (sc.fingerprint k = sc.fingerprint e)) with
  | some i => .ok (.groupRef i)
  | none => rest

/-- A column that is no key. -/
def GroupScope.notGrouped (sc : GroupScope κ φ) (name : String) (idx : Nat) : Status :=
  invalidf "%s expression references column %s which is neither grouped nor aggregated"
    [.text sc.clause, .text ((sc.cols.bind (fun cols => cols[idx]?)).getD name)]

mutual

/-- `mapToGroup`. -/
def BExpr.mapToGroup (sc : GroupScope κ φ) : BExpr κ → Except Status (BExpr κ)
  | .const typ v => sc.orKey (.const typ v) (.ok (.const typ v))
  | .param typ name idx => sc.orKey (.param typ name idx) (.ok (.param typ name idx))
  | .column name idx => sc.orKey (.column name idx) (.error (sc.notGrouped name idx))
  | .groupRef idx => sc.orKey (.groupRef idx) (.ok (.groupRef idx))
  | .aggRef idx => sc.orKey (.aggRef idx) (.ok (.aggRef idx))
  | .and l r =>
    sc.orKey (.and l r)
      ((l.mapToGroup sc).bind (fun l' => (r.mapToGroup sc).map (fun r' => .and l' r')))
  | .or l r =>
    sc.orKey (.or l r)
      ((l.mapToGroup sc).bind (fun l' => (r.mapToGroup sc).map (fun r' => .or l' r')))
  | .compare op l r =>
    sc.orKey (.compare op l r)
      ((l.mapToGroup sc).bind (fun l' => (r.mapToGroup sc).map (fun r' => .compare op l' r')))
  | .inList negated x items =>
    sc.orKey (.inList negated x items) ((x.mapToGroup sc).bind (fun x' =>
        (BExpr.mapAllToGroup sc items).map (fun items' => .inList negated x' items')))
  | .inUnnest negated x arr =>
    sc.orKey (.inUnnest negated x arr) ((x.mapToGroup sc).bind (fun x' =>
        (arr.mapToGroup sc).map (fun arr' => .inUnnest negated x' arr')))
  | .between negated x lo hi =>
    sc.orKey (.between negated x lo hi)
      ((x.mapToGroup sc).bind (fun x' => (lo.mapToGroup sc).bind (fun lo' =>
        (hi.mapToGroup sc).map (fun hi' => .between negated x' lo' hi'))))
  | .startsWith x p =>
    sc.orKey (.startsWith x p)
      ((x.mapToGroup sc).bind (fun x' => (p.mapToGroup sc).map (fun p' => .startsWith x' p')))
  | .like negated x p =>
    sc.orKey (.like negated x p) ((x.mapToGroup sc).bind (fun x' =>
        (p.mapToGroup sc).map (fun p' => .like negated x' p')))
  | .rand => sc.orKey .rand (.ok .rand)
  | .call typ fn args =>
    sc.orKey (.call typ fn args)
      ((BExpr.mapAllToGroup sc args).map (fun args' => .call typ fn args'))

def BExpr.mapAllToGroup (sc : GroupScope κ φ) : List (BExpr κ) → Except Status (List (BExpr κ))
  | [] => .ok []
  | e :: es =>
    (e.mapToGroup sc).bind (fun e' =>
      (BExpr.mapAllToGroup sc es).map (fun es' => e' :: es'))

end

mutual

/-- The expression refers to an aggregate (`containsAgg`) or to a group.  `GROUP BY` takes no
such expression. -/
def BExpr.refersToGroup : BExpr κ → Bool
  | .const _ _ => false
  | .param _ _ _ => false
  | .column _ _ => false
  | .groupRef _ => true
  | .aggRef _ => true
  | .and l r => l.refersToGroup || r.refersToGroup
  | .or l r => l.refersToGroup || r.refersToGroup
  | .compare _ l r => l.refersToGroup || r.refersToGroup
  | .inList _ x items => x.refersToGroup || BExpr.anyRefersToGroup items
  | .inUnnest _ x arr => x.refersToGroup || arr.refersToGroup
  | .between _ x lo hi => x.refersToGroup || lo.refersToGroup || hi.refersToGroup
  | .startsWith x p => x.refersToGroup || p.refersToGroup
  | .like _ x p => x.refersToGroup || p.refersToGroup
  | .rand => false
  | .call _ _ args => BExpr.anyRefersToGroup args

def BExpr.anyRefersToGroup : List (BExpr κ) → Bool
  | [] => false
  | e :: es => e.refersToGroup || BExpr.anyRefersToGroup es

end

/-- The context of a row behind the aggregation. -/
def EvalCtx.withGroup (ec : EvalCtx κ) (keys aggs : List (Datum κ)) : EvalCtx κ :=
  { ec with group := keys, aggs := aggs }

variable {ec : EvalCtx κ} {keys aggs : List (Datum κ)}

mutual

/-- An expression without references to the group does not depend on it. -/
theorem eval_withGroup (e : BExpr κ) (h : e.refersToGroup = false) (path : List Nat) :
    e.eval (ec.withGroup keys aggs) path = e.eval ec path := by
  cases e with
  | const | param | column | rand => rfl
  | groupRef | aggRef => cases h
  | and l r | or l r | compare _ l r | inUnnest _ l r | startsWith l r | like _ l r =>
    simp only [BExpr.refersToGroup, Bool.or_eq_false_iff] at h
    rw [BExpr.eval, BExpr.eval, eval_withGroup l h.1, eval_withGroup r h.2]
  | inList _ x items =>
    simp only [BExpr.refersToGroup, Bool.or_eq_false_iff] at h
    rw [BExpr.eval, BExpr.eval, eval_withGroup x h.1, evalAll_withGroup items h.2]
  | between _ x lo hi =>
    simp only [BExpr.refersToGroup, Bool.or_eq_false_iff] at h
    rw [BExpr.eval, BExpr.eval, eval_withGroup x h.1.1, eval_withGroup lo h.1.2,
      eval_withGroup hi h.2]
  | call _ _ args =>
    rw [BExpr.eval, BExpr.eval, evalAll_withGroup args h]
    rfl

theorem evalAll_withGroup (es : List (BExpr κ)) (h : BExpr.anyRefersToGroup es = false)
    (path : List Nat) (i : Nat) :
    BExpr.evalAll (ec.withGroup keys aggs) es path i = BExpr.evalAll ec es path i := by
  cases es with
  | nil => rfl
  | cons e es =>
    simp only [BExpr.anyRefersToGroup, Bool.or_eq_false_iff] at h
    rw [BExpr.evalAll, BExpr.evalAll, eval_withGroup e h.1, evalAll_withGroup es h.2]

end

/-- Equal fingerprints mean equal evaluation, where nothing is drawn. -/
def GroupScope.Sound (sc : GroupScope κ φ) : Prop :=
  ∀ k ∈ sc.keys, ∀ e : BExpr κ, e.randFree = true → sc.fingerprint k = sc.fingerprint e →
    ∀ ec path path', k.eval ec path = e.eval ec path'

/-- The stored keys of a group are those of the row. -/
structure GroupScope.Stores (sc : GroupScope κ φ) (gc rc : EvalCtx κ) : Prop where
  params : gc.params = rc.params
  now : gc.now = rc.now
  group : gc.group = rc.group
  aggs : gc.aggs = rc.aggs
  key : ∀ (i : Nat) (k : BExpr κ), sc.keys[i]? = some k →
    ∃ path, k.eval rc path = .ok (gc.group.getD i .null)

variable {sc : GroupScope κ φ} {gc rc : EvalCtx κ}

variable {rest : Except Status (BExpr κ)}

theorem orKey_cases {e m : BExpr κ} (h : sc.orKey e rest = .ok m) :
    (∃ i k, sc.keys[i]? = some k ∧ sc.fingerprint k = sc.fingerprint e ∧ m = .groupRef i) ∨
      rest = .ok m := by
  unfold GroupScope.orKey at h
  cases hfind : sc.keys.findIdx? (fun k => decide (sc.fingerprint k = sc.fingerprint e)) with
  | none =>
    rw [hfind] at h
    exact .inr h
  | some i =>
    rw [hfind] at h
    obtain ⟨hi, hkey, _⟩ := findIdx?_eq_some_iff_getElem.mp hfind
    exact .inl ⟨i, sc.keys[i], getElem?_eq_getElem hi, of_decide_eq_true hkey,
      (Except.ok.inj h).symm⟩

theorem eval_orKey (hsound : sc.Sound) (hstores : sc.Stores gc rc) {e m : BExpr κ}
    (hrand : e.randFree = true) (h : sc.orKey e rest = .ok m) {path : List Nat}
    (hrest : rest = .ok m → m.eval gc path = e.eval rc path) :
    m.eval gc path = e.eval rc path := by
  rcases orKey_cases h with ⟨i, k, hk, hfp, rfl⟩ | hok
  · obtain ⟨place, hplace⟩ := hstores.key i k hk
    rw [BExpr.eval, ← hplace]
    exact hsound k (mem_of_getElem? hk) e hrand hfp rc place path
  · exact hrest hok

mutual

/-- **The rewritten expression has on the group the value of the expression on the row.** -/
theorem eval_mapToGroup (hsound : sc.Sound) (hstores : sc.Stores gc rc) {e m : BExpr κ}
    (hr : e.randFree = true) (h : e.mapToGroup sc = .ok m) {path : List Nat} :
    m.eval gc path = e.eval rc path := by
  cases e with rw [BExpr.mapToGroup] at h
  | const | param | groupRef | aggRef =>
    refine eval_orKey hsound hstores hr h fun hm => ?_
    simp only [← Except.ok.inj hm, BExpr.eval, hstores.params, hstores.group, hstores.aggs]
  | column name idx =>
    exact eval_orKey hsound hstores hr h fun hm => nomatch hm
  | and l r | or l r | compare _ l r | inUnnest _ l r | startsWith l r | like _ l r =>
    refine eval_orKey hsound hstores hr h fun hm => ?_
    simp only [BExpr.randFree, Bool.and_eq_true] at hr
    obtain ⟨l', hl', hm⟩ := bind_eq_ok_iff.mp hm
    obtain ⟨r', hr', rfl⟩ := map_eq_ok_iff.mp hm
    rw [BExpr.eval, BExpr.eval, eval_mapToGroup hsound hstores hr.1 hl',
      eval_mapToGroup hsound hstores hr.2 hr']
  | inList _ x items =>
    refine eval_orKey hsound hstores hr h fun hm => ?_
    simp only [BExpr.randFree, Bool.and_eq_true] at hr
    obtain ⟨x', hx', hm⟩ := bind_eq_ok_iff.mp hm
    obtain ⟨items', hitems', rfl⟩ := map_eq_ok_iff.mp hm
    rw [BExpr.eval, BExpr.eval, eval_mapToGroup hsound hstores hr.1 hx',
      evalAll_mapAllToGroup hsound hstores hr.2 hitems']
  | between _ x lo hi =>
    refine eval_orKey hsound hstores hr h fun hm => ?_
    simp only [BExpr.randFree, Bool.and_eq_true] at hr
    obtain ⟨x', hx', hm⟩ := bind_eq_ok_iff.mp hm
    obtain ⟨lo', hlo', hm⟩ := bind_eq_ok_iff.mp hm
    obtain ⟨hi', hhi', rfl⟩ := map_eq_ok_iff.mp hm
    rw [BExpr.eval, BExpr.eval, eval_mapToGroup hsound hstores hr.1.1 hx',
      eval_mapToGroup hsound hstores hr.1.2 hlo',
      eval_mapToGroup hsound hstores hr.2 hhi']
  | rand => cases hr
  | call _ _ args =>
    refine eval_orKey hsound hstores hr h fun hm => ?_
    obtain ⟨args', hargs', rfl⟩ := map_eq_ok_iff.mp hm
    rw [BExpr.eval, BExpr.eval, hstores.now,
      evalAll_mapAllToGroup hsound hstores hr hargs']

theorem evalAll_mapAllToGroup (hsound : sc.Sound) (hstores : sc.Stores gc rc)
    {es ms : List (BExpr κ)} (hr : BExpr.allRandFree es = true)
    (h : BExpr.mapAllToGroup sc es = .ok ms) {path : List Nat} {i : Nat} :
    BExpr.evalAll gc ms path i = BExpr.evalAll rc es path i := by
  cases es with
  | nil =>
    rw [BExpr.mapAllToGroup] at h
    rw [← Except.ok.inj h, BExpr.evalAll, BExpr.evalAll]
  | cons e es =>
    rw [BExpr.mapAllToGroup] at h
    simp only [BExpr.allRandFree, Bool.and_eq_true] at hr
    obtain ⟨e', he', hm⟩ := bind_eq_ok_iff.mp h
    obtain ⟨es', hes', rfl⟩ := map_eq_ok_iff.mp hm
    rw [BExpr.evalAll, BExpr.evalAll, eval_mapToGroup hsound hstores hr.1 he',
      evalAll_mapAllToGroup hsound hstores hr.2 hes']

end

end Rewrite

section Groups

variable {κ ρ τ : Type} {plan : QueryPlan κ ρ τ} {perAgg : List Int}

/-- The group is found under the text of its keys, which are those of a row. -/
def Group.KeyedBy (plan : QueryPlan κ ρ τ) (ctxs : List (EvalCtx κ)) (g : Group κ τ) : Prop :=
  g.id = plan.valueKey g.keys ∧ ∃ ec ∈ ctxs, evalClause ec [1] plan.groupKeys = .ok g.keys

variable {gs gs' : List (Group κ τ)} {ctxs : List (EvalCtx κ)}

theorem addToGroup_keys {id : Bytes} {inputs : List (List (Datum κ) × List (Datum κ))}
    (h : plan.addToGroup id inputs gs = .ok gs') :
    ∀ g' ∈ gs', ∃ g ∈ gs, g'.id = g.id ∧ g'.keys = g.keys := by
  induction gs generalizing gs' with
  | nil =>
    cases h
    exact nofun
  | cons g gs ih =>
    rw [QueryPlan.addToGroup] at h
    split_ifs at h
    · obtain ⟨rs, _, rfl⟩ := map_eq_ok_iff.mp h
      intro g' hg'
      rcases mem_cons.mp hg' with rfl | hmem
      · exact ⟨g, mem_cons_self, rfl, rfl⟩
      · exact ⟨g', mem_cons_of_mem g hmem, rfl, rfl⟩
    · obtain ⟨rest, hrest, rfl⟩ := map_eq_ok_iff.mp h
      intro g' hg'
      rcases mem_cons.mp hg' with rfl | hmem
      · exact ⟨g', mem_cons_self, rfl, rfl⟩
      · obtain ⟨g'', hg'', hsame⟩ := ih hrest g' hmem
        exact ⟨g'', mem_cons_of_mem g hg'', hsame⟩

/-- One row more. -/
theorem keyedBy_onSource {ec : EvalCtx κ} (hec : ec ∈ ctxs) {more : Bool}
    (hgs : ∀ g ∈ gs, g.KeyedBy plan ctxs)
    (h : plan.onSource (plan.groupRow perAgg) gs ec = .ok (gs', more)) :
    ∀ g ∈ gs', g.KeyedBy plan ctxs := by
  -- a row that is passed over leaves the groups as they are
  have hskip : ∀ st : Status, (if plan.skipErr st = true then .ok (gs, true)
      else .error (.status st)) = (.ok (gs', more) : Except Failure _) →
        ∀ g ∈ gs', g.KeyedBy plan ctxs := by
    intro st hst
    split_ifs at hst
    cases hst
    exact hgs
  unfold QueryPlan.onSource at h
  split at h
  · exact hskip _ h
  · cases h
    exact hgs
  unfold QueryPlan.groupRow QueryPlan.orSkip at h
  split at h
  · exact hskip _ h
  rename_i keys hkeys
  dsimp only at h
  split at h
  · exact hskip _ h
  rename_i inputs _
  have hall : ∀ g ∈ (if (gs.any fun g => decide (g.id = plan.valueKey keys)) = true then gs
      else gs ++ [plan.newGroup perAgg (plan.valueKey keys) keys]),
        g.KeyedBy plan ctxs := by
    split_ifs
    · exact hgs
    intro g hg
    rcases mem_append.mp hg with hold | hnew
    · exact hgs g hold
    · rw [mem_singleton.mp hnew]
      exact ⟨rfl, ec, hec, hkeys⟩
  split at h
  · cases h
  rename_i groups hadd
  cases h
  intro g' hg'
  obtain ⟨g, hg, hid, hgkeys⟩ := addToGroup_keys hadd g' hg'
  obtain ⟨hvalue, ec', hec', heval⟩ := hall g hg
  exact ⟨by rw [hid, hgkeys, hvalue], ec', hec', by rw [hgkeys, heval]⟩

/-- The groups that a run forms. -/
theorem keyedBy_of_visit {rest : List (EvalCtx κ)} (hrest : rest ⊆ ctxs) {more : Bool}
    (hgs : ∀ g ∈ gs, g.KeyedBy plan ctxs)
    (h : visit (plan.onSource (plan.groupRow perAgg)) gs rest = .ok (gs', more)) :
    ∀ g ∈ gs', g.KeyedBy plan ctxs := by
  induction rest generalizing gs with
  | nil =>
    cases h
    exact hgs
  | cons ec rest ih =>
    have hec := hrest mem_cons_self
    rw [visit_cons] at h
    match hstep : plan.onSource (plan.groupRow perAgg) gs ec with
    | .error f =>
      rw [hstep] at h
      cases h
    | .ok (gs₁, true) =>
      rw [hstep] at h
      exact ih (subset_of_cons_subset hrest) (keyedBy_onSource hec hgs hstep) h
    | .ok (gs₁, false) =>
      rw [hstep] at h
      cases h
      exact keyedBy_onSource hec hgs hstep

end Groups

section Rows

variable {ρ τ : Type}

/-- The value of a group key: of a type without floats, and written in the one way that
expressions write it. -/
def KeyTyped (d : SqlDatum) (t : NestedType) : Prop :=
  d.value.HasType t ∧ t.floatFree = true ∧ Datum.ofValue d.value = d

/-- The values of group keys. -/
def KeysTyped (ds : List SqlDatum) (ts : List NestedType) : Prop :=
  List.Forall₂ KeyTyped ds ts

variable {ds : List SqlDatum} {ts : List NestedType}

theorem KeysTyped.exists_type (h : KeysTyped ds ts) {d : SqlDatum} (hd : d ∈ ds) :
    ∃ t, KeyTyped d t := by
  induction h with
  | nil => cases hd
  | cons hhead _ ih =>
    rcases mem_cons.mp hd with rfl | hmem
    · exact ⟨_, hhead⟩
    · exact ih hmem

theorem KeysTyped.inRange (h : KeysTyped ds ts) :
    ∀ v ∈ ds.map Datum.value, v.InRange := by
  intro v hv
  obtain ⟨d, hd, rfl⟩ := mem_map.mp hv
  obtain ⟨t, htyped⟩ := h.exists_type hd
  exact htyped.1.inRange

theorem KeysTyped.canon (h : KeysTyped ds ts) :
    ((ds.map Datum.value).map NestedValue.canon).map Datum.ofValue = ds := by
  rw [map_map, map_map]
  refine map_eq_self fun d hd => ?_
  obtain ⟨t, htyped, hfree, hwritten⟩ := h.exists_type hd
  rw [Function.comp_apply, Function.comp_apply, canon_eq_self hfree htyped]
  exact hwritten

/-- **The text by which a group is found determines its keys.** -/
theorem keys_eq_of_tupleKey {ds' : List SqlDatum} (hds : KeysTyped ds ts) (hds' : KeysTyped ds' ts)
    (h : tupleKey (ds.map Datum.value) = tupleKey (ds'.map Datum.value)) :
    ds = ds' := by
  have hlen : (ds.map Datum.value).length = (ds'.map Datum.value).length := by
    rw [length_map, length_map, hds.length_eq, hds'.length_eq]
  have hcanon := (tupleKey_eq_iff hds.inRange hds'.inRange hlen).mp h
  rw [← hds.canon, ← hds'.canon, hcanon]

theorem eval_of_evalAll {κ : Type} {ec : EvalCtx κ} {path : List Nat} {es : List (BExpr κ)}
    {n : Nat} {vs : List (Datum κ)} (h : collect (BExpr.evalAll ec es path n) = .ok vs) {i : Nat}
    {e : BExpr κ} (he : es[i]? = some e) :
    e.eval ec ((n + i) :: path) = .ok (vs.getD i .null) := by
  induction es generalizing n vs i with
  | nil => cases he
  | cons e' es ih =>
    rw [BExpr.evalAll] at h
    cases hv : e'.eval ec (n :: path) with
    | error st =>
      rw [hv] at h
      cases h
    | ok v =>
      rw [hv] at h
      obtain ⟨vs', hvs', rfl⟩ := map_eq_ok_iff.mp h
      cases i with
      | zero =>
        cases he
        exact hv
      | succ i =>
        have hrest := ih hvs' he
        rw [Nat.add_right_comm] at hrest
        exact hrest

/-- The contexts in which the rows of a run are evaluated. -/
structure ExecEnv.Row (env : ExecEnv NestedValue) (ec : EvalCtx NestedValue) : Prop where
  params : ec.params = env.params
  now : ec.now = env.now

/-- **Rewriting to groups preserves meaning.**  `ec` is any row whose keys have the text of
the group. -/
theorem mapToGroup_preserves {φ : Type} [DecidableEq φ] (sc : GroupScope NestedValue φ)
    (hsound : sc.Sound) (plan : QueryPlan NestedValue ρ τ)
    (hkeys : plan.groupKeys = sc.keys ∧ ∀ k ∈ sc.keys, k.refersToGroup = false)
    (hvalueKey : plan.valueKey = fun vs => tupleKey (vs.map Datum.value))
    (env : ExecEnv NestedValue) (perAgg : List Int) (ctxs : List (EvalCtx NestedValue))
    (hrows : ∀ ec ∈ ctxs, env.Row ec) (types : List NestedType)
    (htyped : ∀ ec ∈ ctxs, ∀ ks, evalClause ec [1] plan.groupKeys = .ok ks → KeysTyped ks types)
    (gs : List (Group NestedValue τ)) (more : Bool)
    (hrun : visit (plan.onSource (plan.groupRow perAgg)) [] ctxs = .ok (gs, more))
    (g : Group NestedValue τ) (hg : g ∈ gs) (ec : EvalCtx NestedValue) (hec : ec ∈ ctxs)
    (ks : List SqlDatum) (hks : evalClause ec [1] plan.groupKeys = .ok ks)
    (hgroup : plan.valueKey ks = g.id) (e m : BExpr NestedValue) (hrand : e.randFree = true)
    (hmap : e.mapToGroup sc = .ok m) (idx : Nat) (aggs : List SqlDatum) (path : List Nat) :
    m.eval (env.groupCtx idx g.keys aggs) path = e.eval (ec.withGroup g.keys aggs) path := by
  have hnone : ∀ g ∈ ([] : List (Group NestedValue τ)), g.KeyedBy plan ctxs := nofun
  obtain ⟨hid, ec', hec', hgkeys⟩ := keyedBy_of_visit (List.Subset.refl ctxs) hnone hrun g hg
  -- the row agrees with the first row of its group on every key
  have hsame : ks = g.keys := by
    rw [hid, hvalueKey] at hgroup
    exact keys_eq_of_tupleKey (htyped ec hec ks hks) (htyped ec' hec' g.keys hgkeys) hgroup
  have hstores : sc.Stores (env.groupCtx idx g.keys aggs) (ec.withGroup g.keys aggs) := by
    refine ⟨(hrows ec hec).params.symm, (hrows ec hec).now.symm, rfl, rfl, ?_⟩
    intro i k hk
    refine ⟨[i, 1], ?_⟩
    rw [hkeys.1] at hks
    have hkey := eval_of_evalAll hks hk
    rw [Nat.zero_add, hsame] at hkey
    rw [eval_withGroup k (hkeys.2 k (mem_of_getElem? hk))]
    exact hkey
  exact eval_mapToGroup hsound hstores hrand hmap

/-- Fingerprints of columns; everything else is told apart from them only. -/
def columnFingerprint : BExpr NestedValue → Option Nat
  | .column _ idx => some idx
  | _ => none

/-- The length of a text; the call fails on other values. -/
def lengthCall (_now : Int) : List (Except Status SqlDatum) → Except Status SqlDatum
  | [.ok (.scalar (.bytes b))] => .ok (.scalar (.int64 b.length))
  | _ => .error (evalErrorf "no value" [])

/-- The scope of `SELECT … FROM t GROUP BY v`. -/
def byValue : GroupScope NestedValue (Option Nat) where
  fingerprint := columnFingerprint
  keys := [.column "v" 1]
  cols := some ["_key", "v"]
  clause := "SELECT list"

/-- `SELECT … FROM t GROUP BY v` without aggregates. -/
def groupByValue : QueryPlan NestedValue Unit Unit where
  temporal := fun _ => .ok (fun _ => true)
  column := fun _ _ _ => .ok .null
  whereExpr := none
  aggregated := true
  groupKeys := [.column "v" 1]
  aggs := []
  having := none
  outExprs := []
  order := []
  orderNoop := false
  compareOrder := fun _ _ => .eq
  distinct := false
  limit := none
  offset := none
  mv := none
  valueKey := fun vs => tupleKey (vs.map Datum.value)

/-- A row with the value in every column. -/
def bytesRow (b : Bytes) : EvalCtx NestedValue :=
  ⟨some (fun _ => .ok (.scalar (.bytes b))), [], [], [], 0, fun _ => 0⟩

theorem mapToGroup_preserves_length :
    (BExpr.call .other lengthCall [.groupRef 0]).eval
        (ExecEnv.groupCtx ⟨[], 0, false, fun _ _ => 0⟩ 1 [.scalar (.bytes [2, 3])] []) [4] =
      (BExpr.call .other lengthCall [.column "v" 1]).eval
        ((bytesRow [2, 3]).withGroup [.scalar (.bytes [2, 3])] []) [4] := by
  have hsound : byValue.Sound := by
    intro k hk e _ hfp ec path path'
    rw [mem_singleton.mp hk] at hfp ⊢
    unfold byValue columnFingerprint at hfp
    dsimp only at hfp
    split at hfp
    · cases hfp
      rfl
    · cases hfp
  refine mapToGroup_preserves byValue hsound groupByValue ⟨rfl, ?_⟩ rfl
    ⟨[], 0, false, fun _ _ => 0⟩ [] [bytesRow [1], bytesRow [2, 3], bytesRow [2, 3]] ?_
    [.scalar .bytes] ?_
    [⟨tupleKey [.scalar (.bytes [1])], [.scalar (.bytes [1])], []⟩,
      ⟨tupleKey [.scalar (.bytes [2, 3])], [.scalar (.bytes [2, 3])], []⟩]
    true rfl ⟨tupleKey [.scalar (.bytes [2, 3])], [.scalar (.bytes [2, 3])], []⟩ (by simp)
    (bytesRow [2, 3]) (by simp) [.scalar (.bytes [2, 3])] rfl rfl _ _ rfl rfl 1 [] [4]
  · simp [byValue, BExpr.refersToGroup]
  · simp only [forall_mem_cons, not_mem_nil, false_implies, implies_true, and_true]
    exact ⟨⟨rfl, rfl⟩, ⟨rfl, rfl⟩, rfl, rfl⟩
  · simp only [forall_mem_cons, not_mem_nil, false_implies, implies_true, and_true]
    refine ⟨?_, ?_, ?_⟩ <;>
    · rintro ks ⟨⟩
      exact .cons ⟨.bytes (by decide), rfl, rfl⟩ .nil

end Rows

end Gsql
end LittleBigtable
