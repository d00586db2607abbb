import LittleBigtable.Bttest.ReadResult
import LittleBigtable.Lib.Bisection
import LittleBigtable.Lib.TextCodec

/-!
# Paging through a changing list

A page token is the last key of the page before it, so a call goes on behind this key,
whatever was inserted or deleted in between.  `paginate_page` says which items a call
returns; `paging_stable` follows the tokens through any number of calls.
-/

namespace LittleBigtable
namespace Bttest

open List

section Model

variable {α : Type} (key : α → Bytes)

/-- The index of the first item of a page.  The token is the last key of the page before
it; `none` is a token that cannot be decoded. -/
def pageStart (items : List α) (pageToken : Bytes) : Option Nat :=
  if pageToken ≠ [] then
    (Base64.decode pageToken).map (fun after =>
      Bisection.search (fun i => items[i]?.any (fun x => decide (after < key x))) 0 items.length)
  else
    some 0

/-- One page of the items in the order of their keys, and the token of the next one. -/
def paginate (items : List α) (pageSize : Int)
    (pageToken : Bytes) : Except Status (List α × Bytes) :=
  if pageSize < 0 then
    .error (errorf .invalidArgument "page_size must not be negative" [])
  else
    let items := items.insertionSort (fun a b => key a ≤ key b)
    match pageStart key items pageToken with
    | none => .error (errorf .invalidArgument "invalid page_token %q" [.bytes pageToken])
    | some start =>
      let items := items.drop start
      if pageSize = 0 ∨ pageSize ≥ items.length then
        .ok (items, [])
      else
        let page := items.take pageSize.toNat
        .ok (page, Base64.encode ((page.getLast?.map key).getD []))

/-- The items that calls return which follow the tokens until there is none.  Every call
has its own items and page size. -/
def followTokens : Bytes → List (List α × Int) → Option (List α)
  | _, [] => none
  | pageToken, (items, pageSize) :: calls =>
    match paginate key items pageSize pageToken with
    | .error _ => none
    | .ok (page, next) =>
      if next = [] then
        if calls.isEmpty then some page else none
      else
        (followTokens next calls).map (page ++ ·)

end Model

section Pages

variable {α : Type} {key : α → Bytes} {items page : List α} {pageSize : Int}
variable {pageToken next : Bytes}

/-- The key is behind the pages up to the token. -/
def Ahead (pageToken k : Bytes) : Prop :=
  pageToken ≠ [] → ∃ after, Base64.decode pageToken = some after ∧ after < k

theorem encode_ne_nil {k : Bytes} (hk : k ≠ []) :
    Base64.encode k ≠ [] := by
  intro hnil
  have hdec := Base64.decode_encode k
  rw [hnil] at hdec
  exact hk (Option.some.inj hdec).symm

theorem Ahead.trans {k k' : Bytes} (hk : Ahead pageToken k) (hlt : k < k') :
    Ahead pageToken k' := by
  intro htoken
  obtain ⟨after, hafter, hbefore⟩ := hk htoken
  exact ⟨after, hafter, hbefore.trans hlt⟩

theorem mem_drop_pageStart {start : Nat} (hsorted : items.Pairwise (fun a b => key a < key b))
    (hstart : pageStart key items pageToken = some start) (x : α) :
    x ∈ items.drop start ↔ x ∈ items ∧ Ahead pageToken (key x) := by
  unfold pageStart at hstart
  split_ifs at hstart with htoken
  · obtain ⟨after, hafter, rfl⟩ := Option.map_eq_some_iff.mp hstart
    rw [Bisection.drop_search (hsorted.imp fun hab hafter => ?_), mem_filter]
    · simp [Ahead, htoken, hafter]
    · simp only [decide_eq_true_eq] at hafter ⊢
      exact hafter.trans hab
  · cases hstart
    simp [Ahead, htoken]

/-- A page has the items behind its token, up to the last one that the next token names. -/
theorem paginate_page (hitems : (items.map key).Nodup) (hkeys : [] ∉ items.map key)
    (hsize : 0 < pageSize) (h : paginate key items pageSize pageToken = .ok (page, next)) :
    page.Pairwise (fun a b => key a < key b) ∧
      (∀ x ∈ page, Ahead pageToken (key x)) ∧
      (next = [] ∧ (∀ x ∈ items, Ahead pageToken (key x) → x ∈ page) ∨
        ∃ y ∈ page, next ≠ [] ∧ Base64.decode next = some (key y) ∧
          (∀ x ∈ page, key x ≤ key y) ∧
          ∀ x ∈ items, Ahead pageToken (key x) → x ∈ page ∨ key y < key x) := by
  have hperm := perm_insertionSort (fun a b => key a ≤ key b) items
  have hsorted := sort_pairwise_lt key (pairwise_map.mp hitems)
  unfold paginate at h
  rw [if_neg (by omega)] at h
  simp only at h
  split at h
  · cases h
  rename_i start hstart
  have hmem := mem_drop_pageStart hsorted hstart
  have hrest := hsorted.drop (i := start)
  simp only [hperm.mem_iff] at hmem
  generalize (items.insertionSort (fun a b => key a ≤ key b)).drop start = rest at h hrest hmem
  split_ifs at h with hlast
  · cases h
    exact ⟨hrest, fun x hx => ((hmem x).mp hx).2,
      .inl ⟨rfl, fun x hx hahead => (hmem x).mpr ⟨hx, hahead⟩⟩⟩
  -- the page ends with its last item, and the rest is behind it
  obtain ⟨n, hn⟩ : ∃ n, pageSize.toNat = n + 1 := ⟨pageSize.toNat - 1, by omega⟩
  have hlen : n < rest.length := by omega
  rw [hn, take_add_one, getElem?_eq_getElem hlen, Option.toList_some,
    getLast?_concat, Option.map_some, Option.getD_some] at h
  cases h
  have hcut : rest.take n ++ [rest[n]] ++ rest.drop (n + 1) = rest := by simp
  generalize rest[n] = y at hcut
  generalize rest.take n = init, rest.drop (n + 1) = behind at hcut
  subst hcut
  obtain ⟨hpage, -, hbehind⟩ := pairwise_append.mp hrest
  have hy : y ∈ init ++ [y] := by simp
  have hykey : key y ≠ [] := by
    intro hnil
    have hyitems := ((hmem y).mp (mem_append_left _ hy)).1
    exact hkeys (hnil ▸ mem_map_of_mem hyitems)
  refine ⟨hpage, fun x hx => ((hmem x).mp (mem_append_left _ hx)).2,
    .inr ⟨y, hy, encode_ne_nil hykey, Base64.decode_encode _, fun x hx => ?_,
      fun x hx hahead => ?_⟩⟩
  · rcases mem_append.mp hx with hinit | hlast
    · exact ((pairwise_append.mp hpage).2.2 x hinit y (by simp)).le
    · rw [mem_singleton.mp hlast]
  · rcases mem_append.mp ((hmem x).mpr ⟨hx, hahead⟩) with hpage | hrest
    · exact .inl hpage
    · exact .inr (hbehind y hy x hrest)

end Pages

section Runs

variable {α : Type} {key : α → Bytes} {pageToken : Bytes} {calls : List (List α × Int)}
variable {returned : List α}

/-- From any token on, the calls return the items behind it that are there at all calls. -/
theorem followTokens_returned
    (hitems : ∀ call ∈ calls, (call.1.map key).Nodup ∧ [] ∉ call.1.map key)
    (hsizes : ∀ call ∈ calls, 0 < call.2)
    (hrun : followTokens key pageToken calls = some returned) :
    returned.Pairwise (fun a b => key a < key b) ∧
      (∀ x ∈ returned, Ahead pageToken (key x)) ∧
      ∀ (P : α → Prop) (k : Bytes), Ahead pageToken k →
        (∀ call ∈ calls, ∃ x ∈ call.1, P x ∧ key x = k) → ∃ x ∈ returned, P x ∧ key x = k := by
  induction calls generalizing pageToken returned with
  | nil => cases hrun
  | cons call calls ih =>
    obtain ⟨items, pageSize⟩ := call
    obtain ⟨hcall, hcalls⟩ := forall_mem_cons.mp hitems
    obtain ⟨hsize, hsizes⟩ := forall_mem_cons.mp hsizes
    rw [followTokens] at hrun
    split at hrun
    · cases hrun
    rename_i page next hpage
    obtain ⟨hsorted, hahead, ⟨rfl, hall⟩ | ⟨y, hy, hnext, hlast, hle, hall⟩⟩ :=
      paginate_page hcall.1 hcall.2 hsize hpage
    · rw [if_pos rfl] at hrun
      split_ifs at hrun
      cases hrun
      refine ⟨hsorted, hahead, fun P k hk hpresent => ?_⟩
      obtain ⟨x, hx, hP, rfl⟩ := hpresent _ mem_cons_self
      exact ⟨x, hall x hx hk, hP, rfl⟩
    rw [if_neg hnext] at hrun
    obtain ⟨rest, hrest, rfl⟩ := Option.map_eq_some_iff.mp hrun
    obtain ⟨hrestSorted, hrestAhead, hrestAll⟩ := ih hcalls hsizes hrest
    -- the next token is the last key of the page: the later calls return what is behind it
    have hbehind : ∀ k, Ahead next k ↔ key y < k := by simp [Ahead, hnext, hlast]
    simp only [hbehind] at hrestAhead hrestAll
    refine ⟨pairwise_append.mpr ⟨hsorted, hrestSorted, fun a ha b hb =>
      (hle a ha).trans_lt (hrestAhead b hb)⟩, fun x hx => ?_, fun P k hk hpresent => ?_⟩
    · rcases mem_append.mp hx with hx | hx
      · exact hahead x hx
      · exact (hahead y hy).trans (hrestAhead x hx)
    obtain ⟨hnow, hlater⟩ := forall_mem_cons.mp hpresent
    obtain ⟨x, hx, hP, rfl⟩ := hnow
    rcases hall x hx hk with hpage | hlt
    · exact ⟨x, mem_append_left _ hpage, hP, rfl⟩
    · obtain ⟨x', hx', hP', hkey⟩ := hrestAll P (key x) hlt hlater
      exact ⟨x', mem_append_right _ hx', hP', hkey⟩

/-- Calls that follow the tokens to the end return keys in strictly increasing order, so no
item twice, and every item that is there at all calls exactly once, also when its value
changes under the same key. -/
theorem paging_stable
    (hitems : ∀ call ∈ calls, (call.1.map key).Nodup ∧ [] ∉ call.1.map key)
    (hsizes : ∀ call ∈ calls, 0 < call.2)
    (hrun : followTokens key [] calls = some returned) :
    (returned.map key).Pairwise (· < ·) ∧
      returned.Nodup ∧
      (∀ x, (∀ call ∈ calls, x ∈ call.1) → x ∈ returned) ∧
      ∀ k, (∀ call ∈ calls, k ∈ call.1.map key) → (returned.map key).count k = 1 := by
  obtain ⟨hsorted, -, hall⟩ := followTokens_returned hitems hsizes hrun
  have hstart : ∀ k, Ahead [] k := fun k h => absurd rfl h
  have hkeys : (returned.map key).Pairwise (· < ·) := pairwise_map.mpr hsorted
  have hnodup : (returned.map key).Nodup := hkeys.imp ne_of_lt
  refine ⟨hkeys, hnodup.of_map, fun x hx => ?_, fun k hk => ?_⟩
  · obtain ⟨x', hx', rfl, -⟩ := hall (x = ·) (key x) (hstart _) fun call hcall =>
      ⟨x, hx call hcall, rfl, rfl⟩
    exact hx'
  · obtain ⟨x, hx, -, rfl⟩ := hall (fun _ => True) k (hstart _) fun call hcall => by
      simpa using hk call hcall
    exact count_eq_one_of_mem hnodup (mem_map_of_mem hx)

/-- Between the calls the item of the token is deleted and another is inserted. -/
theorem paging_stable_token_deleted :
    followTokens (id : Bytes → Bytes) [] [([[3], [1], [2]], 1), ([[0], [3]], 5)] =
        some [[1], [3]] ∧
      ([[1], [3]].map (id : Bytes → Bytes)).count [3] = 1 := by
  have hrun : followTokens (id : Bytes → Bytes) [] [([[3], [1], [2]], 1), ([[0], [3]], 5)] =
      some [[1], [3]] := by
    decide +kernel
  exact ⟨hrun, (paging_stable (by decide) (by decide) hrun).2.2.2 [3] (by decide)⟩

end Runs

end Bttest
end LittleBigtable
