import LittleBigtable.Bttest.Tables
import LittleBigtable.Lib.Like

/-!
# IAM policies of deleted resources

The policies of a resource and of its children are removed when the resource is
deleted.  The children are found by a `LIKE` pattern that is built from the name of the
resource.  An underscore in the name is a wildcard of the pattern, and so is a percent
sign, which becomes an underscore; unlike the other users of such patterns,
`deletePrefix` does not check the names that the pattern finds.

Names are protobuf strings, so `LIKE` works on their characters.
-/

namespace LittleBigtable
namespace Bttest

open List

section Policies

/-- The SQL table of policies: the serialized policy by resource name. -/
abbrev IamPolicies := Std.ExtTreeMap (List Char) Bytes

/-- The tokens of the pattern of a `LIKE` operator. -/
def likeToken (c : Char) : Like.Token Char :=
  if c = '_' then .one
  else if c = '%' then .many
  else .exact c

/-- `name LIKE pattern` -/
def sqlLike (name pattern : List Char) : Bool :=
  Like.accepts (pattern.map likeToken) name

def likePrefix (s : List Char) : List Char :=
  s.map (fun c => if c = '%' then '_' else c) ++ ['%']

/-- Remove the policies of a resource and its children. -/
def IamPolicies.deletePrefix (policies : IamPolicies) (resource : List Char) : IamPolicies :=
  (policies.erase resource).filter (fun name _ =>
    !sqlLike name (likePrefix (resource ++ ['/'])))

/-- The names of the resources whose deletion calls `deletePrefix`. -/
inductive ResourceName : List Char → Prop
  | child
      (segment parent id : String)
      (hsegment : segment ∈ ["/tables/", "/backups/", "/logicalViews/", "/materializedViews/"])
      (hparent : parent ≠ "")
      (hid : tableIDPattern (utf8 id) = true) :
      ResourceName (parent ++ segment ++ id).toList
  | tableChild
      (segment parent tableId id : String)
      (hsegment : segment ∈ ["/authorizedViews/", "/schemaBundles/"])
      (hparent : parent ≠ "")
      (htableId : tableIDPattern (utf8 tableId) = true)
      (hid : tableIDPattern (utf8 id) = true) :
      ResourceName (parent ++ "/tables/" ++ tableId ++ segment ++ id).toList

end Policies

section Exactness

variable {policies : IamPolicies} {resource name : List Char}

/-- The policies of the resource and of the names below it are removed, and no
others. -/
def IamPolicies.DeletesExactly (policies : IamPolicies) (resource : List Char) : Prop :=
  ∀ name : List Char,
    (policies.deletePrefix resource)[name]? =
      if name = resource ∨ resource ++ ['/'] <+: name then none else policies[name]?

/-- A name starts like the names below the resource, up to the characters where the
resource has an underscore or a percent sign. -/
def Resembles (resource name : List Char) : Prop :=
  ∃ pre rest, name = pre ++ rest ∧
    List.Forall₂ (fun c d => c = '_' ∨ c = '%' ∨ d = c) (resource ++ ['/']) pre

theorem fits_likeToken_iff {c d : Char} :
    (likeToken (if c = '%' then '_' else c)).fits d ↔ c = '_' ∨ c = '%' ∨ d = c := by
  unfold likeToken
  by_cases hpercent : c = '%'
  · simp [hpercent, Like.Token.fits]
  · by_cases hunderscore : c = '_'
    · simp [hunderscore, Like.Token.fits]
    · simp [hpercent, hunderscore, Like.Token.fits]

theorem likeToken_ne_many (c : Char) :
    likeToken (if c = '%' then '_' else c) ≠ .many := by
  unfold likeToken
  by_cases hpercent : c = '%'
  · simp [hpercent]
  · by_cases hunderscore : c = '_'
    · simp [hunderscore]
    · simp [hpercent, hunderscore]

theorem sqlLike_likePrefix_iff :
    sqlLike name (likePrefix (resource ++ ['/'])) = true ↔ Resembles resource name := by
  have htokens : (likePrefix (resource ++ ['/'])).map likeToken =
      (resource ++ ['/']).map (fun c => likeToken (if c = '%' then '_' else c)) ++ [.many] := by
    simp [likePrefix, likeToken]
  unfold sqlLike Resembles
  rw [htokens, Like.accepts_append_many]
  · simp only [forall₂_map_left_iff, fits_likeToken_iff]
  · intro t ht
    obtain ⟨c, _, rfl⟩ := mem_map.mp ht
    exact likeToken_ne_many c

theorem resembles_of_isPrefix (h : resource ++ ['/'] <+: name) :
    Resembles resource name := by
  obtain ⟨rest, rfl⟩ := h
  exact ⟨resource ++ ['/'], rest, rfl, forall₂_same.mpr fun _ _ => .inr (.inr rfl)⟩

theorem not_resembles_self (resource : List Char) :
    ¬ Resembles resource resource := by
  rintro ⟨pre, rest, hname, hpre⟩
  have hlen := hpre.length_eq
  have htotal := congrArg List.length hname
  simp only [length_append, length_cons, length_nil] at hlen htotal
  omega

/-- The policies that remain. -/
theorem deletePrefix_getElem? (policies : IamPolicies) (resource name : List Char) :
    (policies.deletePrefix resource)[name]? =
      if name = resource ∨ sqlLike name (likePrefix (resource ++ ['/'])) = true then none
      else policies[name]? := by
  unfold IamPolicies.deletePrefix
  rw [Std.ExtTreeMap.getElem?_filter', FiniteMap.getElem?_erase_eq]
  by_cases hself : name = resource
  · simp [hself]
  have hself' : resource ≠ name := fun heq => hself heq.symm
  rw [if_neg hself']
  cases policies[name]? with
  | none => simp
  | some policy =>
    by_cases hlike : sqlLike name (likePrefix (resource ++ ['/'])) = true
    · simp [hself, hlike, Option.filter]
    · simp [hself, hlike, Option.filter]

end Exactness

section Underscore

/-- The policy of an authorized view of the table `aXb`. -/
def viewPolicies : IamPolicies :=
  (∅ : IamPolicies).insert "i/tables/aXb/authorizedViews/v".toList [1]

end Underscore

end Bttest
end LittleBigtable
