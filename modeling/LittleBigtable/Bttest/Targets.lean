import LittleBigtable.Bttest.Row

/-!
# Authorized views

The compiled subset of an authorized view, the restriction of a row to it, and
the checks that mutations and read-modify-write rules stay inside it.
-/

namespace LittleBigtable
namespace Bttest

/-- The qualifiers of one family that a view contains. -/
structure FamilySubset where
  qualifiers : List Bytes
  prefixes : List Bytes
deriving DecidableEq

/-- A compiled `AuthorizedView.SubsetView`. -/
structure ViewPolicy where
  name : Bytes
  rowPrefixes : List Bytes
  families : GoMap FamilySubset

def ViewPolicy.rowAllowed (p : ViewPolicy) (key : Bytes) : Bool :=
  p.rowPrefixes.any (fun pre => pre.isPrefixOf key)

def ViewPolicy.cellAllowed (p : ViewPolicy) (fam col : Bytes) : Bool :=
  match p.families[fam]? with
  | none => false
  | some sub => decide (col ∈ sub.qualifiers) || sub.prefixes.any (fun pre => pre.isPrefixOf col)

/-- Every qualifier of the family is in the view, which `DeleteFromFamily`
requires. -/
def ViewPolicy.familyFullyAllowed (p : ViewPolicy) (fam : Bytes) : Bool :=
  match p.families[fam]? with
  | none => false
  | some sub => sub.prefixes.any (fun pre => decide (pre = []))

/-- Remove every cell outside the view.  Rows outside the row prefixes of the
view become empty. -/
def ViewPolicy.restrict (p : ViewPolicy) (r : Row) : Row :=
  if p.rowAllowed r.key then
    Row.normalize
      { r with
        families := r.families.map (fun name fam =>
          { fam with
            colNames := []
            cells := fam.cells.filter (fun col cs =>
              p.cellAllowed name col && decide (cs ≠ [])) }) }
  else
    newRow r.key

/-- `viewDenied(view, what)`, with the format of `what` and its arguments. -/
def viewDenied (view : Bytes) (what : String) (args : List FmtArg) : Status :=
  errorf .permissionDenied
    ("request references " ++ what ++ " outside authorized view %q")
    (args ++ [.bytes view])

/-- The error of a column outside the view. -/
def ViewPolicy.columnError (p : ViewPolicy) (fam col : Bytes) : Option Status :=
  if p.cellAllowed fam col then
    none
  else
    some (viewDenied p.name "column %s:%s" [.bytes fam, .bytes col])

/-- The qualifier that a typed value names. -/
def valueQualifier : Value → Option Bytes
  | .rawValue b => some b
  | .bytesValue b => some b
  | .stringValue s => some s
  | _ => none

/-- The error of one mutation that touches data outside the view. -/
def ViewPolicy.checkMutation (p : ViewPolicy) (m : Mutation) : Option Status :=
  match m.mutation with
  | some (.setCell fam col _ _) => p.columnError fam col
  | some (.deleteFromColumn fam col _) => p.columnError fam col
  | some (.addToCell fam qualifier _ _) => p.columnError fam ((valueQualifier qualifier).getD [])
  | some (.mergeToCell fam qualifier _ _) => p.columnError fam ((valueQualifier qualifier).getD [])
  | some (.deleteFromFamily fam) =>
    if p.familyFullyAllowed fam then
      none
    else
      some (viewDenied p.name
        "family %s (DeleteFromFamily needs qualifier_prefixes \"\")"
        [.bytes fam])
  | some .deleteFromRow =>
    some (errorf .permissionDenied
      "DeleteFromRow is not supported through authorized view %q"
      [.bytes p.name])
  | none => none

/-- Reject any mutation that touches data outside the view. -/
def ViewPolicy.checkMutations (p : ViewPolicy) (key : Bytes)
    (muts : List Mutation) : Option Status :=
  if p.rowAllowed key then
    muts.findSome? p.checkMutation
  else
    some (viewDenied p.name "row \"%s\"" [.bytes key])

def ViewPolicy.checkRules (p : ViewPolicy) (key : Bytes)
    (rules : List ReadModifyWriteRule) : Option Status :=
  if p.rowAllowed key then
    rules.findSome? (fun rule =>
      p.columnError rule.familyName rule.columnQualifier)
  else
    some (viewDenied p.name "row \"%s\"" [.bytes key])

end Bttest
end LittleBigtable
