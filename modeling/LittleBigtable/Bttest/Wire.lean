import Std.Data.ExtTreeMap
import Std.Data.ExtTreeSet
import Mathlib.Algebra.Order.Ring.Int
import Mathlib.Data.Rat.Defs

/-!
# Wire messages of the emulator

The request messages of the Data API and of the table admin API, as the
handlers read them: gRPC statuses, typed values, mutations, read-modify-write
rules, GC rules, row ranges and row filters.

Go strings and byte slices are byte lists; their `<` is the lexicographic
order in which Go and the SQL store compare them.  An `int64` is an `Int`;
where the code can overflow, the arithmetic goes through `wrap64`.  A message
field the handlers never look at is left out.
-/

namespace LittleBigtable
namespace Bttest

/-- A Go `string` or `[]byte`. -/
abbrev Bytes := List UInt8

instance : LawfulBEq Bytes := inferInstance

/-- A Go map keyed by strings. -/
abbrev GoMap (β : Type) := Std.ExtTreeMap Bytes β

/-- The `int64` with the same 64 low bits. -/
def wrap64 (x : Int) : Int :=
  (x + 2 ^ 63) % 2 ^ 64 - 2 ^ 63

/-- gRPC status codes the handlers answer with. -/
inductive Code
  | ok
  | canceled
  | invalidArgument
  | deadlineExceeded
  | notFound
  | alreadyExists
  | permissionDenied
  | failedPrecondition
  | resourceExhausted
  | aborted
  | outOfRange
  | unimplemented
  | internal
  | unavailable
deriving DecidableEq

/-- An argument of a `status.Errorf` format. -/
inductive FmtArg
  | bytes (b : Bytes)
  | int (n : Int)
  | text (s : String)
deriving DecidableEq

/-- A gRPC error: its code, and its message as a format with arguments. -/
structure Status where
  code : Code
  format : String
  args : List FmtArg
deriving DecidableEq

/-- `status.Errorf`. -/
def errorf (code : Code) (format : String) (args : List FmtArg) : Status :=
  ⟨code, format, args⟩

/-- `status.Errorf(st.Code(), "<format><%s>", args..., st.Message())`: the
message of `st` behind a prefix. -/
def Status.behind (st : Status) (format : String) (args : List FmtArg) : Status :=
  ⟨st.code, format ++ st.format, args ++ st.args⟩

/-- The kinds of a typed `Value` that mutations read; every other kind is
`other`. -/
inductive Value
  | unset
  | rawValue (raw : Bytes)
  | rawTimestampMicros (micros : Int)
  | bytesValue (bytes : Bytes)
  | stringValue (string : Bytes)
  | intValue (int : Int)
  | timestampValue (seconds nanos : Int)
  | other
deriving DecidableEq

/-- `TimestampRange`; an end of 0 is unbounded. -/
structure TimestampRange where
  startTimestampMicros : Int
  endTimestampMicros : Int
deriving DecidableEq

/-- `Mutation.TimestampOrigin`. -/
inductive TimestampOrigin
  | unspecified
  | userSpecified
  | clientAutoGenerated
deriving DecidableEq

/-- The oneof of a `Mutation`. -/
inductive MutationKind
  | setCell (familyName columnQualifier : Bytes) (timestampMicros : Int) (value : Bytes)
  | deleteFromColumn (familyName columnQualifier : Bytes) (timeRange : Option TimestampRange)
  | deleteFromFamily (familyName : Bytes)
  | deleteFromRow
  | addToCell (familyName : Bytes) (columnQualifier timestamp input : Value)
  | mergeToCell (familyName : Bytes) (columnQualifier timestamp input : Value)
deriving DecidableEq

/-- A `Mutation`; `mutation` is `none` when the oneof is not set. -/
structure Mutation where
  mutation : Option MutationKind
  timestampOrigin : TimestampOrigin
deriving DecidableEq

/-- A mutation without timestamp origin, the form change streams record. -/
def Mutation.plain (m : MutationKind) : Mutation :=
  ⟨some m, .unspecified⟩

/-- The `Idempotency` message of a write; `startTime` holds seconds and
nanoseconds. -/
structure Idempotency where
  token : Bytes
  startTime : Option (Int × Int)
deriving DecidableEq

/-- `Idempotency.GetToken`, which answers the empty token on an absent
message. -/
def getToken : Option Idempotency → Bytes
  | none => []
  | some idem => idem.token

/-- The rule of a `ReadModifyWriteRule`. -/
inductive RuleKind
  | unset
  | appendValue (value : Bytes)
  | incrementAmount (amount : Int)
deriving DecidableEq

/-- A `ReadModifyWriteRule`. -/
structure ReadModifyWriteRule where
  familyName : Bytes
  columnQualifier : Bytes
  rule : RuleKind
deriving DecidableEq

/-- A `GcRule` tree; `maxAge` carries the duration in microseconds. -/
inductive GcRule
  | unset
  | maxNumVersions (n : Int)
  | maxAge (micros : Int)
  | union (rules : List GcRule)
  | intersection (rules : List GcRule)

/-- The aggregator of an aggregate value type. -/
inductive Aggregator
  | unset
  | sum
  | min
  | max
  | hllppUniqueCount
deriving DecidableEq

/-- The kind of a column family's `value_type`.  `rest` holds the fields that are
only compared for equality. -/
inductive ValueType
  | unset
  | aggregate (aggregator : Aggregator) (inputIsInt64 : Bool) (rest : Bytes)
  | other (kind : String) (rest : Bytes)
deriving DecidableEq

/-- One end of a range of keys, qualifiers or values. -/
inductive Bound
  | unset
  | closed (key : Bytes)
  | opened (key : Bytes)
deriving DecidableEq

/-- A `RowRange`. -/
structure RowRange where
  startKey : Bound
  endKey : Bound
deriving DecidableEq

/-- A `RowSet`. -/
structure RowSet where
  rowKeys : List Bytes
  rowRanges : List RowRange
deriving DecidableEq

/-- A `RowFilter`.  `nil` is an absent filter message and `unset` a message
whose oneof is not set. -/
inductive RowFilter
  | nil
  | unset
  | chain (filters : List RowFilter)
  | interleave (filters : List RowFilter)
  | condition (predicateFilter trueFilter falseFilter : RowFilter)
  | sink (flag : Bool)
  | passAllFilter (flag : Bool)
  | blockAllFilter (flag : Bool)
  | rowKeyRegexFilter (pat : Bytes)
  | rowSampleFilter (probability : ℚ)
  | familyNameRegexFilter (pat : Bytes)
  | columnQualifierRegexFilter (pat : Bytes)
  | columnRangeFilter (familyName : Bytes) (startQualifier endQualifier : Bound)
  | timestampRangeFilter (range : TimestampRange)
  | valueRegexFilter (pat : Bytes)
  | valueRangeFilter (startValue endValue : Bound)
  | valueBitmaskFilter (mask : Bytes)
  | cellsPerRowOffsetFilter (n : Int)
  | cellsPerRowLimitFilter (n : Int)
  | cellsPerColumnLimitFilter (n : Int)
  | stripValueTransformer (flag : Bool)
  | applyLabelTransformer (label : Bytes)

end Bttest
end LittleBigtable
