import LittleBigtable.Bttest.DataRead
import LittleBigtable.Lib.Cursor
import LittleBigtable.Lib.TextCodec

/-!
# Reading a change stream

The change log of a table with its record ids, continuation tokens, and
`ReadChangeStream`: the choice of the start position and the loop that polls the
log in batches.

A time is a number of nanoseconds since the Unix epoch.  What a call reads from
its surroundings is an argument: clock readings, the log as each query sees it,
query failures, and how each wait ends.  A call is run on a list of polls and
answers the messages sent so far, together with the state in which the loop stands
or the result with which the call returned.  A failing `Send` ends a call early;
the client has then received an initial part of these messages.
-/

namespace LittleBigtable
namespace Bttest

section Log

/-- A change record with its id, as the log stores it. -/
structure LoggedRecord extends ChangeRecord where
  id : Int
deriving DecidableEq

/-- The change log of one table in the order of its ids, which the database hands
out from 1 on and never twice. -/
structure SqlChangeLog where
  records : List LoggedRecord
  increasing : records.Pairwise (fun a b => a.id < b.id)
  inRange : ∀ r ∈ records, 0 < r.id ∧ r.id < 2 ^ 63

/-- `WHERE id > ? ORDER BY id ASC LIMIT ?`. -/
def SqlChangeLog.listAfter (log : SqlChangeLog) (afterID : Int) (limit : Nat) : List LoggedRecord :=
  (Cursor.after LoggedRecord.id afterID log.records).take limit

/-- `COALESCE(MAX(id), 0)`. -/
def coalesceMaxID (records : List LoggedRecord) : Int :=
  (records.map LoggedRecord.id).max?.getD 0

/-- The largest id of a record committed before `commitMicros`, so that a stream
starting at `commitMicros` resumes right after it. -/
def SqlChangeLog.lastIDBefore (log : SqlChangeLog) (commitMicros : Int) : Int :=
  coalesceMaxID (log.records.filter (fun r => decide (r.commitMicros < commitMicros)))

def SqlChangeLog.maxID (log : SqlChangeLog) : Int :=
  coalesceMaxID log.records

end Log

section Tokens

/-- The bytes of `cs1:`. -/
def tokenVersion : Bytes :=
  [99, 115, 49, 58]

/-- The continuation token: the id of the last record delivered. -/
def encodeChangeStreamToken (id : Int) : Bytes :=
  Base64.encode (tokenVersion ++ Decimal.format id)

def invalidContinuationToken (token : Bytes) : Status :=
  errorf .invalidArgument "invalid continuation token %q" [.bytes token]

def decodeChangeStreamToken (token : Bytes) : Except Status Int :=
  match Base64.decode token with
  | none => .error (invalidContinuationToken token)
  | some raw =>
    if tokenVersion.isPrefixOf raw then
      match Decimal.parse (raw.drop tokenVersion.length) with
      | none => .error (invalidContinuationToken token)
      | some id => if id < 0 then .error (invalidContinuationToken token) else .ok id
    else
      .error (invalidContinuationToken token)

theorem decode_encodeChangeStreamToken {id : Int} (h0 : 0 ≤ id) (h1 : id < 2 ^ 63) :
    decodeChangeStreamToken (encodeChangeStreamToken id) = .ok id := by
  unfold decodeChangeStreamToken encodeChangeStreamToken
  rw [Base64.decode_encode]
  have hversion : tokenVersion.isPrefixOf (tokenVersion ++ Decimal.format id) =
      true := by
    rw [List.isPrefixOf_iff_prefix]
    exact List.prefix_append _ _
  simp only [hversion, if_true, List.drop_left, Decimal.parse_format h0 h1]
  rw [if_neg (by omega)]

end Tokens

section Messages

/-- A `StreamPartition`. -/
structure StreamPartition where
  rowRange : Option RowRange
deriving DecidableEq

def fullStreamPartition : StreamPartition :=
  ⟨some ⟨.unset, .unset⟩⟩

def partitionRange (p : StreamPartition) : KeyRange :=
  match p.rowRange with
  | none => ⟨[], []⟩
  | some rr => rowRangeToKeyRange rr

structure StreamContinuationToken where
  partition : Option StreamPartition
  token : Bytes
deriving DecidableEq

/-- A data change; `chunks` holds the mutation of each chunk. -/
structure DataChange where
  type : ChangeType
  sourceClusterId : Bytes
  rowKey : Bytes
  commitTimestamp : Int
  chunks : List Mutation
  done : Bool
  token : Bytes
  estimatedLowWatermark : Int
deriving DecidableEq

/-- One response of the stream. -/
inductive StreamRecord
  | dataChange (change : DataChange)
  | heartbeat (continuationToken : StreamContinuationToken) (estimatedLowWatermark : Int)
  | closeStream
deriving DecidableEq

/-- `time.UnixMicro`. -/
def unixMicro (micros : Int) : Int :=
  micros * 1000

def changeRecordResponse (rec : LoggedRecord) (clusterID : Bytes)
    (watermark : Int) : StreamRecord :=
  .dataChange
    { type := rec.changeType
      sourceClusterId := if rec.changeType = .user then clusterID else []
      rowKey := rec.rowKey
      commitTimestamp := unixMicro rec.commitMicros
      chunks := rec.mutations
      done := true
      token := encodeChangeStreamToken rec.id
      estimatedLowWatermark := watermark }

def heartbeatResponse (partition : StreamPartition) (afterID : Int)
    (watermark : Int) : StreamRecord :=
  .heartbeat ⟨some partition, encodeChangeStreamToken afterID⟩ watermark

structure ReadChangeStreamRequest where
  tableName : Bytes
  partition : Option StreamPartition
  startTime : Option Int
  continuationTokens : List StreamContinuationToken
  endTime : Option Int
  heartbeatDuration : Option Int

end Messages

section Start

/-- The fields of an app profile that change streams read. -/
structure AppProfile where
  name : Bytes
  singleClusterRouting : Bool

/-- What a call reads before its loop: the table found under the requested name,
the app profile, the retention period, the clock, the log as the start query sees
it or the failure of that query, the cluster of the instance, and the clock again
right before the loop. -/
structure StreamEnv where
  table : Option Table
  profile : Except Status (Option AppProfile)
  retention : Int
  now : Int
  log : SqlChangeLog
  logError : Option Bytes
  clusterID : Bytes
  loopStart : Int

/-- The table of a request, with streaming enabled and single-cluster routing. -/
def changeStreamTable (env : StreamEnv) (tableName : Bytes) : Except Status Table :=
  match env.table with
  | none => .error (errorf .notFound "table %q not found" [.bytes tableName])
  | some tbl =>
    match env.profile with
    | .error st => .error st
    | .ok profile =>
      match profile.filter (fun p => !p.singleClusterRouting) with
      | some p =>
        .error (errorf .failedPrecondition
          ("change streams require an app profile with single-cluster" ++
            " routing; %q is not single-cluster") [.bytes p.name])
      | none =>
        if tbl.changeStreamEnabled then
          .ok tbl
        else
          .error (errorf .failedPrecondition
            "change stream is not enabled for table %q" [.bytes tableName])

/-- The loop over the tokens: the smallest id, and the partition of the last
token.  `seen` is what the tokens before gave. -/
def startTokens :
    Option (Int × Option StreamPartition) →
    List StreamContinuationToken →
    Except Status (Option (Int × Option StreamPartition))
  | seen, [] => .ok seen
  | seen, token :: tokens =>
    match decodeChangeStreamToken token.token with
    | .error st => .error st
    | .ok id =>
      -- resume after the earliest token so that no change is skipped
      let afterID :=
        match seen with
        | none => id
        | some (afterID, _) => if id < afterID then id else afterID
      startTokens (some (afterID, token.partition)) tokens

/-- Ask the log, unless the query fails. -/
def queryLog (env : StreamEnv) (query : SqlChangeLog → Int) : Except Status Int :=
  match env.logError with
  | some err => .error (errorf .internal "read change stream: %v" [.bytes err])
  | none => .ok (query env.log)

/-- Validate the requested position; answer the partition and the id after which
delivery starts. -/
def changeStreamStart (env : StreamEnv)
    (req : ReadChangeStreamRequest) : Except Status (StreamPartition × Int) :=
  match startTokens none req.continuationTokens with
  | .error st => .error st
  | .ok (some (afterID, tokenPartition)) =>
    match req.partition, tokenPartition with
    | none, none => .ok (fullStreamPartition, afterID)
    | none, some p => .ok (p, afterID)
    | some p, none => .ok (p, afterID)
    | some p, some q =>
      if p.rowRange = q.rowRange then
        .ok (p, afterID)
      else
        .error (errorf .invalidArgument
          "continuation tokens must exactly match the requested partition" [])
  | .ok none =>
    let partition := req.partition.getD fullStreamPartition
    match req.startTime with
    | none => (queryLog env SqlChangeLog.maxID).map (fun id => (partition, id))
    | some startTime =>
      if env.now < startTime then
        .error (errorf .invalidArgument "start_time must not be in the future" [])
      else if startTime < env.now - env.retention then
        .error (errorf .invalidArgument
          "start_time must be within the change stream retention period of %v"
          [.int env.retention])
      else
        (queryLog env (fun log => log.lastIDBefore (toUnixMicro startTime))).map
          (fun id => (partition, id))

end Start

section Loop

def defaultHeartbeat : Int :=
  5 * 1000000000

def changeStreamBatchSize : Nat :=
  500

/-- The zero `time.Time`: the first instant of the year 1. -/
def zeroTime : Int :=
  -62135596800 * 1000000000

/-- `Truncate(time.Microsecond)`. -/
def truncateMicrosecond (time : Int) : Int :=
  time / 1000 * 1000

/-- `!endTime.IsZero() && time.After(endTime)`. -/
def afterEnd (endTime : Int) (time : Int) : Bool :=
  decide (endTime ≠ zeroTime) && decide (endTime < time)

/-- What stays fixed while a call polls. -/
structure Stream where
  partition : StreamPartition
  rng : KeyRange
  heartbeat : Int
  endTime : Int
  clusterID : Bytes
  batchSize : Nat

/-- The loop variables. -/
structure StreamState where
  nextAfterID : Int
  lastHeartbeat : Int

/-- How the wait between two polls ends. -/
inductive Wake
  | ctxDone (err : Status)
  | shuttingDown
  | pollInterval

/-- What one turn of the loop reads: the clock before the listing, the log as the
listing sees it or its failure, the clock when the heartbeat is due and after it
is sent, and the end of the wait. -/
structure Poll where
  watermark : Int
  log : SqlChangeLog
  listError : Option Bytes
  heartbeatCheck : Int
  heartbeatSent : Int
  wake : Wake

inductive StreamOutcome
  | running (state : StreamState)
  | returned (err : Option Status)

/-- The loop over one batch: the messages, the id of the last record looked at,
and whether the stream was closed. -/
def deliverBatch (s : Stream) (watermark : Int) :
    Int → List LoggedRecord → List StreamRecord × Int × Bool
  | nextAfterID, [] => ([], nextAfterID, false)
  | nextAfterID, rec :: records =>
    if afterEnd s.endTime (unixMicro rec.commitMicros) then
      ([.closeStream], nextAfterID, true)
    else
      let rest := deliverBatch s watermark rec.id records
      if s.rng.contains rec.rowKey then
        (changeRecordResponse rec s.clusterID watermark :: rest.1, rest.2)
      else
        rest

/-- The end of a turn that listed the whole log: close the stream, send a
heartbeat if one is due, and wait. -/
def waitForPoll (s : Stream) (state : StreamState) (p : Poll) : List StreamRecord × StreamOutcome :=
  if afterEnd s.endTime (truncateMicrosecond p.watermark) then
    ([.closeStream], .returned none)
  else
    let due := decide (s.heartbeat ≤ p.heartbeatCheck - state.lastHeartbeat)
    let messages :=
      if due then
        [heartbeatResponse s.partition state.nextAfterID p.watermark]
      else
        []
    let lastHeartbeat := if due then p.heartbeatSent else state.lastHeartbeat
    match p.wake with
    | .ctxDone err => (messages, .returned (some err))
    | .shuttingDown =>
      (messages, .returned (some (errorf .unavailable "server is shutting down" [])))
    | .pollInterval => (messages, .running ⟨state.nextAfterID, lastHeartbeat⟩)

/-- One turn of the loop. -/
def pollOnce (s : Stream) (state : StreamState) (p : Poll) : List StreamRecord × StreamOutcome :=
  match p.listError with
  | some err => ([], .returned (some (errorf .internal "read change stream: %v" [.bytes err])))
  | none =>
    let records := p.log.listAfter state.nextAfterID s.batchSize
    let batch := deliverBatch s p.watermark state.nextAfterID records
    if batch.2.2 then
      (batch.1, .returned none)
    else if records.length = s.batchSize then
      (batch.1, .running ⟨batch.2.1, state.lastHeartbeat⟩)
    else
      let wait := waitForPoll s ⟨batch.2.1, state.lastHeartbeat⟩ p
      (batch.1 ++ wait.1, wait.2)

def pollLoop (s : Stream) :
    StreamState → List Poll → List StreamRecord × StreamOutcome
  | state, [] => ([], .running state)
  | state, p :: polls =>
    let turn := pollOnce s state p
    match turn.2 with
    | .returned err => (turn.1, .returned err)
    | .running state' =>
      let rest := pollLoop s state' polls
      (turn.1 ++ rest.1, rest.2)

/-- The heartbeat interval of a request. -/
def ReadChangeStreamRequest.heartbeat (req : ReadChangeStreamRequest) : Except Status Int :=
  match req.heartbeatDuration with
  | none => .ok defaultHeartbeat
  | some d =>
    if d ≤ 0 then
      .error (errorf .invalidArgument "heartbeat_duration must be positive" [])
    else
      .ok d

/-- The end time of a request, the zero time if it has none. -/
def ReadChangeStreamRequest.lastTime (req : ReadChangeStreamRequest) : Int :=
  match req.endTime with
  | none => zeroTime
  | some endTime => truncateMicrosecond endTime

/-- The part of `ReadChangeStream` before its loop. -/
def openStream (batchSize : Nat) (env : StreamEnv)
    (req : ReadChangeStreamRequest) : Except Status (Stream × StreamState) :=
  match changeStreamTable env req.tableName with
  | .error st => .error st
  | .ok _ =>
    match changeStreamStart env req with
    | .error st => .error st
    | .ok (partition, nextAfterID) =>
      match req.heartbeat with
      | .error st => .error st
      | .ok heartbeat =>
        .ok (⟨partition, partitionRange partition, heartbeat, req.lastTime,
          env.clusterID, batchSize⟩, ⟨nextAfterID, env.loopStart⟩)

/-- `ReadChangeStream`, run for a number of polls. -/
def readChangeStream (batchSize : Nat) (env : StreamEnv) (req : ReadChangeStreamRequest)
    (polls : List Poll) : List StreamRecord × StreamOutcome :=
  match openStream batchSize env req with
  | .error st => ([], .returned (some st))
  | .ok (s, state) => pollLoop s state polls

end Loop

end Bttest
end LittleBigtable
