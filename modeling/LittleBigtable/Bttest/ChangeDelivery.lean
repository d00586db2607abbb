import LittleBigtable.Bttest.ChangeStream
import LittleBigtable.Bttest.ReadResult

/-!
# Delivery of a change stream

What a call of `ReadChangeStream` delivers, for every log that is written while
the call polls it.  Each message moves the client's position in the log: `LeadsTo`
follows these positions through the batches and polls of a call.  From it come

* what a call delivers (`readChangeStream_delivers`): exactly the records asked
  for, each once and in the order of the log, and every record at the latest after
  as many polls as there are batches in the log;
* that a call resumed from any token continues where the client stood.
-/

namespace LittleBigtable
namespace Bttest

open List

section Received

/-- The token of a message. -/
def StreamRecord.token : StreamRecord → Option Bytes
  | .dataChange change => some change.token
  | .heartbeat continuationToken _ => some continuationToken.token
  | .closeStream => none

/-- The record a data change delivers. -/
def StreamRecord.record : StreamRecord → Option LoggedRecord
  | .dataChange change =>
    match decodeChangeStreamToken change.token with
    | .error _ => none
    | .ok id =>
      some ⟨⟨change.rowKey, change.type, toUnixMicro change.commitTimestamp, change.chunks⟩, id⟩
  | .heartbeat _ _ => none
  | .closeStream => none

/-- The records delivered by a list of messages. -/
def received (messages : List StreamRecord) : List LoggedRecord :=
  messages.filterMap StreamRecord.record

/-- The last token of a list of messages. -/
def lastToken (messages : List StreamRecord) : Option Bytes :=
  (messages.filterMap StreamRecord.token).getLast?

theorem record_changeRecordResponse {rec : LoggedRecord} (h0 : 0 < rec.id) (h1 : rec.id < 2 ^ 63)
    (clusterID : Bytes) (watermark : Int) :
    (changeRecordResponse rec clusterID watermark).record = some rec := by
  have htime : toUnixMicro (unixMicro rec.commitMicros) = rec.commitMicros := by
    unfold toUnixMicro unixMicro
    omega
  simp only [StreamRecord.record, changeRecordResponse,
    decode_encodeChangeStreamToken h0.le h1, htime]

@[simp] theorem received_append (a b : List StreamRecord) :
    received (a ++ b) = received a ++ received b := by
  simp [received]

theorem lastToken_cons (m : StreamRecord) (messages : List StreamRecord) :
    lastToken (m :: messages) = (lastToken messages).or m.token := by
  unfold lastToken
  cases htoken : m.token with
  | none => simp [filterMap_cons_none htoken]
  | some t =>
    rw [filterMap_cons_some htoken, getLast?_cons]
    cases (messages.filterMap StreamRecord.token).getLast? <;> rfl

theorem received_eq_nil_of_lastToken {messages : List StreamRecord}
    (h : lastToken messages = none) :
    received messages = [] := by
  unfold lastToken at h
  rw [getLast?_eq_none_iff, filterMap_eq_nil_iff] at h
  unfold received
  rw [filterMap_eq_nil_iff]
  intro m hm
  have htoken := h m hm
  cases m with
  | dataChange change => cases htoken
  | heartbeat | closeStream => rfl

end Received

section Positions

/-- A position a token can hold. -/
def ValidPosition (n : Int) : Prop :=
  0 ≤ n ∧ n < 2 ^ 63

/-- Receiving the messages leads from one position to another, where `w n` are
the records still to deliver at position `n`. -/
inductive LeadsTo (w : Int → List LoggedRecord) :
    Int → List StreamRecord → Int → Prop
  | refl (a : Int) : LeadsTo w a [] a
  | skip
      {a b c : Int} {messages : List StreamRecord}
      (hle : a ≤ b)
      (hpos : ValidPosition b)
      (hw : w a = w b)
      (hrest : LeadsTo w b messages c) :
      LeadsTo w a messages c
  | change
      {a c : Int} {rec : LoggedRecord} {clusterID : Bytes} {watermark : Int}
      {messages : List StreamRecord}
      (hlt : a < rec.id)
      (hpos : 0 < rec.id ∧ rec.id < 2 ^ 63)
      (hw : w a = rec :: w rec.id)
      (hrest : LeadsTo w rec.id messages c) :
      LeadsTo w a (changeRecordResponse rec clusterID watermark :: messages) c
  | heartbeat
      {a c : Int} {partition : StreamPartition} {watermark : Int} {messages : List StreamRecord}
      (hpos : ValidPosition a)
      (hrest : LeadsTo w a messages c) :
      LeadsTo w a (heartbeatResponse partition a watermark :: messages) c
  | close
      {a c : Int} {messages : List StreamRecord}
      (hrest : LeadsTo w a messages c) :
      LeadsTo w a (.closeStream :: messages) c

variable {w : Int → List LoggedRecord} {a b c : Int} {messages messages' : List StreamRecord}

theorem LeadsTo.trans (h : LeadsTo w a messages b) (h' : LeadsTo w b messages' c) :
    LeadsTo w a (messages ++ messages') c := by
  induction h with
  | refl a => exact h'
  | skip hle hpos hw _ ih => exact .skip hle hpos hw (ih h')
  | change hlt hpos hw _ ih => exact .change hlt hpos hw (ih h')
  | heartbeat hpos _ ih => exact .heartbeat hpos (ih h')
  | close _ ih => exact .close (ih h')

theorem LeadsTo.le (h : LeadsTo w a messages b) :
    a ≤ b := by
  induction h with
  | refl a => exact le_rfl
  | skip hle _ _ _ ih => exact hle.trans ih
  | change hlt _ _ _ ih => exact hlt.le.trans ih
  | heartbeat _ _ ih | close _ ih => exact ih

theorem LeadsTo.validPosition (h : LeadsTo w a messages b) (ha : ValidPosition a) :
    ValidPosition b := by
  induction h with
  | refl a => exact ha
  | skip _ hpos _ _ ih => exact ih hpos
  | change _ hpos _ _ ih => exact ih ⟨hpos.1.le, hpos.2⟩
  | heartbeat _ _ ih | close _ ih => exact ih ha

/-- What was to deliver at the first position is what was received and what is
still to deliver at the last. -/
theorem LeadsTo.received_append (h : LeadsTo w a messages b) :
    received messages ++ w b = w a := by
  induction h with
  | refl a => rfl
  | skip _ _ hw _ ih => rw [hw, ih]
  | @change a c rec clusterID watermark messages _ hpos hw _ ih =>
    have hrecord := record_changeRecordResponse hpos.1 hpos.2 clusterID watermark
    unfold received at ih ⊢
    rw [filterMap_cons_some hrecord, cons_append, ih, hw]
  | heartbeat _ _ ih => exact ih
  | close _ ih => exact ih

/-- A message with a token holds the position itself, unless a later token does. -/
theorem position_of_cons {m : StreamRecord} {got : List StreamRecord} {t token : Bytes}
    (hm : m.token = some t) (ht : decodeChangeStreamToken t = .ok b)
    (htoken : lastToken (m :: got) = some token)
    (hgot : lastToken got = some token →
      ∃ n, decodeChangeStreamToken token = .ok n ∧ b ≤ n ∧ received got ++ w n = w b) :
    ∃ n, decodeChangeStreamToken token = .ok n ∧ b ≤ n ∧ received got ++ w n = w b := by
  rw [lastToken_cons, hm] at htoken
  cases hlast : lastToken got with
  | none =>
    rw [hlast] at htoken
    cases htoken
    exact ⟨b, ht, le_rfl, by rw [received_eq_nil_of_lastToken hlast, nil_append]⟩
  | some u =>
    rw [hlast] at htoken
    exact hgot (hlast.trans htoken)

/-- The last token of an initial part of the messages holds the position to which
this part leads. -/
theorem LeadsTo.position_of_lastToken (h : LeadsTo w a messages c) {got : List StreamRecord}
    (hgot : got <+: messages) {token : Bytes} (htoken : lastToken got = some token) :
    ∃ n, decodeChangeStreamToken token = .ok n ∧ a ≤ n ∧ received got ++ w n = w a := by
  induction h generalizing got with
  | refl a =>
    rw [prefix_nil] at hgot
    subst hgot
    cases htoken
  | skip hle _ hw _ ih =>
    obtain ⟨n, hn, hbn, hrest⟩ := ih hgot htoken
    exact ⟨n, hn, hle.trans hbn, hrest.trans hw.symm⟩
  | @change a c rec clusterID watermark messages hlt hpos hw _ ih =>
    cases got with
    | nil => cases htoken
    | cons m got =>
      obtain ⟨rfl, htail⟩ := cons_prefix_cons.mp hgot
      have hrecord := record_changeRecordResponse hpos.1 hpos.2 clusterID watermark
      have hcons : received (changeRecordResponse rec clusterID watermark :: got) =
          rec :: received got :=
        filterMap_cons_some hrecord
      obtain ⟨n, hn, hbn, hrest⟩ := position_of_cons rfl
        (decode_encodeChangeStreamToken hpos.1.le hpos.2) htoken (ih htail)
      refine ⟨n, hn, hlt.le.trans hbn, ?_⟩
      rw [hcons, cons_append, hrest, hw]
  | @heartbeat a c partition watermark messages hpos _ ih =>
    cases got with
    | nil => cases htoken
    | cons m got =>
      obtain ⟨rfl, htail⟩ := cons_prefix_cons.mp hgot
      have hposition := position_of_cons rfl (decode_encodeChangeStreamToken hpos.1 hpos.2) htoken
        (ih htail)
      exact hposition
  | @close a c messages _ ih =>
    cases got with
    | nil => cases htoken
    | cons m got =>
      obtain ⟨rfl, htail⟩ := cons_prefix_cons.mp hgot
      rw [lastToken_cons, StreamRecord.token, Option.or_none] at htoken
      exact @ih got htail htoken

end Positions

section Polling

/-- Later records do not commit earlier. -/
def SqlChangeLog.CommitsInOrder (log : SqlChangeLog) : Prop :=
  log.records.Pairwise (fun a b => a.commitMicros ≤ b.commitMicros)

/-- The stream has to deliver the record when it comes to it. -/
def Stream.wants (s : Stream) (r : LoggedRecord) : Bool :=
  s.rng.contains r.rowKey && !afterEnd s.endTime (unixMicro r.commitMicros)

/-- The records of the log that the stream has to deliver after a position. -/
def Stream.wantedAfter (s : Stream) (log : SqlChangeLog) (n : Int) : List LoggedRecord :=
  (Cursor.after LoggedRecord.id n log.records).filter s.wants

variable {s : Stream} {log : SqlChangeLog} {n : Int}

theorem afterEnd_mono {endTime time time' : Int} (hle : time ≤ time')
    (h : afterEnd endTime time = true) :
    afterEnd endTime time' = true := by
  unfold afterEnd at h ⊢
  simp only [Bool.and_eq_true, decide_eq_true_eq] at h ⊢
  exact ⟨h.1, by omega⟩

/-- Once a record is past the end time, nothing is left to deliver. -/
theorem wantedAfter_eq_nil (hcommits : log.CommitsInOrder) {rec : LoggedRecord}
    {rest : List LoggedRecord} (hlist : Cursor.after LoggedRecord.id n log.records = rec :: rest)
    (hend : afterEnd s.endTime (unixMicro rec.commitMicros) = true) :
    s.wantedAfter log n = [] := by
  have hsorted : (rec :: rest).Pairwise (fun a b => a.commitMicros ≤ b.commitMicros) := by
    rw [← hlist]
    exact hcommits.sublist (Cursor.after_sublist n log.records)
  unfold Stream.wantedAfter
  rw [hlist, filter_eq_nil_iff]
  intro r hr
  have hle : unixMicro rec.commitMicros ≤ unixMicro r.commitMicros := by
    unfold unixMicro
    rcases mem_cons.mp hr with rfl | hr
    · exact le_rfl
    · have := (pairwise_cons.mp hsorted).1 r hr
      omega
  simp [Stream.wants, afterEnd_mono hle hend]

/-- One batch: where it leads, that nothing is left if it closes the stream, and
that the listed records are behind it if not. -/
theorem deliverBatch_leadsTo (hcommits : log.CommitsInOrder) (watermark : Int)
    {records : List LoggedRecord} (later : List LoggedRecord)
    (hlist : Cursor.after LoggedRecord.id n log.records = records ++ later) :
    LeadsTo (s.wantedAfter log) n (deliverBatch s watermark n records).1
        (deliverBatch s watermark n records).2.1 ∧
      ((deliverBatch s watermark n records).2.2 = true →
        s.wantedAfter log (deliverBatch s watermark n records).2.1 = []) ∧
      ((deliverBatch s watermark n records).2.2 = false →
        Cursor.after LoggedRecord.id (deliverBatch s watermark n records).2.1
          log.records = later) := by
  induction records generalizing n with
  | nil => exact ⟨.refl n, by simp [deliverBatch], fun _ => hlist⟩
  | cons rec records ih =>
    by_cases hend : afterEnd s.endTime (unixMicro rec.commitMicros) = true
    · have hnil := wantedAfter_eq_nil (s := s) hcommits hlist hend
      simp only [deliverBatch, hend, if_true]
      exact ⟨.close (.refl n), fun _ => hnil, by simp⟩
    have hrest : Cursor.after LoggedRecord.id rec.id log.records =
        records ++ later :=
      Cursor.after_of_cons log.increasing hlist
    obtain ⟨hleads, hclosed, hopen⟩ := ih hrest
    have hmem : rec ∈ Cursor.after LoggedRecord.id n log.records := by
      rw [hlist]
      exact mem_cons_self
    obtain ⟨hrec, hlt⟩ := Cursor.mem_after.mp hmem
    have hend' : afterEnd s.endTime (unixMicro rec.commitMicros) = false := by
      simpa using hend
    by_cases hrange : s.rng.contains rec.rowKey = true
    · have hw : s.wantedAfter log n = rec :: s.wantedAfter log rec.id := by
        have hwants : s.wants rec = true := by simp [Stream.wants, hrange, hend']
        unfold Stream.wantedAfter
        rw [hlist, hrest, cons_append, filter_cons_of_pos hwants]
      simp only [deliverBatch, hend', Bool.false_eq_true, if_false, hrange, if_true]
      exact ⟨.change hlt (log.inRange rec hrec) hw hleads, hclosed, hopen⟩
    · have hw : s.wantedAfter log n = s.wantedAfter log rec.id := by
        have hwants : ¬ s.wants rec = true := by simp [Stream.wants, hrange]
        unfold Stream.wantedAfter
        rw [hlist, hrest, cons_append, filter_cons_of_neg hwants]
      simp only [deliverBatch, hend', Bool.false_eq_true, if_false, hrange]
      have hpos := log.inRange rec hrec
      exact ⟨.skip hlt.le ⟨hpos.1.le, hpos.2⟩ hw hleads, hclosed, hopen⟩

variable {p : Poll} {state : StreamState}

theorem listAfter_append (hlog : p.log.records <+: log.records) (n : Int) {limit : Nat} :
    ∃ later, Cursor.after LoggedRecord.id n log.records = p.log.listAfter n limit ++ later := by
  obtain ⟨later, hlater⟩ :=
    (List.take_prefix limit (Cursor.after LoggedRecord.id n p.log.records)).trans
      (Cursor.after_prefix hlog n)
  exact ⟨later, hlater.symm⟩

/-- The end of a turn sends no record. -/
theorem waitForPoll_leadsTo (w : Int → List LoggedRecord) (state : StreamState)
    (hpos : ValidPosition state.nextAfterID) (p : Poll) :
    LeadsTo w state.nextAfterID (waitForPoll s state p).1 state.nextAfterID ∧
      ∀ state', (waitForPoll s state p).2 = .running state' →
        state'.nextAfterID = state.nextAfterID := by
  -- the messages of a turn that does not close the stream
  have hmessages : ∀ due : Bool, LeadsTo w state.nextAfterID (if due then
        [heartbeatResponse s.partition state.nextAfterID p.watermark]
      else
        []) state.nextAfterID := by
    intro due
    cases due with
    | false => exact .refl _
    | true => exact .heartbeat hpos (.refl _)
  unfold waitForPoll
  split_ifs with hend
  · exact ⟨.close (.refl _), by simp⟩
  cases p.wake with
  | ctxDone | shuttingDown => exact ⟨hmessages _, by simp⟩
  | pollInterval =>
    refine ⟨hmessages _, fun state' h => ?_⟩
    cases h
    rfl

/-- One turn leads to the position in which the loop goes on. -/
theorem pollOnce_leadsTo (hcommits : log.CommitsInOrder) (hlog : p.log.records <+: log.records)
    (hpos : ValidPosition state.nextAfterID) :
    ∃ b, LeadsTo (s.wantedAfter log) state.nextAfterID (pollOnce s state p).1 b ∧
      ∀ state', (pollOnce s state p).2 = .running state' → state'.nextAfterID = b := by
  unfold pollOnce
  cases p.listError with
  | some err => exact ⟨state.nextAfterID, .refl _, by simp⟩
  | none =>
    obtain ⟨later, hlist⟩ := listAfter_append hlog state.nextAfterID
    obtain ⟨hleads, -, -⟩ := deliverBatch_leadsTo (s := s) hcommits _ later hlist
    dsimp only
    split_ifs with hclosed hfull
    · exact ⟨_, hleads, by simp⟩
    · refine ⟨_, hleads, fun state' h => ?_⟩
      cases h
      rfl
    · obtain ⟨hwait, hstate⟩ := waitForPoll_leadsTo (s := s) (s.wantedAfter log)
        ⟨_, state.lastHeartbeat⟩ (hleads.validPosition hpos) p
      exact ⟨_, hleads.trans hwait, hstate⟩

theorem pollLoop_of_returned {err : Option Status} (h : (pollOnce s state p).2 = .returned err)
    (polls : List Poll) :
    pollLoop s state (p :: polls) = ((pollOnce s state p).1, .returned err) := by
  simp only [pollLoop, h]

theorem pollLoop_of_running {state' : StreamState} (h : (pollOnce s state p).2 = .running state')
    (polls : List Poll) :
    pollLoop s state (p :: polls) =
      ((pollOnce s state p).1 ++ (pollLoop s state' polls).1, (pollLoop s state' polls).2) := by
  simp only [pollLoop, h]

theorem received_pollOnce_prefix (state : StreamState) (p : Poll) (polls : List Poll) :
    received (pollOnce s state p).1 <+: received (pollLoop s state (p :: polls)).1 := by
  cases hout : (pollOnce s state p).2 with
  | returned err => rw [pollLoop_of_returned hout]
  | running state' =>
    rw [pollLoop_of_running hout, received_append]
    exact prefix_append _ _

/-- All turns together. -/
theorem pollLoop_leadsTo (hcommits : log.CommitsInOrder) (polls : List Poll)
    (hlogs : ∀ p ∈ polls, p.log.records <+: log.records) (hpos : ValidPosition state.nextAfterID) :
    ∃ b, LeadsTo (s.wantedAfter log) state.nextAfterID
        (pollLoop s state polls).1 b ∧
      ∀ state', (pollLoop s state polls).2 = .running state' → state'.nextAfterID = b := by
  induction polls generalizing state with
  | nil =>
    refine ⟨_, .refl _, fun state' h => ?_⟩
    cases h
    rfl
  | cons p polls ih =>
    obtain ⟨b, hturn, hstate⟩ := pollOnce_leadsTo (s := s) hcommits (hlogs p (by simp)) hpos
    cases hout : (pollOnce s state p).2 with
    | returned err =>
      rw [pollLoop_of_returned hout]
      exact ⟨b, hturn, by simp⟩
    | running state' =>
      have hb := hstate state' hout
      subst hb
      obtain ⟨c, hrest, hlast⟩ := ih
        (fun q hq => hlogs q (mem_cons_of_mem p hq))
        (hturn.validPosition hpos)
      rw [pollLoop_of_running hout]
      exact ⟨c, hturn.trans hrest, hlast⟩

/-- A poll without storage failure after which the loop goes on waiting. -/
def Poll.Uninterrupted (p : Poll) : Prop :=
  p.listError = none ∧ p.wake = .pollInterval

/-- An uninterrupted turn delivers all that the log holds, or it delivers a full
batch and goes on. -/
theorem pollOnce_progress (hcommits : p.log.CommitsInOrder) (hp : p.Uninterrupted)
    (hpos : ValidPosition state.nextAfterID) :
    s.wantedAfter p.log state.nextAfterID = received (pollOnce s state p).1 ∨
      ∃ state', (pollOnce s state p).2 = .running state' ∧
        ValidPosition state'.nextAfterID ∧
        received (pollOnce s state p).1 ++
            s.wantedAfter p.log state'.nextAfterID =
          s.wantedAfter p.log state.nextAfterID ∧
        ∀ log : SqlChangeLog, log.CommitsInOrder → p.log.records <+: log.records →
          (Cursor.after LoggedRecord.id state'.nextAfterID log.records).length +
              s.batchSize =
            (Cursor.after LoggedRecord.id state.nextAfterID log.records).length := by
  obtain ⟨later, hlist⟩ := listAfter_append (prefix_refl p.log.records)
    state.nextAfterID
  obtain ⟨hleads, hnil, hopen⟩ := deliverBatch_leadsTo (s := s) hcommits _ later hlist
  have hreceived := hleads.received_append
  unfold pollOnce
  rw [hp.1]
  dsimp only
  split_ifs with hclosed hfull
  · left
    rw [← hreceived, hnil hclosed, append_nil]
  · right
    refine ⟨_, rfl, hleads.validPosition hpos, hreceived, ?_⟩
    intro log hcommits' hlog
    obtain ⟨later', hlist'⟩ := listAfter_append hlog state.nextAfterID
    obtain ⟨-, -, hopen'⟩ := deliverBatch_leadsTo (s := s) hcommits' _ later' hlist'
    rw [hopen' (by simpa using hclosed), hlist', length_append, hfull]
    omega
  left
  -- a batch that is not full is all that the log holds after the position
  have hall : p.log.listAfter state.nextAfterID s.batchSize =
      Cursor.after LoggedRecord.id state.nextAfterID p.log.records := by
    unfold SqlChangeLog.listAfter at hfull ⊢
    rw [length_take] at hfull
    exact take_of_length_le (by omega)
  have hlater : later = [] := by
    rw [hall] at hlist
    simpa using hlist
  have hnone : s.wantedAfter p.log
      (deliverBatch s p.watermark state.nextAfterID
        (p.log.listAfter state.nextAfterID s.batchSize)).2.1 = [] := by
    unfold Stream.wantedAfter
    rw [hopen (by simpa using hclosed), hlater]
    rfl
  obtain ⟨hwait, -⟩ := waitForPoll_leadsTo (s := s) (s.wantedAfter p.log)
    ⟨_, state.lastHeartbeat⟩ (hleads.validPosition hpos) p
  have htotal := (hleads.trans hwait).received_append
  rw [hnone, append_nil] at htotal
  exact htotal.symm

theorem wantedAfter_of_prefix_log {log log' : SqlChangeLog} (h : log.records <+: log'.records)
    (n : Int) :
    s.wantedAfter log n <+: s.wantedAfter log' n :=
  (Cursor.after_prefix h n).filter _

/-- Uninterrupted polls deliver what the log held at the first of them, if they
are enough for the batches. -/
theorem pollLoop_progress (hcommits : log.CommitsInOrder) (p : Poll) (polls : List Poll)
    (hlogs : ∀ q ∈ p :: polls, q.log.records <+: log.records)
    (hgrows : (p :: polls).Pairwise (fun a b => a.log.records <+: b.log.records))
    (huninterrupted : ∀ q ∈ p :: polls, q.Uninterrupted) (hpos : ValidPosition state.nextAfterID)
    (henough : (Cursor.after LoggedRecord.id state.nextAfterID
      log.records).length < (polls.length + 1) * s.batchSize) :
    s.wantedAfter p.log state.nextAfterID <+: received (pollLoop s state (p :: polls)).1 := by
  induction polls generalizing p state with
  | nil =>
    have hlog := hlogs p (by simp)
    rcases pollOnce_progress (s := s) (hcommits.sublist hlog.sublist)
      (huninterrupted p (by simp)) hpos with hall | ⟨state', -, -, -, hcount⟩
    · rw [hall]
      exact received_pollOnce_prefix state p _
    · have := hcount log hcommits hlog
      simp only [length_nil] at henough
      omega
  | cons q polls ih =>
    have hlog := hlogs p (by simp)
    rcases pollOnce_progress (s := s) (hcommits.sublist hlog.sublist)
      (huninterrupted p (by simp)) hpos with
        hall | ⟨state', hout, hpos', hreceived, hcount⟩
    · rw [hall]
      exact received_pollOnce_prefix state p _
    obtain ⟨hfirst, hrest⟩ := pairwise_cons.mp hgrows
    have hlen := hcount log hcommits hlog
    have hih := ih q (fun r hr => hlogs r (mem_cons_of_mem p hr)) hrest
      (fun r hr => huninterrupted r (mem_cons_of_mem p hr)) hpos' (by
        simp only [length_cons] at henough
        have hmul := Nat.succ_mul (polls.length + 1) s.batchSize
        simp only [Nat.succ_eq_add_one] at hmul
        omega)
    rw [pollLoop_of_running hout, received_append, ← hreceived, prefix_append_right_inj]
    exact (wantedAfter_of_prefix_log (hfirst q (by simp)) _).trans hih

theorem pollLoop_append {state' : StreamState} (before : List Poll) (after : List Poll)
    (h : (pollLoop s state before).2 = .running state') :
    pollLoop s state (before ++ after) =
      ((pollLoop s state before).1 ++ (pollLoop s state' after).1,
        (pollLoop s state' after).2) := by
  induction before generalizing state with
  | nil =>
    cases h
    rfl
  | cons p before ih =>
    cases hout : (pollOnce s state p).2 with
    | returned err =>
      rw [pollLoop_of_returned hout] at h
      cases h
    | running next =>
      rw [pollLoop_of_running hout] at h
      rw [cons_append, pollLoop_of_running hout, pollLoop_of_running hout, ih h]
      simp only [append_assoc]

end Polling

section Asked

/-- The partition a request asks for: its own, the one of its last token, or the
whole table. -/
def ReadChangeStreamRequest.askedPartition (req : ReadChangeStreamRequest) : StreamPartition :=
  req.partition.getD
    ((req.continuationTokens.getLast?.bind
      StreamContinuationToken.partition).getD fullStreamPartition)

def StreamPartition.contains (partition : StreamPartition) (key : Bytes) : Bool :=
  match partition.rowRange with
  | none => true
  | some rr => rr.contains key

/-- A token holds a position before the id. -/
def StreamContinuationToken.isBefore (token : StreamContinuationToken) (x : Int) : Bool :=
  match decodeChangeStreamToken token.token with
  | .error _ => false
  | .ok id => decide (id < x)

/-- The record is not before the requested start.  With tokens it comes after one
of them, that is, after the smallest; with a start time it commits at that time or
later, to the microsecond.  Records written after the start query are not before
the start. -/
def ReadChangeStreamRequest.startsBefore (env : StreamEnv) (req : ReadChangeStreamRequest)
    (r : LoggedRecord) : Bool :=
  if req.continuationTokens = [] then
    !decide (r ∈ env.log.records) || (match req.startTime with
        | none => false
        | some startTime => decide (toUnixMicro startTime ≤ r.commitMicros))
  else
    req.continuationTokens.any (fun token => token.isBefore r.id)

/-- The record commits at the requested end time or earlier.  An end time in the
first microsecond of the year 1 is no end time. -/
def ReadChangeStreamRequest.endsAfter (req : ReadChangeStreamRequest) (r : LoggedRecord) : Bool :=
  match req.endTime with
  | none => true
  | some endTime =>
    decide (truncateMicrosecond endTime = zeroTime) || decide (unixMicro r.commitMicros ≤ endTime)

/-- The request asks for the record. -/
def ReadChangeStreamRequest.asksFor (env : StreamEnv) (req : ReadChangeStreamRequest)
    (r : LoggedRecord) : Bool :=
  req.askedPartition.contains r.rowKey && req.startsBefore env r && req.endsAfter r

theorem partitionRange_contains (partition : StreamPartition) (key : Bytes) :
    (partitionRange partition).contains key = partition.contains key := by
  unfold partitionRange StreamPartition.contains
  cases partition.rowRange with
  | none => simp [KeyRange.contains]
  | some rr => exact rowRangeToKeyRange_contains rr key

theorem not_afterEnd_lastTime (req : ReadChangeStreamRequest) (r : LoggedRecord) :
    (!afterEnd req.lastTime (unixMicro r.commitMicros)) = req.endsAfter r := by
  unfold ReadChangeStreamRequest.lastTime ReadChangeStreamRequest.endsAfter afterEnd
  cases req.endTime with
  | none => simp
  | some endTime =>
    by_cases hzero : truncateMicrosecond endTime = zeroTime
    · simp [hzero]
    have hiff : truncateMicrosecond endTime < unixMicro r.commitMicros ↔
        ¬ unixMicro r.commitMicros ≤ endTime := by
      unfold truncateMicrosecond unixMicro
      omega
    by_cases hle : unixMicro r.commitMicros ≤ endTime
    · simp [hzero, hle, hiff]
    · simp [hzero, hle, hiff]

variable {records : List LoggedRecord} {r : LoggedRecord} {partition : StreamPartition} {n : Int}

/-- The largest id is below `x` when every id is. -/
theorem coalesceMaxID_lt_iff {x : Int} (hx : 0 < x) :
    coalesceMaxID records < x ↔ ∀ r ∈ records, r.id < x := by
  unfold coalesceMaxID
  cases hmax : (records.map LoggedRecord.id).max? with
  | none =>
    rw [List.max?_eq_none_iff, map_eq_nil_iff] at hmax
    subst hmax
    simpa using hx
  | some m =>
    obtain ⟨hmem, hle⟩ := List.max?_eq_some_iff.mp hmax
    obtain ⟨q, hq, rfl⟩ := mem_map.mp hmem
    constructor
    · intro hlt r hr
      exact lt_of_le_of_lt (hle r.id (mem_map_of_mem hr)) hlt
    · intro hall
      exact hall q hq

theorem coalesceMaxID_valid (h : ∀ r ∈ records, 0 < r.id ∧ r.id < 2 ^ 63) :
    ValidPosition (coalesceMaxID records) := by
  unfold coalesceMaxID
  cases hmax : (records.map LoggedRecord.id).max? with
  | none => exact ⟨le_rfl, by decide⟩
  | some m =>
    obtain ⟨hmem, -⟩ := List.max?_eq_some_iff.mp hmax
    obtain ⟨q, hq, rfl⟩ := mem_map.mp hmem
    exact ⟨(h q hq).1.le, (h q hq).2⟩

theorem decodeChangeStreamToken_valid {token : Bytes} {id : Int}
    (h : decodeChangeStreamToken token = .ok id) :
    ValidPosition id := by
  unfold decodeChangeStreamToken at h
  split at h
  · cases h
  split_ifs at h
  split at h
  · cases h
  rename_i hparse
  split_ifs at h with hneg
  cases h
  exact ⟨by omega, Decimal.lt_of_parse hparse⟩

/-- The tokens give the smallest id and the last partition. -/
theorem startTokens_spec {tokens : List StreamContinuationToken}
    {seen result : Option (Int × Option StreamPartition)}
    (hseen : ∀ q, seen = some q → ValidPosition q.1) (h : startTokens seen tokens = .ok result) :
    (∀ q, result = some q → ValidPosition q.1) ∧
      result.map Prod.snd =
        (tokens.getLast?.map StreamContinuationToken.partition).or (seen.map Prod.snd) ∧
      ∀ x, (∃ q, result = some q ∧ q.1 < x) ↔
        (∃ q, seen = some q ∧ q.1 < x) ∨ tokens.any (fun token => token.isBefore x) = true := by
  induction tokens generalizing seen with
  | nil =>
    cases h
    exact ⟨hseen, by simp, fun x => by simp⟩
  | cons token tokens ih =>
    cases hdec : decodeChangeStreamToken token.token with
    | error st =>
      simp only [startTokens, hdec] at h
      cases h
    | ok id =>
      simp only [startTokens, hdec] at h
      have hid := decodeChangeStreamToken_valid hdec
      have hbefore : ∀ x, token.isBefore x = decide (id < x) := by
        intro x
        simp only [StreamContinuationToken.isBefore, hdec]
      obtain ⟨hvalid, hlast, hiff⟩ := ih (by
        rintro q' ⟨⟩
        cases seen with
        | none => exact hid
        | some q =>
          dsimp only
          split_ifs
          · exact hid
          · exact hseen q rfl) h
      refine ⟨hvalid, ?_, fun x => ?_⟩
      · rw [hlast, getLast?_cons]
        cases tokens.getLast? <;> rfl
      rw [hiff x]
      cases seen with
      | none => simp [hbefore]
      | some q =>
        have hmin : (if id < q.1 then id else q.1) < x ↔ q.1 < x ∨ id < x := by
          split_ifs <;> omega
        simp only [Option.some.injEq, exists_eq_left', hmin, any_cons,
          hbefore, Bool.or_eq_true, decide_eq_true_eq, or_assoc]

variable {env : StreamEnv} {req : ReadChangeStreamRequest} {full : SqlChangeLog}

theorem lt_of_mem_of_not_mem {log : SqlChangeLog} (hlog : log.records <+: full.records)
    {q : LoggedRecord} (hq : q ∈ log.records) (hr : r ∈ full.records) (hr' : r ∉ log.records) :
    q.id < r.id := by
  obtain ⟨later, hlater⟩ := hlog
  rw [← hlater, mem_append] at hr
  have hsorted := full.increasing
  rw [← hlater, pairwise_append] at hsorted
  exact hsorted.2.2 q hq r (hr.resolve_left hr')

/-- A query for the largest id of the records with a property is passed by the
records above all of them. -/
theorem queryLog_map_ok {query : SqlChangeLog → Int} {p : StreamPartition}
    (h : (queryLog env query).map (fun id => (partition, id)) = .ok (p, n)) :
    p = partition ∧ n = query env.log := by
  unfold queryLog at h
  split at h
  · cases h
  rename_i hfail
  cases h
  exact ⟨rfl, rfl⟩

theorem maxID_lt_iff (hlog : env.log.records <+: full.records) (hr : r ∈ full.records) :
    env.log.maxID < r.id ↔ r ∉ env.log.records := by
  unfold SqlChangeLog.maxID
  rw [coalesceMaxID_lt_iff (full.inRange r hr).1]
  constructor
  · intro hall hmem
    exact lt_irrefl _ (hall r hmem)
  · intro hnot q hq
    exact lt_of_mem_of_not_mem hlog hq hr hnot

/-- With a start time, the records of the log that commit before it are passed. -/
theorem lastIDBefore_lt_iff (hlog : env.log.records <+: full.records)
    (hcommits : full.CommitsInOrder) (hr : r ∈ full.records) (start : Int) :
    env.log.lastIDBefore start < r.id ↔ (r ∈ env.log.records → start ≤ r.commitMicros) := by
  unfold SqlChangeLog.lastIDBefore
  rw [coalesceMaxID_lt_iff (full.inRange r hr).1]
  simp only [mem_filter, decide_eq_true_eq]
  constructor
  · intro hall hmem
    by_contra hlt
    exact lt_irrefl _ (hall r ⟨hmem, by omega⟩)
  rintro hstart q ⟨hq, hbefore⟩
  by_cases hmem : r ∈ env.log.records
  · -- ids are ordered as commit times, so an earlier commit has a smaller id
    have hrstart := hstart hmem
    exact Cursor.id_lt_of_time_lt full.increasing hcommits
      (hlog.subset hq) hr (by omega : q.commitMicros < r.commitMicros)
  · exact lt_of_mem_of_not_mem hlog hq hr hmem

/-- With tokens, the call starts after the smallest. -/
theorem changeStreamStart_of_tokens {afterID : Int} {tokenPartition : Option StreamPartition}
    (htokens : startTokens none req.continuationTokens = .ok (some (afterID, tokenPartition)))
    (h : changeStreamStart env req = .ok (partition, n)) :
    req.continuationTokens ≠ [] ∧ n = afterID ∧ partition = req.askedPartition := by
  obtain ⟨-, hlast, -⟩ := startTokens_spec (by simp) htokens
  cases hend : req.continuationTokens.getLast? with
  | none =>
    rw [hend] at hlast
    cases hlast
  | some token =>
    rw [hend] at hlast
    have htoken : token.partition = tokenPartition := (Option.some.inj hlast).symm
    refine ⟨fun hnil => by simp [hnil] at hend, ?_⟩
    unfold changeStreamStart at h
    unfold ReadChangeStreamRequest.askedPartition
    rw [htokens] at h
    rw [hend, Option.bind_some, htoken]
    cases hown : req.partition with
    | none =>
      rw [hown] at h
      cases tokenPartition <;>
        · cases h
          exact ⟨rfl, rfl⟩
    | some p =>
      rw [hown] at h
      cases tokenPartition with
      | none =>
        cases h
        exact ⟨rfl, rfl⟩
      | some q =>
        simp only at h
        split_ifs at h
        cases h
        exact ⟨rfl, rfl⟩

/-- Without tokens, the call starts at the start time or at the end of the log. -/
theorem changeStreamStart_of_noTokens (hlog : env.log.records <+: full.records)
    (hcommits : full.CommitsInOrder) (hnil : req.continuationTokens = [])
    (h : changeStreamStart env req = .ok (partition, n)) :
    partition = req.askedPartition ∧ ValidPosition n ∧
      ∀ r ∈ full.records, req.startsBefore env r = decide (n < r.id) := by
  have hasked : req.askedPartition = req.partition.getD fullStreamPartition := by
    unfold ReadChangeStreamRequest.askedPartition
    rw [hnil]
    rfl
  unfold changeStreamStart at h
  rw [hnil] at h
  unfold ReadChangeStreamRequest.startsBefore
  simp only [if_pos hnil, hasked]
  cases hstart : req.startTime with
  | none =>
    rw [hstart] at h
    obtain ⟨rfl, rfl⟩ := queryLog_map_ok h
    refine ⟨rfl, coalesceMaxID_valid env.log.inRange, fun r hr => ?_⟩
    rw [Bool.eq_iff_iff, decide_eq_true_iff, maxID_lt_iff hlog hr]
    simp
  | some startTime =>
    rw [hstart] at h
    simp only [startTokens] at h
    split_ifs at h
    obtain ⟨rfl, rfl⟩ := queryLog_map_ok h
    refine ⟨rfl, coalesceMaxID_valid (fun r hr =>
      env.log.inRange r (mem_of_mem_filter hr)), fun r hr => ?_⟩
    rw [Bool.eq_iff_iff, decide_eq_true_iff, lastIDBefore_lt_iff hlog hcommits hr]
    simp [imp_iff_not_or]

/-- The start position separates the records the request asks for. -/
theorem changeStreamStart_spec (hlog : env.log.records <+: full.records)
    (hcommits : full.CommitsInOrder) (h : changeStreamStart env req = .ok (partition, n)) :
    partition = req.askedPartition ∧ ValidPosition n ∧
      ∀ r ∈ full.records, req.startsBefore env r = decide (n < r.id) := by
  cases htokens : startTokens none req.continuationTokens with
  | error st =>
    unfold changeStreamStart at h
    rw [htokens] at h
    cases h
  | ok result =>
    obtain ⟨hvalid, hlast, hiff⟩ := startTokens_spec (by simp) htokens
    cases result with
    | some q =>
      obtain ⟨hne, rfl, hpartition⟩ := changeStreamStart_of_tokens htokens h
      refine ⟨hpartition, hvalid _ rfl, fun r hr => ?_⟩
      have hr' := hiff r.id
      simp only [Option.some.injEq, exists_eq_left', reduceCtorEq, false_and,
        exists_false, false_or] at hr'
      unfold ReadChangeStreamRequest.startsBefore
      rw [if_neg hne, Bool.eq_iff_iff, ← hr', decide_eq_true_iff]
    | none =>
      have hnil : req.continuationTokens = [] := by
        cases hend : req.continuationTokens.getLast? with
        | none => exact getLast?_eq_none_iff.mp hend
        | some token =>
          rw [hend] at hlast
          cases hlast
      exact changeStreamStart_of_noTokens hlog hcommits hnil h

/-- A call that is accepted delivers, of every log, the records that the request
asks for. -/
theorem openStream_spec (hlog : env.log.records <+: full.records) (hcommits : full.CommitsInOrder)
    {batchSize : Nat} {s : Stream} {state : StreamState}
    (h : openStream batchSize env req = .ok (s, state)) :
    s.batchSize = batchSize ∧ s.rng = partitionRange req.askedPartition ∧
      s.endTime = req.lastTime ∧ ValidPosition state.nextAfterID ∧
      ∀ log : SqlChangeLog, log.records <+: full.records →
        log.records.filter (req.asksFor env) = s.wantedAfter log state.nextAfterID := by
  unfold openStream at h
  split at h
  · cases h
  split at h
  · cases h
  rename_i partition n hstart
  split at h
  · cases h
  cases h
  obtain ⟨hpartition, hvalid, hstarts⟩ := changeStreamStart_spec hlog hcommits hstart
  refine ⟨rfl, by rw [hpartition], rfl, hvalid, fun log hlog' => ?_⟩
  unfold Stream.wantedAfter Cursor.after
  rw [filter_filter]
  refine filter_congr (fun r hr => ?_)
  unfold ReadChangeStreamRequest.asksFor Stream.wants
  rw [partitionRange_contains, not_afterEnd_lastTime, hpartition, hstarts r (hlog'.subset hr)]
  cases decide (n < r.id) <;>
    cases req.askedPartition.contains r.rowKey <;>
    cases req.endsAfter r <;> rfl

end Asked

section Delivery

/-- The call delivers exactly the wanted records of the log `full`, of which the
client has received some already: after any polls it has sent, in the order of
the log, an initial part of them, and a poll at which the call still runs is
followed by all that the log held then, after as many uninterrupted polls as there
are batches. -/
structure Delivers (batchSize : Nat) (full : SqlChangeLog) (want : LoggedRecord → Bool)
    (already : List LoggedRecord) (env : StreamEnv) (req : ReadChangeStreamRequest) : Prop where
  only : ∀ polls : List Poll, (∀ p ∈ polls, p.log.records <+: full.records) →
    already ++ received (readChangeStream batchSize env req polls).1 <+: full.records.filter want
  all : ∀ (before : List Poll) (p : Poll) (after : List Poll) (state : StreamState),
    (∀ q ∈ before ++ p :: after, q.log.records <+: full.records) →
    (p :: after).Pairwise (fun a b => a.log.records <+: b.log.records) →
    (∀ q ∈ p :: after, q.Uninterrupted) →
    (readChangeStream batchSize env req before).2 = .running state →
    full.records.length < (after.length + 1) * batchSize →
    p.log.records.filter want <+:
      already ++ received (readChangeStream batchSize env req (before ++ p :: after)).1

/-- The client asks to go on from a token: with the same partition and end
time. -/
structure ReadChangeStreamRequest.ResumesFrom (req' : ReadChangeStreamRequest)
    (req : ReadChangeStreamRequest) (token : Bytes) : Prop where
  tokens : req'.continuationTokens = [⟨some req.askedPartition, token⟩]
  partition : req'.partition = none ∨ req'.partition = some req.askedPartition
  endTime : req'.endTime = req.endTime

/-- The table, the app profile and the heartbeat interval of a request pass their
checks. -/
def ReadChangeStreamRequest.Admitted (req : ReadChangeStreamRequest) (env : StreamEnv) : Prop :=
  (∃ tbl, changeStreamTable env req.tableName = .ok tbl) ∧
    ∃ heartbeat, req.heartbeat = .ok heartbeat

variable {batchSize : Nat} {full : SqlChangeLog} {want : LoggedRecord → Bool}
variable {already : List LoggedRecord} {env env' : StreamEnv} {req req' : ReadChangeStreamRequest}
variable {s s' : Stream} {state state' : StreamState}

/-- A shorter log does not have more records between two positions. -/
theorem wantedAfter_length_le {log : SqlChangeLog} (hlog : log.records <+: full.records)
    {got : List LoggedRecord} {a b : Int}
    (hgot : got ++ s.wantedAfter full b = s.wantedAfter full a) (hle : a ≤ b) :
    (s.wantedAfter log a).length ≤ got.length + (s.wantedAfter log b).length := by
  have hlater : ∀ l : SqlChangeLog, (s.wantedAfter l a).filter
      (fun r => decide (b < r.id)) = s.wantedAfter l b := by
    intro l
    unfold Stream.wantedAfter
    rw [filter_comm]
    congr 1
    exact Cursor.after_after hle l.records
  have hsplit : ∀ l : SqlChangeLog, (s.wantedAfter l a).length =
      (s.wantedAfter l b).length + ((s.wantedAfter l a).filter
        (fun r => !decide (b < r.id))).length := by
    intro l
    rw [← hlater l]
    exact length_eq_length_filter_add _
  have hsub := ((wantedAfter_of_prefix_log (s := s) hlog a).filter
    (fun r => !decide (b < r.id))).length_le
  have hlen := congrArg List.length hgot
  rw [length_append] at hlen
  have hfull := hsplit full
  have hshort := hsplit log
  omega

/-- A call delivers what is left at the position at which it starts. -/
theorem delivers_of_openStream (hcommits : full.CommitsInOrder)
    (hopen : openStream batchSize env req = .ok (s, state)) (hbatch : s.batchSize = batchSize)
    (hpos : ValidPosition state.nextAfterID)
    (hleft : already ++ s.wantedAfter full state.nextAfterID = full.records.filter want)
    (hfewer : ∀ log : SqlChangeLog, log.records <+: full.records →
      (log.records.filter want).length ≤
        already.length + (s.wantedAfter log state.nextAfterID).length) :
    Delivers batchSize full want already env req := by
  have hrun : ∀ polls, readChangeStream batchSize env req polls =
      pollLoop s state polls := by
    intro polls
    unfold readChangeStream
    rw [hopen]
  have honly : ∀ polls : List Poll,
      (∀ p ∈ polls, p.log.records <+: full.records) →
      already ++ received (readChangeStream batchSize env req polls).1 <+:
        full.records.filter want := by
    intro polls hlogs
    rw [hrun]
    obtain ⟨b, hleads, -⟩ := pollLoop_leadsTo (s := s) hcommits polls hlogs hpos
    rw [← hleft, ← hleads.received_append, ← append_assoc]
    exact prefix_append _ _
  refine ⟨honly, fun before p after state' hlogs hgrows hfree hstate henough => ?_⟩
  -- both lists are initial parts of the same list, so their lengths decide
  have hlog : p.log.records <+: full.records := hlogs p (by simp)
  refine prefix_of_prefix_length_le (hlog.filter want) (honly _ hlogs) ?_
  rw [hrun] at hstate ⊢
  rw [pollLoop_append before (p :: after) hstate, received_append]
  obtain ⟨b, hleads, hb⟩ := pollLoop_leadsTo (s := s) hcommits before
    (fun q hq => hlogs q (by simp [hq])) hpos
  have hposition : state'.nextAfterID = b := hb state' hstate
  have hbefore := wantedAfter_length_le hlog hleads.received_append hleads.le
  have hrest : s.wantedAfter p.log state'.nextAfterID <+:
      received (pollLoop s state' (p :: after)).1 := by
    refine pollLoop_progress hcommits p after
      (fun q hq => hlogs q (mem_append_right before hq)) hgrows hfree
      (hposition ▸ hleads.validPosition hpos) ?_
    have hle : (Cursor.after LoggedRecord.id state'.nextAfterID
        full.records).length ≤ full.records.length :=
      (Cursor.after_sublist _ _).length_le
    rw [hbatch]
    omega
  have hlen := hrest.length_le
  have htotal := hfewer p.log hlog
  rw [hposition] at hlen
  simp only [length_append]
  omega

/-- A token of the first call opens the stream at its position. -/
theorem openStream_of_resumesFrom (hrng : s.rng = partitionRange req.askedPartition)
    (hend : s.endTime = req.lastTime) {token : Bytes} {n : Int}
    (htoken : decodeChangeStreamToken token = .ok n) (hresumes : req'.ResumesFrom req token)
    (hadmitted : req'.Admitted env') :
    ∃ s' state', openStream batchSize env' req' = .ok (s', state') ∧
      s'.batchSize = batchSize ∧ state'.nextAfterID = n ∧ s'.wants = s.wants := by
  obtain ⟨⟨tbl, htable⟩, heartbeat, hheartbeat⟩ := hadmitted
  have hstart : changeStreamStart env' req' = .ok (req.askedPartition, n) := by
    unfold changeStreamStart
    rw [hresumes.tokens]
    simp only [startTokens, htoken]
    rcases hresumes.partition with hnone | hsome
    · rw [hnone]
    · rw [hsome]
      simp
  refine ⟨_, _, by unfold openStream; rw [htable, hstart, hheartbeat], rfl, rfl, ?_⟩
  have hlast : req'.lastTime = req.lastTime := by
    unfold ReadChangeStreamRequest.lastTime
    rw [hresumes.endTime]
  funext r
  unfold Stream.wants
  rw [hrng, hend, ← hlast]

/-- `ReadChangeStream` delivers exactly the records of the log that the request
asks for, each once and in the order of the log, while the log is being written.
Cut off anywhere and resumed from the last token the client has received, it
delivers exactly the remaining ones. -/
theorem readChangeStream_delivers (batchSize : Nat) (full : SqlChangeLog)
    (hcommits : full.CommitsInOrder) (env : StreamEnv) (req : ReadChangeStreamRequest)
    (hlog : env.log.records <+: full.records)
    (haccepted : (openStream batchSize env req).isOk = true) :
    Delivers batchSize full (req.asksFor env) [] env req ∧
      ∀ polls : List Poll, (∀ p ∈ polls, p.log.records <+: full.records) →
        ∀ (got : List StreamRecord) (token : Bytes),
          got <+: (readChangeStream batchSize env req polls).1 →
          lastToken got = some token →
          ∀ (env' : StreamEnv) (req' : ReadChangeStreamRequest),
            req'.ResumesFrom req token → req'.Admitted env' →
            Delivers batchSize full (req.asksFor env) (received got) env' req' := by
  cases hopen : openStream batchSize env req with
  | error st =>
    rw [hopen] at haccepted
    cases haccepted
  | ok opened =>
    obtain ⟨s, state⟩ := opened
    obtain ⟨hbatch, hrng, hend, hpos, hasks⟩ := openStream_spec hlog hcommits hopen
    constructor
    · refine delivers_of_openStream hcommits hopen hbatch hpos ?_ ?_
      · rw [hasks full (prefix_refl _)]
        rfl
      · intro log hlog'
        rw [hasks log hlog']
        simp
    intro polls hlogs got token hgot htoken env' req' hresumes hadmitted
    have hrun : readChangeStream batchSize env req polls =
        pollLoop s state polls := by
      unfold readChangeStream
      rw [hopen]
    rw [hrun] at hgot
    obtain ⟨b, hleads, -⟩ := pollLoop_leadsTo (s := s) hcommits polls hlogs hpos
    obtain ⟨n, hdecode, hle, hrest⟩ := hleads.position_of_lastToken hgot htoken
    obtain ⟨s', state', hopen', hbatch', hn, hwants⟩ :=
      openStream_of_resumesFrom hrng hend hdecode hresumes hadmitted
    -- the resumed call wants the same records as the first one
    have hsame : ∀ log : SqlChangeLog, s'.wantedAfter log state'.nextAfterID =
        s.wantedAfter log n := by
      intro log
      unfold Stream.wantedAfter
      rw [hwants, hn]
    refine delivers_of_openStream hcommits hopen' hbatch'
      (hn ▸ decodeChangeStreamToken_valid hdecode) ?_ ?_
    · rw [hsame, hrest, hasks full (prefix_refl _)]
    · intro log hlog'
      rw [hsame, hasks log hlog']
      exact wantedAfter_length_le hlog' hrest hle

/-- A log of three records, the second outside the partition of the requests
below. -/
def threeRecords : SqlChangeLog where
  records := [⟨⟨[97], .user, 1, []⟩, 1⟩, ⟨⟨[98], .user, 2, []⟩, 2⟩, ⟨⟨[97], .user, 2, []⟩, 3⟩]
  increasing := by decide
  inRange := by decide

/-- A call 5 microseconds after the epoch. -/
def callAtFive : StreamEnv :=
  ⟨some (tableWithFamily none ⟨false⟩ true), .ok none, 1000000, 5000, threeRecords, none, [], 5000⟩

def requestOfA (startTime endTime : Option Int)
    (tokens : List Bytes) : ReadChangeStreamRequest where
  tableName := []
  partition := some ⟨some ⟨.closed [97], .opened [98]⟩⟩
  startTime := startTime
  continuationTokens := tokens.map (fun token => ⟨some ⟨some ⟨.closed [97], .opened [98]⟩⟩, token⟩)
  endTime := endTime
  heartbeatDuration := none

def pollAtSix : Poll :=
  ⟨6000, threeRecords, none, 6000, 6000, .pollInterval⟩

/-- A start time is rounded down to the microsecond, and the zero time is no end
time: records before the start and after the end are delivered. -/
theorem readChangeStream_roundedTimes :
    ((received (readChangeStream changeStreamBatchSize callAtFive
          (requestOfA (some 1500) none []) [pollAtSix]).1).map
            (fun r => (r.id, unixMicro r.commitMicros)) = [(1, 1000), (3, 2000)] ∧
        (1000 : Int) < 1500) ∧
      ((received (readChangeStream changeStreamBatchSize callAtFive
          (requestOfA (some 0) (some zeroTime) []) [pollAtSix]).1).map
            (fun r => (r.id, unixMicro r.commitMicros)) = [(1, 1000), (3, 2000)] ∧
        zeroTime < 1000) := by
  decide +kernel

/-- A call that reads two records at a time, cut off after its first message and
resumed. -/
theorem readChangeStream_delivers_cut :
    Delivers 2 threeRecords ((requestOfA (some 1000) (some 2500) []).asksFor callAtFive)
        [] callAtFive (requestOfA (some 1000) (some 2500) []) ∧
      Delivers 2 threeRecords
        ((requestOfA (some 1000) (some 2500) []).asksFor callAtFive)
        [⟨⟨[97], .user, 1, []⟩, 1⟩] callAtFive
        (requestOfA none (some 2500) [encodeChangeStreamToken 1]) := by
  have hall := readChangeStream_delivers 2 threeRecords
    (by unfold SqlChangeLog.CommitsInOrder; decide) callAtFive
    (requestOfA (some 1000) (some 2500) []) (prefix_refl _) (by decide +kernel)
  refine ⟨hall.1, ?_⟩
  have hfirst : ((readChangeStream 2 callAtFive (requestOfA (some 1000) (some 2500) [])
      [pollAtSix, pollAtSix]).1.take 1).filterMap StreamRecord.record =
        [⟨⟨[97], .user, 1, []⟩, 1⟩] := by
    decide +kernel
  have hresumed := hall.2 [pollAtSix, pollAtSix] (by
      intro p hp
      simp only [mem_cons, not_mem_nil, or_false, or_self] at hp
      subst hp
      exact prefix_refl _)
    _ (encodeChangeStreamToken 1) (List.take_prefix 1 _) (by decide +kernel) callAtFive
    (requestOfA none (some 2500) [encodeChangeStreamToken 1])
    ⟨rfl, .inr rfl, rfl⟩ ⟨⟨_, rfl⟩, _, rfl⟩
  rw [received, hfirst] at hresumed
  exact hresumed

end Delivery

end Bttest
end LittleBigtable
