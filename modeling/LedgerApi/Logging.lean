import LedgerApi.Library.JsonLines
import LedgerApi.Postgres

/-! # The structured log

`app/logging.py`, the tracing of requests in `app/main.py`, and the transport of `app/publisher.py`
that writes to the log. A stream handler writes a line for every record, which holds what
`JSONFormatter` picks from it.

Whatever text clients put into paths and request identifiers, the stream is read back line by line
as what was logged (`log_tells`). Only the members that the formatter picks are told
(`line_eq_iff`): what else a call adds to its record is lost. Searching the log for a request's
identifier finds the lines of the request, unless another request came with the same identifier
(`request_traced_iff`). -/

namespace LedgerApi

open JsonLines
open Json (Data loads)

/-! ## Records -/

/-- `logging.LogRecord`, as far as it is read: `extra` holds the attributes that a call adds,
`excInfo` the text and the type of an exception. -/
structure LogRecord where
  levelname : String
  name : String
  message : String
  extra : Object := []
  excInfo : Option (String × String) := none

/-- An attribute that a call has added to its record. -/
def LogRecord.attribute? (record : LogRecord) (key : String) : Option Scalar :=
  record.extra.lookup key

/-- The member for an attribute, where the record has it. -/
def LogRecord.member (record : LogRecord) (key : String) : Object :=
  ((record.attribute? key).map fun v => (key, v)).toList

/-- `JSONFormatter.format`: the object of a record, at a time and with the value of
`request_id_var`. -/
def JSONFormatter.log (now : String) (requestId : Option String) (record : LogRecord) : Object :=
  [("timestamp", .str now), ("level", .str record.levelname), ("logger", .str record.name),
    ("message", .str record.message)] ++
  -- an empty identifier counts as none
  ((requestId.filter (· ≠ "")).map fun rid => ("request_id", .str rid)).toList ++
  record.member "transaction_id" ++ record.member "account_id" ++ record.member "status_code" ++
  record.member "method" ++ record.member "path" ++ record.member "duration_ms" ++
  match record.excInfo with
  | some (error, type) => [("error", .str error), ("error_type", .str type)]
  | none => []

/-- Its text. -/
def JSONFormatter.format (now : String) (requestId : Option String) (record : LogRecord) : String :=
  dumps (JSONFormatter.log now requestId record)

/-- A record that is logged, with its time and the value of `request_id_var`. -/
structure LogEntry where
  now : String
  requestId : Option String
  record : LogRecord

/-- The line of a record. -/
def LogEntry.line (e : LogEntry) : String := JSONFormatter.format e.now e.requestId e.record

/-- What the handler has written to its stream. -/
def logStream (entries : List LogEntry) : String := written (entries.map LogEntry.line)

/-! ## What a line tells -/

/-- The attributes that the formatter picks. -/
def loggedAttributes : List String :=
  ["transaction_id", "account_id", "status_code", "method", "path", "duration_ms"]

/-- The keys of lines, in their order. -/
def logKeys : List String :=
  ["timestamp", "level", "logger", "message", "request_id"] ++ loggedAttributes ++
    ["error", "error_type"]

/-- What the line of a record tells under a key. -/
def LogEntry.told (e : LogEntry) (key : String) : Option Scalar :=
  if key = "timestamp" then some (.str e.now)
  else if key = "level" then some (.str e.record.levelname)
  else if key = "logger" then some (.str e.record.name)
  else if key = "message" then some (.str e.record.message)
  else if key = "request_id" then (e.requestId.filter (· ≠ "")).map .str
  else if key ∈ loggedAttributes then e.record.attribute? key
  else if key = "error" then e.record.excInfo.map fun (error, _) => .str error
  else if key = "error_type" then e.record.excInfo.map fun (_, type) => .str type
  else none

/-- Lines have no other keys. -/
theorem LogEntry.mem_logKeys_of_told (e : LogEntry) (key : String) (h : e.told key ≠ none) :
    key ∈ logKeys := by
  by_contra hkey
  simp only [logKeys, List.mem_append, not_or] at hkey
  obtain ⟨⟨hfirst, hattributes⟩, hlast⟩ := hkey
  simp only [List.mem_cons, List.not_mem_nil, or_false, not_or] at hfirst hlast
  refine h ?_
  simp only [LogEntry.told, hfirst, hattributes, hlast, if_false]

/-- **The formatter writes what a line tells**, in the order of the keys. -/
theorem JSONFormatter.log_eq_ofKeys (e : LogEntry) :
    JSONFormatter.log e.now e.requestId e.record = ofKeys logKeys e.told := by
  unfold JSONFormatter.log
  cases hexc : e.record.excInfo <;>
    simp [ofKeys, logKeys, loggedAttributes, LogEntry.told, LogRecord.member, hexc,
      Function.comp_def]

/-- A line is its dictionary. -/
theorem LogEntry.line_eq_dumps (e : LogEntry) : e.line = dumps (ofKeys logKeys e.told) :=
  congrArg dumps (JSONFormatter.log_eq_ofKeys e)

/-- What is read from the line of a record. -/
def LogEntry.data (e : LogEntry) : Data := (ofKeys logKeys e.told).data

/-- It is what the line tells, and nothing else. -/
theorem LogEntry.get?_data (e : LogEntry) (key : String) :
    e.data.get? key = (e.told key).map Scalar.data :=
  get?_data_ofKeys e.mem_logKeys_of_told key

/-- A line is read back. -/
theorem LogEntry.loads_line (e : LogEntry) : loads e.line = some e.data := by
  rw [e.line_eq_dumps, loads_dumps]
  rfl

/-- The lines of the stream are those of the records. -/
theorem lines_logStream (entries : List LogEntry) :
    lines (logStream entries) = entries.map LogEntry.line := by
  refine lines_written fun text htext => ?_
  obtain ⟨e, -, rfl⟩ := List.mem_map.mp htext
  rw [e.line_eq_dumps]
  exact newline_notMem_dumps _

/-- **The log tells what was logged.** Whatever the texts in the records are, the stream has one
line for each of them, and each line is read as a dictionary that holds under every key what the
formatter picked from its record, and nothing else. -/
theorem log_tells (entries : List LogEntry) :
    List.Forall₂ (fun e line => ∃ d, loads line = some d ∧
      ∀ key, d.get? key = (e.told key).map Scalar.data) entries (lines (logStream entries)) := by
  rw [lines_logStream, List.forall₂_map_right_iff, List.forall₂_same]
  exact fun e _ => ⟨e.data, e.loads_line, e.get?_data⟩

/-! ## What is lost -/

/-- The attributes that are picked are told as they are. -/
theorem LogEntry.told_attribute (e : LogEntry) {key : String} (h : key ∈ loggedAttributes) :
    e.told key = e.record.attribute? key := by
  simp only [loggedAttributes, List.mem_cons, List.not_mem_nil, or_false] at h
  rcases h with rfl | rfl | rfl | rfl | rfl | rfl <;> rfl

/-- **What a line does not tell.** Two lines are equal exactly when the records agree on what the
formatter picks; whatever else their calls added to them is lost. -/
theorem line_eq_iff (e f : LogEntry) :
    e.line = f.line ↔ e.now = f.now ∧ e.record.levelname = f.record.levelname ∧
      e.record.name = f.record.name ∧ e.record.message = f.record.message ∧
      e.requestId.filter (· ≠ "") = f.requestId.filter (· ≠ "") ∧
      (∀ key ∈ loggedAttributes, e.record.attribute? key = f.record.attribute? key) ∧
      e.record.excInfo = f.record.excInfo := by
  rw [e.line_eq_dumps, f.line_eq_dumps,
    dumps_ofKeys_eq_iff e.mem_logKeys_of_told f.mem_logKeys_of_told]
  have hstr : Function.Injective Scalar.str := fun _ _ h => Scalar.str.inj h
  constructor
  · intro h
    refine ⟨Scalar.str.inj (Option.some.inj (h "timestamp")),
      Scalar.str.inj (Option.some.inj (h "level")), Scalar.str.inj (Option.some.inj (h "logger")),
      Scalar.str.inj (Option.some.inj (h "message")),
      Option.map_injective hstr (h "request_id"), ?_, ?_⟩
    · intro key hkey
      rw [← e.told_attribute hkey, ← f.told_attribute hkey]
      exact h key
    · have herror : e.record.excInfo.map (fun x => Scalar.str x.1) =
          f.record.excInfo.map fun x => Scalar.str x.1 := h "error"
      have htype : e.record.excInfo.map (fun x => Scalar.str x.2) =
          f.record.excInfo.map fun x => Scalar.str x.2 := h "error_type"
      cases he : e.record.excInfo <;> cases hf : f.record.excInfo <;>
        simp only [he, hf, Option.map_none, Option.map_some, Option.some.injEq, Scalar.str.injEq,
          reduceCtorEq] at herror htype ⊢
      exact Prod.ext herror htype
  · rintro ⟨hnow, hlevel, hname, hmessage, hid, hattributes, hexc⟩ key
    unfold LogEntry.told
    rw [hnow, hlevel, hname, hmessage, hid, hexc]
    by_cases hkey : key ∈ loggedAttributes
    · rw [hattributes key hkey]
    · simp only [if_neg hkey]

/-- The record of `LogTransport.publish`. -/
def LogTransport.record (m : Message) : LogRecord where
  levelname := "INFO"
  name := "ledger.publisher"
  message := "Event published to log transport"
  extra := [("event_type", .str m.eventType), ("event_id", .str m.eventId)]

/-- The formatter picks neither of its attributes: the line does not say which event was published.
-/
theorem LogTransport.format_record (now : String) (requestId : Option String) (m m' : Message) :
    JSONFormatter.format now requestId (LogTransport.record m) =
      JSONFormatter.format now requestId (LogTransport.record m') :=
  rfl

/-! ## Requests -/

/-- A request on its way through `request_tracing`: the header it came with, the identifier that is
drawn for it where it came without, what its handler logs, each record with its time, and, unless
the handler raises, the time of its end with the status of its response and its duration in tenths
of a millisecond. -/
structure TracedRequest where
  header : Option String
  uuid4 : UUID
  method : String
  path : String
  handled : List (String × LogRecord)
  response : Option (String × ℕ × ℕ)

namespace TracedRequest

/-- `request_id` -/
def requestId (r : TracedRequest) : String := r.header.getD r.uuid4.str

/-- The record that a response leaves. -/
def completed (r : TracedRequest) (statusCode duration : ℕ) : LogRecord where
  levelname := "INFO"
  name := "ledger.api"
  message := "Request completed"
  extra := [("method", .str r.method), ("path", .str r.path),
    ("status_code", .num (.ofNat statusCode)), ("duration_ms", .num (.tenths duration))]

/-- What a request logs. -/
def entries (r : TracedRequest) : List LogEntry :=
  (r.handled.map fun (now, record) => ⟨now, some r.requestId, record⟩) ++
    (r.response.map fun (now, statusCode, duration) =>
      ⟨now, some r.requestId, r.completed statusCode duration⟩).toList

/-- Under its own identifier. -/
theorem requestId_of_mem_entries {r : TracedRequest} {e : LogEntry} (he : e ∈ r.entries) :
    e.requestId = some r.requestId := by
  simp only [entries, List.mem_append, List.mem_map, Option.mem_toList,
    Option.map_eq_some_iff] at he
  rcases he with ⟨x, -, rfl⟩ | ⟨x, -, rfl⟩ <;> rfl

end TracedRequest

/-- The records of the requests in some order, each with the place of its request; what is logged
outside of requests has no identifier. -/
structure Traced (requests : List TracedRequest) (log : List (Option ℕ × LogEntry)) : Prop where
  entries : ∀ {i r}, requests[i]? = some r →
    (log.filter fun x => x.1 = some i).map Prod.snd = r.entries
  inside : ∀ {i e}, (some i, e) ∈ log → i < requests.length
  outside : ∀ {e}, (none, e) ∈ log → e.requestId = none

/-- The lines of a text with an identifier. -/
def trace (requestId : String) (text : String) : List Data :=
  ((lines text).filterMap loads).filter fun d =>
    match d.get? "request_id" with
    | some (.str s) => s = requestId
    | _ => false

/-- They are those of the records under the identifier. -/
theorem trace_logStream {requestId : String} (h : requestId ≠ "") (entries : List LogEntry) :
    trace requestId (logStream entries) =
      (entries.filter fun e => e.requestId = some requestId).map LogEntry.data := by
  have hread : (lines (logStream entries)).filterMap loads = entries.map LogEntry.data := by
    rw [lines_logStream, List.filterMap_map, ← List.filterMap_eq_map]
    exact List.filterMap_congr fun e _ => e.loads_line
  rw [trace, hread, List.filter_map]
  refine congrArg _ (List.filter_congr fun e _ => ?_)
  have hid : e.told "request_id" = (e.requestId.filter (· ≠ "")).map .str := rfl
  simp only [Function.comp_apply, e.get?_data, hid]
  cases he : e.requestId with
  | none => simp
  | some s =>
      by_cases hs : s = ""
      · subst hs
        simp [Ne.symm h]
      · simp [Option.filter, hs, Scalar.data]

section Traced

variable {requests : List TracedRequest} {log : List (Option ℕ × LogEntry)}
  (h : Traced requests log) {i : ℕ} {r : TracedRequest} (hr : requests[i]? = some r)
include h hr

/-- What has a request's place is among its entries. -/
theorem Traced.mem_entries {x : Option ℕ × LogEntry} (hx : x ∈ log) (hi : x.1 = some i) :
    x.2 ∈ r.entries := by
  rw [← h.entries hr]
  exact List.mem_map_of_mem (List.mem_filter.mpr ⟨hx, decide_eq_true hi⟩)

/-- Every entry of a request is found under its identifier. -/
theorem Traced.sublist_filter :
    (log.filter fun x => x.1 = some i).Sublist
      (log.filter fun x => x.2.requestId = some r.requestId) := by
  have hboth : (log.filter fun x => x.2.requestId = some r.requestId).filter
      (fun x => x.1 = some i) = log.filter fun x => x.1 = some i := by
    rw [List.filter_filter]
    refine List.filter_congr fun x hx => ?_
    by_cases hi : x.1 = some i
    · simp [hi, TracedRequest.requestId_of_mem_entries (h.mem_entries hr hx hi)]
    · simp [hi]
  rw [← hboth]
  exact List.filter_sublist

/-- **The identifier of a request finds its lines**: what is read of the log under it is what the
request logged, in order, exactly when no other request that logged anything came with the same
identifier. -/
theorem request_traced_iff (hid : r.requestId ≠ "") :
    trace r.requestId (logStream (log.map Prod.snd)) = r.entries.map LogEntry.data ↔
      ∀ j s, requests[j]? = some s → s.entries ≠ [] → s.requestId = r.requestId → j = i := by
  rw [trace_logStream hid, List.filter_map, ← h.entries hr]
  constructor
  · intro heq j s hs hne hsame
    -- as many entries under the identifier as at the place are the same entries
    have hlength := congrArg List.length heq
    simp only [List.length_map] at hlength
    have hall := (h.sublist_filter hr).eq_of_length hlength.symm
    obtain ⟨e, he⟩ := List.exists_mem_of_ne_nil _ hne
    have hlogged := he
    rw [← h.entries hs] at hlogged
    obtain ⟨x, hx, rfl⟩ := List.mem_map.mp hlogged
    obtain ⟨hx, hj⟩ := List.mem_filter.mp hx
    have hxid := TracedRequest.requestId_of_mem_entries he
    have hfound : x ∈ log.filter fun x => x.1 = some i := by
      rw [hall]
      exact List.mem_filter.mpr ⟨hx, decide_eq_true (hxid.trans (congrArg some hsame))⟩
    have hi := of_decide_eq_true (List.mem_filter.mp hfound).2
    exact Option.some.inj ((of_decide_eq_true hj).symm.trans hi)
  · intro hother
    refine congrArg _ (congrArg _ (List.filter_congr fun x hx => ?_))
    refine decide_eq_decide.mpr ⟨fun hxid => ?_, fun hi =>
      TracedRequest.requestId_of_mem_entries (h.mem_entries hr hx hi)⟩
    obtain ⟨place, e⟩ := x
    cases place with
    | none =>
        have hnone := h.outside hx
        rw [hnone] at hxid
        cases hxid
    | some j =>
        obtain ⟨s, hs⟩ : ∃ s, requests[j]? = some s :=
          ⟨_, List.getElem?_eq_getElem (h.inside hx)⟩
        have he := h.mem_entries hs hx rfl
        have hsame := (TracedRequest.requestId_of_mem_entries he).symm.trans hxid
        rw [hother j s hs (List.ne_nil_of_mem he) (Option.some.inj hsame)]

end Traced

/-- A request whose identifier tries to end its line and to begin another. -/
def forgedRequest : TracedRequest where
  header := some "1\"\x7d\n\x7b\"request_id\": \"2\", \"level\": \"ERROR\"\x7d"
  uuid4 := 1
  method := "GET"
  path := "/accounts"
  handled := []
  response := some ("2026-01-05T09:00:02+00:00", 200, 125)

/-- A request that is answered while the other is under way. -/
def replayedRequest : TracedRequest where
  header := some "2"
  uuid4 := 2
  method := "POST"
  path := "/transactions"
  handled := [("2026-01-05T09:00:00+00:00",
    ⟨"INFO", "ledger.service", "Idempotent replay: returning existing transaction",
      [("transaction_id", .str (3 : UUID).str)], none⟩)]
  response := some ("2026-01-05T09:00:01+00:00", 201, 80)

/-- Their records, after one from the start of the process. -/
def forgedLog : List (Option ℕ × LogEntry) :=
  (none, ⟨"2026-01-05T08:00:00+00:00", none,
    ⟨"WARNING", "ledger.auth", "JWT_SECRET_KEY not set, using local development secret", [],
      none⟩⟩) ::
    (replayedRequest.entries.map fun e => (some 1, e)) ++
    forgedRequest.entries.map fun e => (some 0, e)

example : forgedRequest.entries.map LogEntry.line =
    ["\x7b\"timestamp\": \"2026-01-05T09:00:02+00:00\", \"level\": \"INFO\", " ++
      "\"logger\": \"ledger.api\", \"message\": \"Request completed\", \"request_id\": " ++
      "\"1\\\"\x7d\\n\x7b\\\"request_id\\\": \\\"2\\\", \\\"level\\\": \\\"ERROR\\\"\x7d\", " ++
      "\"status_code\": 200, \"method\": \"GET\", \"path\": \"/accounts\", " ++
      "\"duration_ms\": 12.5\x7d"] := by decide +kernel

theorem traced_forgedLog : Traced [forgedRequest, replayedRequest] forgedLog where
  entries := by
    intro i r hr
    match i with
    | 0 =>
        obtain rfl : forgedRequest = r := by simpa using hr
        rfl
    | 1 =>
        obtain rfl : replayedRequest = r := by simpa using hr
        rfl
    | i + 2 => simp at hr
  inside := by
    intro i e he
    simp only [forgedLog, List.cons_append, List.mem_cons, List.mem_append, List.mem_map,
      Prod.mk.injEq, Option.some.injEq, reduceCtorEq, false_and, false_or] at he
    rcases he with ⟨_, -, rfl, -⟩ | ⟨_, -, rfl, -⟩ <;> decide
  outside := by
    intro e he
    simp only [forgedLog, List.cons_append, List.mem_cons, List.mem_append, List.mem_map,
      Prod.mk.injEq, reduceCtorEq, false_and, and_false, exists_false, or_false, true_and] at he
    rw [he]

theorem request_traced_iff_forgedLog :
    trace "2" (logStream (forgedLog.map Prod.snd)) = replayedRequest.entries.map LogEntry.data :=
  (request_traced_iff traced_forgedLog (i := 1) (r := replayedRequest) rfl (by decide)).mpr (by
    intro j s hs _ hsame
    match j with
    | 0 =>
        obtain rfl : forgedRequest = s := by simpa using hs
        exact absurd hsame (by decide)
    | 1 => rfl
    | j + 2 => simp at hs)

end LedgerApi
