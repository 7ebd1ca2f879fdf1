import Mathlib.Data.List.TakeWhile
import LedgerApi.AppendOnly
import LedgerApi.Library.Backlog

/-! # Draining the outbox

One relay and a fixed set of pending events: a sequence of calls with any limits and failures, where
the database may order events of one `created_at` anew in every call (`drain`).

* What a call does is `RelayCall.outcome_eq`: it accepts a first part of its batch, marks exactly
  these events and counts them.
* `Progress` relates the tables after some calls to those before the first; it is the library's
  `Backlog.Drained` on the unpublished events. `Progress.serve` is its step lemma.
* **The whole drain** (`drain_backlog`): what has been delivered, in which order, what is marked,
  what the answers add up to, and how many calls it takes. -/

namespace LedgerApi

open Sessions Ordering

/-! ## Calls -/

/-- The unpublished events, as they stand in the table. -/
def Database.unpublished (db : Database) : List OutboxEvent :=
  db.outboxEvents.filter (·.publishedAt = none)

theorem Database.mem_unpublished {db : Database} {e : OutboxEvent} :
    e ∈ db.unpublished ↔ e ∈ db.outboxEvents ∧ e.publishedAt = none := by
  simp [unpublished]

/-- PostgreSQL where `planner` orders the events that tie. -/
def postgresPlanned (planner : Planner) : Store sql Database Writes Resource :=
  { postgres with
    exec := fun db w stmt =>
      match stmt with
      | .selectPendingEvents limit =>
          .ok ((planner.oldestFirst.arrange (db.view w).unpublished).take limit, w)
      | stmt => postgres.exec db w stmt }

/-- Where it keeps them in the order of their insertion, this is the store of the other modules. -/
theorem postgresPlanned_stable : postgresPlanned .stable = postgres := by
  have hexec : (postgresPlanned .stable).exec = postgres.exec := by
    funext db w stmt
    cases stmt <;> rfl
  show { postgres with exec := (postgresPlanned .stable).exec } = postgres
  rw [hexec]

/-- `POST /outbox/publish`, with what its environment does. -/
structure RelayCall where
  /-- `Query(50, ge=1, le=200)` -/
  limit : ℕ
  limit_pos : 1 ≤ limit
  limit_le : limit ≤ 200
  accepts : Message → Bool
  now : UUID → Timestamp
  planner : Planner

/-- The events that a call reads. -/
def RelayCall.batch (c : RelayCall) (db : Database) : List OutboxEvent :=
  (c.planner.oldestFirst.arrange db.unpublished).take c.limit

/-- The events of its batch that the transport accepts. -/
def RelayCall.accepted (c : RelayCall) (db : Database) : List OutboxEvent :=
  acceptedEvents c.accepts (c.batch db)

/-- A call, served with no other session about. -/
def RelayCall.outcome (c : RelayCall) (db : Database) :
    Outcome sql Database Writes PublishResult :=
  (postgresPlanned c.planner).eval (outboxPublish c.limit c.accepts c.now) db .blank

/-- **What a call does.** -/
theorem RelayCall.outcome_eq (c : RelayCall) (db : Database) :
    c.outcome db = ⟨.ok ⟨(c.accepted db).length, (c.batch db).length - (c.accepted db).length⟩,
      db.view (markWrites (marksOf c.now (c.accepted db))), .blank,
      (c.accepted db).map OutboxEvent.message⟩ := by
  apply eval_outboxPublish
  · show Except.ok ((c.planner.oldestFirst.arrange (db.view .blank).unpublished).take c.limit,
      _) = _
    rw [Database.view_blank]
    rfl
  · intro marks
    rfl
  · rfl
  · rfl

/-- It accepts the first events of the order it reads them in. -/
theorem RelayCall.accepted_isPrefix (c : RelayCall) (db : Database) :
    c.accepted db <+: c.planner.oldestFirst.arrange db.unpublished :=
  (acceptedEvents_isPrefix _ _).trans (List.take_prefix _ _)

/-- **What a relay has done** in a sequence of calls. -/
structure Drain where
  /-- The tables after the last call. -/
  database : Database
  /-- The messages that the transport has accepted, in order. -/
  sent : List Message
  /-- The batch of each call. -/
  batches : List (List OutboxEvent)
  /-- The answer to each call. -/
  results : List (Except Exn PublishResult)

/-- The calls are served one after the other. -/
def drain (db : Database) : List RelayCall → Drain
  | [] => ⟨db, [], [], []⟩
  | c :: calls =>
      let o := c.outcome db
      let rest := drain o.store calls
      ⟨rest.database, o.sent ++ rest.sent, c.batch db :: rest.batches, o.result :: rest.results⟩

/-! ## One call -/

/-- What marks leave unpublished. -/
theorem Database.unpublished_mark (db : Database) (marks : List (UUID × Timestamp)) :
    (db.view (markWrites marks)).unpublished =
      db.unpublished.filter fun e => e.id ∉ marks.map Prod.fst := by
  have hfilter : (fun e : OutboxEvent => decide (e.publishedAt = none)) ∘ OutboxEvent.mark marks =
      fun e => decide (e.id ∉ marks.map Prod.fst) && decide (e.publishedAt = none) := by
    funext e
    by_cases hid : e.id ∈ marks.map Prod.fst
    · simp [OutboxEvent.publishedAt_mark_of_mem hid, hid]
    · simp [OutboxEvent.mark_of_not_mem hid, hid]
  rw [unpublished, view_markWrites_outboxEvents, List.filter_map, unpublished, List.filter_filter,
    hfilter]
  -- a row that is left has no mark
  refine (List.map_congr_left fun e he => ?_).trans (List.map_id _)
  have hid := (List.mem_filter.mp he).2
  rw [Bool.and_eq_true, decide_eq_true_eq] at hid
  exact OutboxEvent.mark_of_not_mem hid.1

/-- Marks upon marks. -/
theorem OutboxEvent.mark_mark (e : OutboxEvent) (marks marks' : List (UUID × Timestamp)) :
    (e.mark marks).mark marks' = e.mark (marks' ++ marks) := by
  have hid : (e.mark marks).id = e.id := by
    unfold mark
    split <;> rfl
  rw [mark, hid, mark, mark, List.lookup_append]
  cases marks'.lookup e.id with
  | none => rfl
  | some now => cases marks.lookup e.id <;> rfl

/-- **The state of a drain**: the tables `db₀` it has started from, with marks on exactly the events
that have been accepted. -/
structure Progress (db₀ : Database) (accepted : List OutboxEvent) (db : Database) : Prop where
  rows : ∃ marks, db.outboxEvents = db₀.outboxEvents.map (OutboxEvent.mark marks) ∧
    ∀ id, id ∈ marks.map Prod.fst ↔ id ∈ accepted.map (·.id)
  drained : Backlog.Drained OutboxEvent.createdAt db₀.unpublished accepted db.unpublished

variable {db db₀ : Database} {accepted : List OutboxEvent}

/-- Before the first call nothing has been accepted. -/
theorem Progress.start (db : Database) : Progress db [] db := by
  refine ⟨⟨[], ?_, by simp⟩, .start _⟩
  have hid : OutboxEvent.mark [] = id := by
    funext e
    exact e.mark_nil
  rw [hid, List.map_id]

/-- The ids of the events that are pending stay distinct. -/
theorem Progress.nodup_ids (h : Progress db₀ accepted db)
    (hids : (db₀.unpublished.map (·.id)).Nodup) : (db.unpublished.map (·.id)).Nodup := by
  have hall := (h.drained.perm.map (·.id)).nodup_iff.mpr hids
  rw [List.map_append] at hall
  exact (List.nodup_append.mp hall).2.1

/-- **Step lemma** of a drain. -/
theorem Progress.serve (h : Progress db₀ accepted db) (hids : (db₀.unpublished.map (·.id)).Nodup)
    (c : RelayCall) : Progress db₀ (accepted ++ c.accepted db) (c.outcome db).store := by
  rw [c.outcome_eq]
  constructor
  · obtain ⟨marks, hrows, hmarks⟩ := h.rows
    refine ⟨marksOf c.now (c.accepted db) ++ marks, ?_, fun id => ?_⟩
    · show (db.view (markWrites (marksOf c.now (c.accepted db)))).outboxEvents = _
      rw [view_markWrites_outboxEvents, hrows, List.map_map]
      refine List.map_congr_left fun e _ => ?_
      exact e.mark_mark marks _
    · rw [List.map_append, List.map_append, List.mem_append, List.mem_append, map_fst_marksOf,
        hmarks]
      exact or_comm
  · refine h.drained.take c.planner.oldestFirst (c.accepted_isPrefix db) ?_
    show (db.view (markWrites (marksOf c.now (c.accepted db)))).unpublished.Perm _
    rw [Database.unpublished_mark, map_fst_marksOf]
    exact Backlog.perm_drop _ (c.accepted_isPrefix db) (h.nodup_ids hids)

/-! ## All calls -/

/-- **Run lemma** of a drain: every call adds what it accepts, and reports it. -/
theorem Progress.serve_all (h : Progress db₀ accepted db)
    (hids : (db₀.unpublished.map (·.id)).Nodup) (calls : List RelayCall) :
    ∃ (more : List OutboxEvent) (results : List PublishResult),
      (drain db calls).sent = more.map OutboxEvent.message ∧
      (drain db calls).results = results.map .ok ∧
      Progress db₀ (accepted ++ more) (drain db calls).database ∧
      more.length = (results.map (·.published)).sum ∧
      List.Forall₂ (fun batch result => result.published + result.failed = batch.length)
        (drain db calls).batches results := by
  induction calls generalizing db accepted with
  | nil => exact ⟨[], [], rfl, rfl, by rwa [List.append_nil], rfl, .nil⟩
  | cons c calls ih =>
      obtain ⟨more, results, hsent, hresults, hprogress, hcount, hsizes⟩ := ih (h.serve hids c)
      have hle : (c.accepted db).length ≤ (c.batch db).length :=
        (acceptedEvents_isPrefix _ _).length_le
      refine ⟨c.accepted db ++ more, ⟨(c.accepted db).length,
        (c.batch db).length - (c.accepted db).length⟩ :: results, ?_, ?_, ?_, ?_, ?_⟩
      · rw [drain, List.map_append, ← hsent, c.outcome_eq]
      · rw [drain, List.map_cons, ← hresults, c.outcome_eq]
      · rw [drain, ← List.append_assoc]
        exact hprogress
      · rw [List.length_append, List.map_cons, List.sum_cons, hcount]
      · exact .cons (Nat.add_sub_cancel' hle) hsizes

/-- Calls that fail on nothing accept their whole batches. -/
theorem length_unpublished_drain {limit : ℕ} (h : Progress db₀ accepted db)
    (hids : (db₀.unpublished.map (·.id)).Nodup) (calls : List RelayCall)
    (hcalls : ∀ c ∈ calls, c.limit = limit ∧ ∀ e ∈ db₀.unpublished, c.accepts e.message = true) :
    (drain db calls).database.unpublished.length =
      db.unpublished.length - limit * calls.length := by
  induction calls generalizing db accepted with
  | nil => simp [drain]
  | cons c calls ih =>
      obtain ⟨hc, hcalls⟩ := List.forall_mem_cons.mp hcalls
      have hserve := h.serve hids c
      have hpending : db.unpublished ⊆ db₀.unpublished := fun e he =>
        h.drained.perm.mem_iff.mp (List.mem_append_right _ he)
      have hall : c.accepted db = c.batch db := by
        refine List.takeWhile_eq_self_iff.mpr fun e he => hc.2 e (hpending ?_)
        exact (c.planner.oldestFirst.perm _).mem_iff.mp (List.mem_of_mem_take he)
      -- what has been accepted and what is pending are always as many as at the start
      have hbefore := h.drained.perm.length_eq
      have hafter := hserve.drained.perm.length_eq
      have hbatch : (c.batch db).length = min limit db.unpublished.length := by
        rw [RelayCall.batch, List.length_take, (c.planner.oldestFirst.perm _).length_eq, hc.1]
      rw [List.length_append] at hbefore
      rw [hall, List.length_append, List.length_append, hbatch] at hafter
      rw [drain, ih hserve hcalls, List.length_cons, Nat.mul_succ]
      omega

/-- **What a drain has delivered**: the accepted events, as its messages, its tables and its answers
show them. -/
structure Delivered (db : Database) (run : Drain) (accepted : List OutboxEvent)
    (results : List PublishResult) : Prop where
  sent : run.sent = accepted.map OutboxEvent.message
  answers : run.results = results.map .ok
  pending : accepted ⊆ db.pendingEvents
  /-- Nothing is delivered twice. -/
  nodup : accepted.Nodup
  in_order : accepted.Pairwise fun e f => e.createdAt ≤ f.createdAt
  oldest_first : ∀ a ∈ accepted, ∀ e ∈ db.pendingEvents, e.createdAt < a.createdAt → e ∈ accepted
  /-- Exactly the accepted events are marked. -/
  marked : List.Forall₂ (fun e e' => SameEvent e e' ∧
      (e'.publishedAt ≠ none ↔ e.publishedAt ≠ none ∨ e ∈ accepted))
    db.outboxEvents run.database.outboxEvents
  count : accepted.length = (results.map (·.published)).sum
  sizes : List.Forall₂ (fun batch result => result.published + result.failed = batch.length)
    run.batches results

theorem Database.pendingEvents_perm (db : Database) : db.pendingEvents.Perm db.unpublished :=
  List.perm_insertionSort _ _

/-- **Draining a backlog**: whatever the limits, the failures and the order of ties, the accepted
events are delivered once, oldest first, and are those that are marked and reported; and calls that
fail on nothing leave nothing pending when there are as many of them as the backlog has batches. -/
theorem drain_backlog (hids : (db.outboxEvents.map (·.id)).Nodup) (calls : List RelayCall) :
    (∃ accepted results, Delivered db (drain db calls) accepted results) ∧
      ∀ limit, 1 ≤ limit →
        (∀ c ∈ calls, c.limit = limit ∧ ∀ e ∈ db.pendingEvents, c.accepts e.message = true) →
        (db.pendingEvents.length + limit - 1) / limit ≤ calls.length →
          (drain db calls).database.pendingEvents = [] := by
  have hids' : (db.unpublished.map (·.id)).Nodup := hids.sublist (List.filter_sublist.map _)
  have hpending := db.pendingEvents_perm
  constructor
  · obtain ⟨accepted, results, hsent, hresults, hprogress, hcount, hsizes⟩ :=
      (Progress.start db).serve_all hids' calls
    rw [List.nil_append] at hprogress
    have hdrained := hprogress.drained
    refine ⟨accepted, results, hsent, hresults, fun e he => ?_, hdrained.nodup hids'.of_map,
      hdrained.sorted, fun a ha e he hlt => ?_, ?_, hcount, hsizes⟩
    · exact hpending.mem_iff.mpr (hdrained.subset he)
    · exact hdrained.mem_of_lt ha (hpending.mem_iff.mp he) hlt
    obtain ⟨marks, hrows, hmarks⟩ := hprogress.rows
    rw [hrows, List.forall₂_map_right_iff, List.forall₂_same]
    intro e he
    refine ⟨OutboxEvent.unmarked_mark marks e, ?_⟩
    -- an event is known by its id
    have hmem : e.id ∈ marks.map Prod.fst ↔ e ∈ accepted := by
      rw [hmarks]
      refine ⟨fun hid => ?_, fun hmem => List.mem_map_of_mem hmem⟩
      obtain ⟨a, ha, hid⟩ := List.mem_map.mp hid
      have hrow := (Database.mem_unpublished.mp (hdrained.subset ha)).1
      exact List.inj_on_of_nodup_map hids hrow he hid ▸ ha
    rw [← hmem]
    by_cases hid : e.id ∈ marks.map Prod.fst
    · simp [OutboxEvent.publishedAt_mark_of_mem hid, hid]
    · simp [OutboxEvent.mark_of_not_mem hid, hid]
  · intro limit hlimit hcalls henough
    have hlength := length_unpublished_drain (Progress.start db) hids' calls
      fun c hc => ⟨(hcalls c hc).1, fun e he => (hcalls c hc).2 e (hpending.mem_iff.mpr he)⟩
    rw [hpending.length_eq] at henough
    rw [Backlog.sub_mul_eq_zero hlimit henough] at hlength
    have hnone := (drain db calls).database.pendingEvents_perm
    rw [List.eq_nil_of_length_eq_zero hlength] at hnone
    exact hnone.eq_nil

/-- Five pending events, of which two and two have one `created_at`. -/
def backlogDatabase : Database where
  accounts := []
  transactions := []
  ledgerEntries := []
  outboxEvents := [⟨1, "transaction", 11, "transaction.deposit", "{}", 5, none⟩,
    ⟨2, "transaction", 12, "transaction.deposit", "{}", 3, none⟩,
    ⟨3, "transaction", 13, "transaction.transfer", "{}", 3, none⟩,
    ⟨4, "transaction", 14, "transaction.transfer", "{}", 8, none⟩,
    ⟨5, "transaction", 15, "transaction.withdrawal", "{}", 5, none⟩]

/-- A call for at most two events, to which the transport accepts everything. -/
def pairCall : RelayCall where
  limit := 2
  limit_pos := by decide
  limit_le := by decide
  accepts _ := true
  now _ := 9
  planner := .stable

/-- The transport is down for transfers: the call ends at the first of them. -/
example : (drain backlogDatabase [{ pairCall with
      accepts := fun m => m.eventType ≠ "transaction.transfer" }]).results = [.ok ⟨1, 1⟩] := by
  decide +kernel

/-- Three such calls drain the backlog. -/
theorem drain_backlog_backlogDatabase :
    (∃ accepted results, Delivered backlogDatabase
      (drain backlogDatabase (List.replicate 3 pairCall)) accepted results) ∧
      (drain backlogDatabase (List.replicate 3 pairCall)).database.pendingEvents = [] := by
  have hids : (backlogDatabase.outboxEvents.map (·.id)).Nodup := by decide
  obtain ⟨hdelivered, hnone⟩ := drain_backlog hids (List.replicate 3 pairCall)
  refine ⟨hdelivered, hnone 2 (by decide) (fun c hc => ?_) (by decide)⟩
  rw [List.eq_of_mem_replicate hc]
  exact ⟨rfl, fun _ _ => rfl⟩

end LedgerApi
