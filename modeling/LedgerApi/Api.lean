import LedgerApi.Library.World
import LedgerApi.Service

/-! # The application

The handlers of `app/main.py` that write, the requests they serve, and the two ways they are run:
one after the other (`serve`, `Reachable`), and interleaved by statement (`ledger`). `get_db` closes
a session when its request ends, which rolls back what it has not committed; `Store.run` and a
finished slot of a `World` do the same. -/

namespace LedgerApi

open Sessions

/-- `post_account`. -/
def postAccount (data : AccountCreate) (id : UUID) (now : Timestamp) : Prog sql Account := do
  let existing ← execute (.selectAccountByName data.name)
  match existing with
  | some _ => httpError 409 "Account name already exists"
  | none =>
      -- flushed by the commit
      execute (.insertAccount ⟨id, data.name, false, now⟩)
      Prog.commitNow
      execute (.refreshAccount id)

/-! ## The outbox relay -/

/-- The message of an event. -/
def OutboxEvent.message (event : OutboxEvent) : Message :=
  ⟨event.id.str, event.eventType, event.payload⟩

/-- The loop of `outbox_publish` over a batch: the marks of the events the transport has accepted,
up to the first one on which it raises. -/
def publishEach (accepts : Message → Bool) (now : UUID → Timestamp) :
    List OutboxEvent → Prog sql (List (UUID × Timestamp))
  | [] => return []
  | event :: events =>
      if accepts event.message then do
        Prog.send (S := sql) event.message
        let marks ← publishEach accepts now events
        return (event.id, now event.id) :: marks
      -- the transport raises: the events after this one are not tried
      else return []

/-- The counts that `outbox_publish` returns. -/
structure PublishResult where
  published : ℕ
  failed : ℕ
  deriving DecidableEq, Repr

/-- `outbox_publish`, with the transport's answers and the times at which it marks the rows. -/
def outboxPublish (limit : ℕ) (accepts : Message → Bool) (now : UUID → Timestamp) :
    Prog sql PublishResult := do
  let events ← execute (.selectPendingEvents limit)
  let marks ← publishEach accepts now events
  -- the marks of a batch are flushed together
  execute (.updatePublishedAt marks)
  Prog.commitNow
  return ⟨marks.length, events.length - marks.length⟩

/-! ## Requests -/

/-- A request that writes to the ledger, with the values drawn for it. -/
inductive Call
  /-- `POST /accounts` -/
  | postAccount (data : AccountCreate) (id : UUID) (now : Timestamp)
  /-- `POST /transactions` -/
  | createTransaction (data : TransactionCreate) (gen : Generated)
  deriving DecidableEq

/-- A request, with what its environment does. -/
inductive Request
  /-- A request that writes to the ledger. -/
  | call (call : Call)
  /-- `POST /outbox/publish` -/
  | outboxPublish (limit : ℕ) (accepts : Message → Bool) (now : UUID → Timestamp)

/-- What a request answers. -/
inductive Response
  | account (account : Account)
  | transaction (txn : Transaction Decimal)
  | published (result : PublishResult)
  deriving DecidableEq, Repr

variable (H : HexHash)

/-- The program of a call. -/
def Call.program : Call → Prog sql Response
  | postAccount data id now => do
      let account ← LedgerApi.postAccount data id now
      return .account account
  | createTransaction data gen => do
      let txn ← LedgerApi.createTransaction H data gen
      return .transaction txn

/-- The program of a request. -/
def Request.program : Request → Prog sql Response
  | call c => c.program H
  | outboxPublish limit accepts now => do
      let result ← LedgerApi.outboxPublish limit accepts now
      return .published result

/-- Serve one request on its own: its answer and the database afterwards. -/
def serve (db : Database) (r : Request) : Except Exn Response × Database :=
  postgres.run (r.program H) db

/-- A database before its first transaction: accounts with distinct ids and names, nothing else. -/
structure Initial (db : Database) : Prop where
  nodup_ids : (db.accounts.map (·.id)).Nodup
  nodup_names : (db.accounts.map (·.name)).Nodup
  transactions : db.transactions = []
  ledgerEntries : db.ledgerEntries = []
  outboxEvents : db.outboxEvents = []

/-- The databases that some sequence of requests reaches. -/
inductive Reachable : Database → Prop
  | initial {db : Database} (h : Initial db) : Reachable db
  | serve {db : Database} (h : Reachable db) (r : Request) : Reachable (serve H db r).2

/-- The tables as the migrations leave them: the clearing account, whose id the database draws, and
the two system accounts of the payment orchestrator. -/
def migratedDatabase (clearingId : UUID) (now : Timestamp) : Database where
  accounts := [⟨clearingId, externalClearingName, true, now⟩,
    ⟨0xa0000000000040008000000000000001, "Payment Suspense", true, now⟩,
    ⟨0xa0000000000040008000000000000002, "Settlement Clearing", true, now⟩]
  transactions := []
  ledgerEntries := []
  outboxEvents := []

theorem initial_migratedDatabase {clearingId : UUID} (now : Timestamp)
    (h : clearingId ≠ 0xa0000000000040008000000000000001 ∧
      clearingId ≠ 0xa0000000000040008000000000000002) :
    Initial (migratedDatabase clearingId now) := by
  have hnames : ([externalClearingName, "Payment Suspense", "Settlement Clearing"]).Nodup := by
    decide
  refine ⟨?_, hnames, rfl, rfl, rfl⟩
  have hids : (0xa0000000000040008000000000000001 : UUID) ≠ 0xa0000000000040008000000000000002 := by
    decide
  simp [migratedDatabase, h.1, h.2, hids]

/-- The application: every call runs in a session of its own. -/
def ledger : System sql Database Writes Resource Call Response :=
  { postgres with program := Call.program H }

end LedgerApi
