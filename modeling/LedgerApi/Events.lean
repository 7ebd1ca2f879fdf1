import LedgerApi.Consumer
import LedgerApi.Library.DecimalReader
import LedgerApi.Retries

/-! # Events mirror transactions

The outbox has one event for each committed transaction, and no other (`EventsMirror`). What the
consumer decodes from an event is the transaction as it is stored (`Announces`): its id, type, key
and reference are the same strings whatever their characters.

The amount is the exception. The payload holds it as it came in and is written before the column
has rounded it, where the hash of the chain is of the rounded amount. It has the value that is
stored when it came in as a whole number of cents, in whatever form (`announcesValue_iff`), and
the schema lets others through. As long as none of these is accepted, events mirror transactions
one to one (`events_mirror`), whatever requests are lost. -/

namespace LedgerApi

open Sessions

variable {H : HexHash} {db : Database} {data : TransactionCreate} {gen : Generated} {post : Posting}

/-! ## What an event announces -/

/-- What the consumer finds under a key of a decoded payload. -/
def Decodes (e : OutboxEvent) (key : String) (value : Json.Data) : Prop :=
  ∃ payload, e.message.publish.decode = some payload ∧ payload.get? key = some value

/-- The `reference` of a payload. -/
def referenceData : Option String → Json.Data
  | some text => .str text
  | none => .null

/-- The number that the consumer finds under `amount`. -/
def OutboxEvent.amount? (e : OutboxEvent) : Option Decimal := do
  let payload ← e.message.publish.decode
  match payload.get? "amount" with
  | some (.str text) => Decimal.parse text
  | _ => none

/-- An event announces a transaction. -/
structure Announces (t : Transaction ℤ) (e : OutboxEvent) : Prop where
  aggregate_id : e.aggregateId = t.id
  event_type : e.eventType = "transaction." ++ t.type.value
  transaction_id : Decodes e "transaction_id" (.str t.id.str)
  type : Decodes e "type" (.str t.type.value)
  idempotency_key : Decodes e "idempotency_key" (.str t.idempotencyKey)
  reference : Decodes e "reference" (referenceData t.reference)
  /-- The amount is one that the column rounds to what is stored. -/
  amount : ∃ d ∈ e.amount?, d.toScale 2 = t.amount

/-- An event announces a transaction with the amount that is stored. -/
structure AnnouncesValue (t : Transaction ℤ) (e : OutboxEvent) : Prop extends Announces t e where
  amount_value : ∃ d ∈ e.amount?, d.NumEq (readAmount t.amount)

/-- What the consumer decodes from an event's payload. -/
theorem decode_eventPayload {e : OutboxEvent} {txn : Transaction Decimal}
    (h : e.payload = eventPayload txn) :
    e.message.publish.decode = some (.object [
      ("transaction_id", .str txn.id.str),
      ("type", .str txn.type.value),
      ("amount", .str txn.amount.str),
      ("idempotency_key", .str txn.idempotencyKey),
      ("reference", referenceData txn.reference)]) := by
  rw [decode_publish (h : e.message.payload = _)]
  cases txn.reference <;> rfl

/-- The amount that a posting announces is the one of the request. -/
theorem amount?_posting (H : HexHash) (db : Database) (data : TransactionCreate)
    (gen : Generated) :
    (writeTransactionEvent gen (linkedTransaction H db data gen)).amount? = some data.amount := by
  have hdecode := decode_eventPayload
    (e := writeTransactionEvent gen (linkedTransaction H db data gen)) rfl
  have hamount : (linkedTransaction H db data gen).amount = data.amount := rfl
  rw [OutboxEvent.amount?, hdecode, hamount]
  simp [Json.Data.get?, Decimal.parse_str]

/-- **A posting announces its transaction.** -/
theorem announces_posting (H : HexHash) (db : Database) (data : TransactionCreate)
    (gen : Generated) :
    Announces (postedRow H db data gen)
      (writeTransactionEvent gen (linkedTransaction H db data gen)) := by
  have hdecode := decode_eventPayload
    (e := writeTransactionEvent gen (linkedTransaction H db data gen)) rfl
  refine ⟨rfl, rfl, ⟨_, hdecode, ?_⟩, ⟨_, hdecode, ?_⟩, ⟨_, hdecode, ?_⟩, ⟨_, hdecode, ?_⟩,
    data.amount, amount?_posting H db data gen, rfl⟩
  all_goals rfl

/-- **A posting announces the amount that is stored** if it is one of a whole number of cents. -/
theorem announcesValue_iff (H : HexHash) (db : Database) (data : TransactionCreate)
    (gen : Generated) :
    AnnouncesValue (postedRow H db data gen)
      (writeTransactionEvent gen (linkedTransaction H db data gen)) ↔ WholeCents data.amount := by
  rw [← data.numEq_cents_iff]
  constructor
  · rintro ⟨-, d, hd, heq⟩
    obtain rfl := Option.some.inj ((amount?_posting H db data gen).symm.trans hd)
    exact heq
  · intro heq
    exact ⟨announces_posting H db data gen, data.amount, amount?_posting H db data gen, heq⟩

/-- Publishing an event changes nothing of what it announces. -/
theorem Announces.mark {t : Transaction ℤ} {e : OutboxEvent} (h : Announces t e)
    (marks : List (UUID × Timestamp)) : Announces t (e.mark marks) := by
  unfold OutboxEvent.mark
  split <;> exact ⟨h.aggregate_id, h.event_type, h.transaction_id, h.type, h.idempotency_key,
    h.reference, h.amount⟩

/-- Nor of its amount. -/
theorem AnnouncesValue.mark {t : Transaction ℤ} {e : OutboxEvent} (h : AnnouncesValue t e)
    (marks : List (UUID × Timestamp)) : AnnouncesValue t (e.mark marks) := by
  refine ⟨h.toAnnounces.mark marks, ?_⟩
  unfold OutboxEvent.mark
  split <;> exact h.amount_value

/-! ## One event for each transaction -/

section Mirror

variable {R : Transaction ℤ → OutboxEvent → Prop}

/-- The events are those of the transactions, in their order. -/
def EventsMirror (R : Transaction ℤ → OutboxEvent → Prop) (db : Database) : Prop :=
  List.Forall₂ R db.transactions db.outboxEvents

/-- Publishing leaves it so. -/
theorem EventsMirror.view_mark (h : EventsMirror R db)
    (hmark : ∀ {t e} (marks : List (UUID × Timestamp)), R t e → R t (e.mark marks))
    (marks : List (UUID × Timestamp)) : EventsMirror R (db.view (markWrites marks)) := by
  rw [EventsMirror, view_markWrites_transactions, view_markWrites_outboxEvents]
  exact List.forall₂_map_right_iff.mpr (h.imp fun _ _ hannounces => hmark marks hannounces)

/-- **A commit adds one event for one transaction**, or neither. -/
theorem EventsMirror.commit {call : Call} {w : Writes} (h : EventsMirror R db)
    (hcall : Commits H db call w) (hposting : ∀ {data gen post},
      call = .createTransaction data gen → Settles H db data gen post →
        R (postedRow H db data gen)
          (writeTransactionEvent gen (linkedTransaction H db data gen))) :
    EventsMirror R (db.view w) := by
  cases hcall with
  | postAccount =>
      rw [EventsMirror, Database.view_outboxEvents rfl]
      simpa [accountWrites, EventsMirror] using h
  | @createTransaction data gen post hs =>
      rw [EventsMirror, Database.view_outboxEvents rfl]
      exact List.rel_append h (List.Forall₂.cons (hposting rfl hs) .nil)

/-- At first there are neither. -/
theorem Initial.eventsMirror (h : Initial db) : EventsMirror R db := by
  rw [EventsMirror, h.transactions, h.outboxEvents]
  exact .nil

end Mirror

/-- The events and the transactions of a database, one to one. -/
structure OneToOne (db : Database) : Prop where
  /-- Each transaction has exactly one event, which announces it. -/
  event : ∀ t ∈ db.transactions, ∃ e, db.outboxEvents.filter (·.aggregateId = t.id) = [e] ∧
    AnnouncesValue t e
  /-- There is no other event. -/
  transaction : ∀ e ∈ db.outboxEvents, ∃ t ∈ db.transactions, AnnouncesValue t e
  count : db.outboxEvents.length = db.transactions.length

/-- Transactions with distinct ids and their events in the same order are one to one. -/
theorem EventsMirror.oneToOne (h : EventsMirror AnnouncesValue db)
    (hids : (db.transactions.map (·.id)).Nodup) : OneToOne db := by
  refine ⟨fun t ht => ?_, fun e he => ?_, h.length_eq.symm⟩
  · exact Grouping.filter_of_forall₂ h (fun _ _ hR => hR.aggregate_id) hids ht
  · exact Grouping.exists_of_forall₂ h he

/-- The condition on a request in a state: if it is accepted there as a new transaction, its amount
is a whole number of cents. -/
def SettlesInCents (H : HexHash) (db : Database) (r : Request) : Prop :=
  ∀ data gen post, r = .call (.createTransaction data gen) → Settles H db data gen post →
    WholeCents data.amount

variable (H) in
/-- The databases that some sequence of requests reaches, any of which may be lost, when all that
are accepted are of whole numbers of cents. -/
inductive ReachableInCents : Database → Prop
  | initial {db : Database} (h : Initial db) : ReachableInCents db
  | serve {db : Database} (h : ReachableInCents db) (n : ℕ) (r : Request)
      (hr : SettlesInCents H db r) : ReachableInCents (serveFor H n db r).2

theorem ReachableInCents.withFaults (h : ReachableInCents H db) : ReachableWithFaults H db := by
  induction h with
  | initial h => exact .initial h
  | serve _ n r _ ih => exact .serve ih n r

/-- **Events announce what is stored** as long as amounts are whole numbers of cents. -/
theorem ReachableInCents.eventsMirror (h : ReachableInCents H db) :
    EventsMirror AnnouncesValue db := by
  induction h with
  | initial h => exact h.eventsMirror
  | @serve db _ n r hr ih =>
      rcases serveFor_database n db r with hsame | hserve
      · rwa [hsame]
      rw [hserve]
      cases r with
      | call call =>
          rcases (serve_call H db call).1 with hsame | ⟨w, hcall, hview⟩
          · rwa [hsame]
          · rw [hview]
            refine ih.commit hcall fun hrequest hs => (announcesValue_iff H db _ _).mpr ?_
            exact hr _ _ _ (congrArg Request.call hrequest) hs
      | outboxPublish limit accepts now =>
          obtain ⟨marks, -, hview⟩ := serve_outboxPublish H db limit accepts now
          rw [hview]
          exact ih.view_mark (fun marks h => h.mark marks) marks

/-- The condition cannot be weakened: what a request that is accepted leaves is one to one only if
its amount is a whole number of cents. -/
theorem wholeCents_of_oneToOne (hs : Settles H db data gen post)
    (h : OneToOne (serve H db (.call (.createTransaction data gen))).2) :
    WholeCents data.amount := by
  obtain ⟨answer, hrun⟩ := (Commits.createTransaction hs).run
  have hview : (serve H db (.call (.createTransaction data gen))).2 =
      db.view (postingWrites H db data gen post) := congrArg Prod.snd hrun
  rw [hview] at h
  -- the event of the new transaction is the one that was posted with it
  obtain ⟨e, hevents, hannounces⟩ := h.event (postedRow H db data gen)
    (List.mem_append_right _ (List.mem_singleton_self _))
  have hmem : writeTransactionEvent gen (linkedTransaction H db data gen) ∈ [e] := by
    rw [← hevents, Database.view_outboxEvents rfl, List.mem_filter]
    exact ⟨List.mem_append_right _ (List.mem_singleton_self _), decide_eq_true rfl⟩
  rw [← List.mem_singleton.mp hmem] at hannounces
  exact (announcesValue_iff H db data gen).mp hannounces

/-- **One event for each transaction**, whatever requests were answered, refused or lost, as long
as the amounts of those that are accepted are whole numbers of cents. -/
theorem events_mirror (h : ReachableInCents H db) : OneToOne db :=
  h.eventsMirror.oneToOne (Database.nodup_transactionIds h.withFaults.reachable.consistent.keys)

/-- A deposit that is lost before its commit, and another attempt at it. -/
def retriedDeposit : Database :=
  (serveFor sha256 50 (serveFor sha256 3 sampleDatabase
      (.call (.createTransaction sampleDeposit (sampleGenerated 1)))).2
    (.call (.createTransaction sampleDeposit (sampleGenerated 2)))).2

/-- The second attempt has committed. -/
theorem retriedDeposit_outcome :
    retriedDeposit.transactions.map (·.id) = [22] ∧
      retriedDeposit.outboxEvents.map (·.id) = [25] := by
  decide +kernel

/-- Its transaction has its event, and there are no others. -/
theorem events_mirror_retriedDeposit :
    retriedDeposit.transactions.map (·.id) = [22] ∧ retriedDeposit.outboxEvents.map (·.id) = [25] ∧
      OneToOne retriedDeposit := by
  have hcents : ∀ db gen, SettlesInCents sha256 db
      (.call (.createTransaction sampleDeposit gen)) := by
    rintro db gen data _ post heq -
    cases heq
    decide
  exact ⟨retriedDeposit_outcome.1, retriedDeposit_outcome.2, events_mirror
    (.serve (.serve (.initial initial_sampleDatabase) 3 _ (hcents _ _)) 50 _ (hcents _ _))⟩

/-- A deposit of ten and `1E-34`. -/
def preciseDeposit : TransactionCreate :=
  { sampleDeposit with amount := ⟨10 ^ 35 + 1, -34⟩, valid_amount := by decide +kernel }

/-- What it leaves. -/
def preciselyDeposited : Database :=
  (serveFor sha256 50 sampleDatabase
    (.call (.createTransaction preciseDeposit (sampleGenerated 1)))).2

/-- It is accepted, and ten is stored. -/
theorem preciselyDeposited_outcome :
    preciselyDeposited.transactions.map (·.amount) = [1000] := by
  decide +kernel

/-- **An event that does not mirror its transaction**: ten is stored, and it announces more. -/
theorem event_announces_more :
    ReachableWithFaults sha256 preciselyDeposited ∧
      preciselyDeposited.transactions.map (·.amount) = [1000] ∧
      preciselyDeposited.outboxEvents.map (·.amount?) = [some ⟨10 ^ 35 + 1, -34⟩] ∧
      ¬ OneToOne preciselyDeposited := by
  have houtcome := preciselyDeposited_outcome
  refine ⟨.serve (.initial initial_sampleDatabase) 50 _, houtcome, ?_⟩
  unfold preciselyDeposited at houtcome ⊢
  -- the deposit has committed
  rcases serveFor_database (H := sha256) 50 sampleDatabase
    (.call (.createTransaction preciseDeposit (sampleGenerated 1))) with hsame | hserve
  · rw [hsame] at houtcome
    cases houtcome
  rw [hserve] at houtcome ⊢
  rcases (serve_call sha256 sampleDatabase
    (.createTransaction preciseDeposit (sampleGenerated 1))).1 with hsame | ⟨w, hcall, hview⟩
  · rw [hsame] at houtcome
    cases houtcome
  cases hcall with
  | createTransaction hs =>
      refine ⟨?_, fun hone => absurd (wholeCents_of_oneToOne hs hone) (by decide)⟩
      rw [hview]
      exact congrArg (fun amount? => [amount?]) (amount?_posting _ _ _ _)

end LedgerApi
