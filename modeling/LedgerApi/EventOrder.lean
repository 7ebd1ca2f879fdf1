import LedgerApi.Delivery
import LedgerApi.Library.Sequencing

/-! # The order of events

A relay sends the oldest pending events first, by `created_at`, which is when their transactions
started; the ledger has them in the order of `chain_seq`, in which they committed. Where no relay
reads its batch while an unaccepted event started no later than one before it in the ledger
(`ReadsInOrder`), the transport accepts every event after all those before it in the ledger
(`events_in_order`), for any number of relays and whatever fails. A deposit that starts first and
commits last is sent first (`event_overtakes`). -/

namespace LedgerApi

open Sessions System Sequencing

variable {H : HexHash} {db db₀ : Database}

/-- Every event is accepted after those of the transactions before its own in the chain. -/
def InLedgerOrder (db : Database) (sent : List Message) : Prop :=
  ∀ t₁ ∈ db.transactions, ∀ t₂ ∈ db.transactions, ∀ m n : ℤ, t₁.chainSeq = some m →
    t₂.chainSeq = some n → m < n → ∀ e₁ ∈ db.outboxEvents, ∀ e₂ ∈ db.outboxEvents,
      e₁.aggregateId = t₁.id → e₂.aggregateId = t₂.id →
        ∀ before after, sent = before ++ e₂.message :: after → e₁.message ∈ before

/-! ## The order of the ledger -/

/-- The transaction in row `i` has number `i + 1`. -/
theorem Consistent.chainSeq_getElem (h : Consistent H db) {i : ℕ}
    (hi : i < db.transactions.length) : db.transactions[i].chainSeq = some ((i : ℤ) + 1) := by
  have heq := congrArg (·[i]?) h.chain_seq
  simpa [hi] using heq

/-- Events stand in the outbox as their transactions do in the chain. -/
theorem EventsMirror.sublist (hmirror : EventsMirror Announces db) (h : Consistent H db)
    {t₁ t₂ : Transaction ℤ} (ht₁ : t₁ ∈ db.transactions) (ht₂ : t₂ ∈ db.transactions) {m n : ℤ}
    (hm : t₁.chainSeq = some m) (hn : t₂.chainSeq = some n) (hmn : m < n) {e₁ e₂ : OutboxEvent}
    (he₁ : e₁ ∈ db.outboxEvents) (he₂ : e₂ ∈ db.outboxEvents) (hid₁ : e₁.aggregateId = t₁.id)
    (hid₂ : e₂.aggregateId = t₂.id) : List.Sublist [e₁.message, e₂.message] db.messages := by
  -- an event and its transaction have the same place
  have hplace : ∀ {t e}, t ∈ db.transactions → e ∈ db.outboxEvents → e.aggregateId = t.id →
      ∃ (i : ℕ) (hi : i < db.outboxEvents.length), db.outboxEvents[i] = e ∧
        t.chainSeq = some ((i : ℤ) + 1) := by
    intro t e ht he hid
    obtain ⟨i, hi, rfl⟩ := List.mem_iff_getElem.mp he
    obtain ⟨hlength, hget⟩ := List.forall₂_iff_get.mp hmirror
    have hi' : i < db.transactions.length := hlength ▸ hi
    have hannounces := (hget i hi' hi).aggregate_id
    have hsame : t = db.transactions[i] :=
      List.inj_on_of_nodup_map (Database.nodup_transactionIds h.keys) ht (List.getElem_mem hi')
        (hid.symm.trans hannounces)
    exact ⟨i, hi, rfl, by rw [hsame, h.chainSeq_getElem hi']⟩
  obtain ⟨i, hi, rfl, hi'⟩ := hplace ht₁ he₁ hid₁
  obtain ⟨j, hj, rfl, hj'⟩ := hplace ht₂ he₂ hid₂
  have hij : i < j := by
    have hi'' := Option.some.inj (hi'.symm.trans hm)
    have hj'' := Option.some.inj (hj'.symm.trans hn)
    omega
  have hpairs : db.outboxEvents.Pairwise fun a b => List.Sublist [a, b] db.outboxEvents :=
    List.pairwise_iff_forall_sublist.mpr fun h => h
  exact (List.pairwise_iff_getElem.mp hpairs i j hi hj hij).map OutboxEvent.message

/-! ## Reading in order -/

/-- The events that the transport has not accepted yet, in the order of the ledger. -/
def unaccepted (g : Shared sql Database Request) : List OutboxEvent :=
  g.store.outboxEvents.filter fun e => e.message ∉ g.sent

/-- Whether the session in a slot reads its batch when it goes on. -/
def readsBatch : Slot sql Writes Resource Request Response → Bool
  | .running ⟨_, .exec (.selectPendingEvents _) _, _, _, _⟩ => true
  | _ => false

/-- **Reading in order**: when a relay reads its batch, the transactions whose events have not been
accepted yet have started in the order in which they committed. -/
def ReadsInOrder (w : World sql Database Writes Resource Request Response) : Action Request → Prop
  | .advance i => ∀ slot ∈ w.slots[i]?, readsBatch slot = true →
      (unaccepted w.shared).Pairwise fun e f => e.createdAt < f.createdAt
  | _ => True

instance (w : World sql Database Writes Resource Request Response) :
    (a : Action Request) → Decidable (ReadsInOrder w a)
  | .start _ => isTrue trivial
  | .acquire _ => isTrue trivial
  | .advance i => inferInstanceAs (Decidable (∀ slot ∈ w.slots[i]?, readsBatch slot = true →
      (unaccepted w.shared).Pairwise fun e f => e.createdAt < f.createdAt))
  | .fault _ => isTrue trivial

/-- **A batch read in order is safe.** -/
theorem safe_of_readsInOrder {g : Shared sql Database Request} (hkeys : g.store.uniqueKeys.Nodup)
    (hrelayed : Relayed g) (horder : InOrder g.store.messages g.sent)
    (hreads : (unaccepted g).Pairwise fun e f => e.createdAt < f.createdAt) (limit : ℕ) :
    Safe g.store.messages g.sent
      ((g.store.pendingEvents.take limit).map OutboxEvent.message) := by
  have hnodup : g.store.messages.Nodup :=
    List.Nodup.of_map Message.eventId (Database.nodup_messages hkeys)
  refine Safe.of_sorted OutboxEvent.createdAt (g.store.pendingEvents.drop limit) horder hnodup
    hreads ?_ ?_ ?_
  · intro e he hunsent
    rw [List.take_append_drop]
    exact hrelayed.mem_pendingEvents he hunsent
  · exact fun e he => (Database.mem_pendingEvents.mp (List.mem_of_mem_take he)).1
  · rw [List.take_append_drop]
    exact g.store.pairwise_pendingEvents

/-- The messages of a commit are new. -/
theorem Consistent.messages_commit (h : Consistent H db) {call : Call} {p written : Writes}
    (hcall : Commits H db call written) (hview : db.view p = db.view written) :
    (db.view p).messages = db.messages ++ written.outboxEvents.map OutboxEvent.message ∧
      ∀ m ∈ db.messages, m ∉ written.outboxEvents.map OutboxEvent.message := by
  rw [hview, Database.messages_view]
  refine ⟨rfl, fun m hm hm' => ?_⟩
  have hnodup := List.Nodup.of_map Message.eventId (Database.nodup_messages (h.commit hcall).keys)
  rw [Database.messages_view] at hnodup
  exact (List.nodup_append.mp hnodup).2.2 m hm m hm' rfl

/-- What is left of every batch is safe. -/
theorem relayInvariant_inOrder (h₀ : Initial db₀) :
    RelayInvariant H db₀ ReadsInOrder (fun g => InOrder g.store.messages g.sent) fun g _ rest =>
      (∀ e ∈ rest, e.message ∈ g.store.messages) ∧
        Safe g.store.messages g.sent (rest.map OutboxEvent.message) := by
  constructor
  case read =>
    rintro w i s limit next hw hadm hs hprog hG
    have hkeys := (consistent_of_api (.initial h₀) hw).keys
    refine ⟨fun e he => Database.message_mem_of_pending he,
      safe_of_readsInOrder hkeys (relayed_of_api h₀ hw) hG (hadm _ hs ?_) limit⟩
    obtain ⟨call, prog, p, held, acquired⟩ := s
    obtain rfl : prog = _ := hprog
    rfl
  case emit =>
    rintro g done e rest hG ⟨hmem, hsafe⟩
    refine ⟨hG.snoc hsafe, ⟨fun e' he' => hmem e' (List.mem_cons_of_mem _ he'), hsafe.tail⟩, ?_⟩
    exact fun done' rest' hI => ⟨hI.1, hI.2.mono (List.subset_append_left _ _)⟩
  case mark =>
    intro w r done rest now _ hG _
    rw [commit_postgres_store, Database.messages_view_mark]
    exact ⟨hG, fun _ _ hI => hI⟩
  case commit =>
    intro w i s next call written hw _ _ _ _ hG hcall hview
    obtain ⟨hmessages, hnew⟩ :=
      (consistent_of_api (.initial h₀) hw).messages_commit hcall hview
    rw [commit_postgres_store, hmessages]
    refine ⟨hG.append_ledger fun m hm => hnew m ((relayed_of_api h₀ hw).sent hm), ?_⟩
    rintro done rest ⟨hmem, hsafe⟩
    refine ⟨fun e he => List.mem_append_left _ (hmem e he), hsafe.append_ledger ?_⟩
    intro m hm
    obtain ⟨e, he, rfl⟩ := List.mem_map.mp hm
    exact hnew _ (hmem e he)

/-- **Events in order**: where relays read in order, an event is accepted after those of all
transactions before its own in the chain. -/
theorem events_in_order {w : World sql Database Writes Resource Request Response}
    (h₀ : Initial db₀) (h : (api H).Reaches ReadsInOrder (World.init db₀) w) :
    InLedgerOrder w.shared.store w.shared.sent := by
  have hconsistent : Consistent H w.shared.store := consistent_of_api (.initial h₀) h.reachable
  have horder : InOrder w.shared.store.messages w.shared.sent :=
    (relayInvariant_inOrder h₀).of_reaches h InOrder.nil
  have hmirror : EventsMirror Announces w.shared.store := eventsMirror_of_api h₀ h.reachable
  intro t₁ ht₁ t₂ ht₂ m n hm hn hmn e₁ he₁ e₂ he₂ hid₁ hid₂ before after hsent
  exact horder _ _ (hmirror.sublist hconsistent ht₁ ht₂ hm hn hmn he₁ he₂ hid₁ hid₂) before after
    hsent

/-- A deposit, a relay that fails to publish its event, another deposit, and two relays that take
one event each. -/
def eventsInTurn : Option (World sql Database Writes Resource Request Response) :=
  (api sha256).run ReadsInOrder sampleDatabase
    [.call (.createTransaction sampleDeposit (sampleGenerated 1)),
      .outboxPublish 50 (fun _ => false) (fun _ => 7),
      .call (.createTransaction laterDeposit (sampleGenerated 2)),
      .outboxPublish 1 (fun _ => true) (fun _ => 8),
      .outboxPublish 1 (fun _ => true) (fun _ => 9)]
    (List.replicate 13 0 ++ List.replicate 4 1 ++ List.replicate 14 2 ++ List.replicate 5 3 ++
      List.replicate 5 4)

/-- Both events are accepted. -/
theorem eventsInTurn_outcome :
    eventsInTurn.map (fun w => (w.shared.sent.map (·.eventType), w.shared.store.pendingEvents)) =
      some (["transaction.deposit", "transaction.deposit"], []) := by
  decide +kernel

/-- They are accepted in order. -/
theorem events_in_order_eventsInTurn :
    ∃ w : World sql Database Writes Resource Request Response, w.shared.sent.length = 2 ∧
      InLedgerOrder w.shared.store w.shared.sent := by
  obtain ⟨w, hw, houtcome⟩ := Option.map_eq_some_iff.mp eventsInTurn_outcome
  have hsent := congrArg (fun outcome => outcome.1.length) houtcome
  rw [List.length_map] at hsent
  exact ⟨w, hsent, events_in_order initial_sampleDatabase (Reaches.of_run hw)⟩

/-- A deposit starts, another one starts and commits, and then the first one goes on. -/
def overtakingEvents : Option (World sql Database Writes Resource Request Response) :=
  (api sha256).run (fun _ _ => True) sampleDatabase
    [.call (.createTransaction sampleDeposit (sampleGenerated 1)),
      .call (.createTransaction laterDeposit (sampleGenerated 2)),
      .outboxPublish 50 (fun _ => true) (fun _ => 7)]
    ([0] ++ List.replicate 13 1 ++ List.replicate 12 0 ++ List.replicate 6 2)

/-- Two transactions of the chain whose events were accepted the other way round. -/
def SentBackwards (db : Database) (sent : List Message) : Prop :=
  ∃ t₁ ∈ db.transactions, ∃ t₂ ∈ db.transactions, t₁.chainSeq = some 1 ∧ t₂.chainSeq = some 2 ∧
    ∃ e₁ ∈ db.outboxEvents, ∃ e₂ ∈ db.outboxEvents, e₁.aggregateId = t₁.id ∧
      e₂.aggregateId = t₂.id ∧ sent = [e₂.message, e₁.message]

instance (db : Database) (sent : List Message) : Decidable (SentBackwards db sent) := by
  unfold SentBackwards
  infer_instance

theorem overtakingEvents_outcome :
    overtakingEvents.map (fun w => decide (SentBackwards w.shared.store w.shared.sent)) =
      some true := by
  decide +kernel

/-- **An event overtakes** that of a transaction before its own in the chain, with one relay and a
transport that never fails. -/
theorem event_overtakes :
    Initial sampleDatabase ∧ ∃ w, (api sha256).Reachable (World.init sampleDatabase) w ∧
      ¬ InLedgerOrder w.shared.store w.shared.sent := by
  obtain ⟨w, hw, houtcome⟩ := Option.map_eq_some_iff.mp overtakingEvents_outcome
  obtain ⟨t₁, ht₁, t₂, ht₂, hm, hn, e₁, he₁, e₂, he₂, hid₁, hid₂, hsent⟩ :=
    of_decide_eq_true houtcome
  refine ⟨initial_sampleDatabase, w, Reaches.of_run hw, fun horder => ?_⟩
  have hmem := horder t₁ ht₁ t₂ ht₂ 1 2 hm hn (by decide) e₁ he₁ e₂ he₂ hid₁ hid₂
    [] [e₁.message] hsent
  cases hmem

end LedgerApi
