import LedgerApi.Events
import LedgerApi.Library.Dedup
import LedgerApi.Relay

/-! # Delivery

Writers, relays, a broker and a consumer in one run (`Delivers`): the broker may hand any message
that a relay has sent to the consumer, as often and as late as it likes. Relays send only what is in
the outbox and mark only what they have sent (`Relayed`), and the consumer counts each event once
(`Counted`); so its totals never exceed the committed transactions, and they agree once everything
has been relayed and handled (`effectively_once`). -/

namespace LedgerApi

open Sessions System

variable {H : HexHash} {db db₀ : Database}

/-! ## What the consumer counts -/

/-- `payload.get("type")`, where the payload is a dictionary. -/
def Message.kind (m : Message) : Option Json.Data := m.publish.decode.bind (·.get? "type")

/-- The message is of the given type. -/
def Message.IsOf (kind : String) (m : Message) : Prop := m.kind = some (.str kind)

instance (kind : String) (m : Message) : Decidable (m.IsOf kind) :=
  match h : m.kind with
  | some (.str kind') => decidable_of_iff (kind' = kind) (by rw [Message.IsOf, h]; simp)
  | some .null => isFalse (by rw [Message.IsOf, h]; simp)
  | some (.bool _) => isFalse (by rw [Message.IsOf, h]; simp)
  | some (.number _) => isFalse (by rw [Message.IsOf, h]; simp)
  | some (.array _) => isFalse (by rw [Message.IsOf, h]; simp)
  | some (.object _) => isFalse (by rw [Message.IsOf, h]; simp)
  | none => isFalse (by rw [Message.IsOf, h]; simp)

/-- The keys of `totals`. -/
def Consumer.kinds (c : Consumer) : List String := c.totals.map Prod.fst

@[simp] theorem Consumer.kinds_mark (c : Consumer) (eventId : Option String) :
    (c.mark eventId).kinds = c.kinds := rfl

@[simp] theorem Consumer.total_mark (c : Consumer) (eventId : Option String) (kind : String) :
    (c.mark eventId).total kind = c.total kind := rfl

@[simp] theorem Consumer.kinds_count (c : Consumer) (kind : String) :
    (c.count kind).kinds = c.kinds := by
  rw [kinds, count, List.map_map, kinds]
  refine List.map_congr_left fun total _ => ?_
  rw [Function.comp_apply]
  split <;> rfl

/-- Counting adds one to one total. -/
theorem Consumer.total_count {c : Consumer} {k : String} (hk : k ∈ c.kinds) (kind : String) :
    (c.count kind).total k = c.total k + if kind = k then 1 else 0 := by
  have hkey : ((fun total : String × ℕ => decide (total.1 = k)) ∘ fun total =>
      if total.1 = kind then (total.1, total.2 + 1) else total) =
      fun total : String × ℕ => decide (total.1 = k) := by
    funext total
    rw [Function.comp_apply]
    split <;> rfl
  rw [total, count, List.find?_map, hkey, total]
  cases hfind : c.totals.find? (fun total => total.1 = k) with
  | none =>
      obtain ⟨total, htotal, rfl⟩ := List.mem_map.mp hk
      exact absurd (List.find?_eq_none.mp hfind total htotal) (by simp)
  | some total =>
      have hfirst : total.1 = k := by simpa using List.find?_some hfind
      by_cases heq : kind = k
      · simp [hfirst, heq]
      · simp [hfirst, heq, Ne.symm heq]

/-- What the consumer has done: it has acted on some of the messages sent, each of another event,
and counted them by type. -/
structure Counted (sent : List Message) (c : Consumer) (acted : List Message) : Prop where
  once : Dedup.Once (fun m => some m.eventId) sent c.seen acted
  kinds : c.kinds = ["deposit", "withdrawal", "transfer"]
  total : ∀ kind ∈ c.kinds, c.total kind = acted.countP (·.IsOf kind)

theorem Counted.start : Counted [] .start [] := by
  refine ⟨.nil, rfl, ?_⟩
  decide

/-- More may be sent. -/
theorem Counted.mono {sent sent' : List Message} {c : Consumer} {acted : List Message}
    (h : Counted sent c acted) (hsent : sent ⊆ sent') : Counted sent' c acted :=
  ⟨h.once.mono hsent, h.kinds, h.total⟩

/-- **What `handle` does** with a message: nothing, where it has seen the event or cannot read the
payload; else it marks the event, having counted it if it has a type. -/
theorem handle_cases (interrupted : Bool) (c : Consumer) (m : Message) :
    ((handle interrupted c m.publish).1 = c ∧
        (some m.eventId ∈ c.seen ∨ ∀ kind, ¬ m.IsOf kind)) ∨
      (some m.eventId ∉ c.seen ∧
        ((∃ kind, m.IsOf kind ∧
            (handle interrupted c m.publish).1 = (c.count kind).mark (some m.eventId)) ∨
          (∀ kind, ¬ m.IsOf kind) ∧
            (handle interrupted c m.publish).1 = c.mark (some m.eventId))) := by
  have hid : m.publish.attribute "event_id" = some m.eventId := rfl
  unfold handle
  rw [hid]
  dsimp only
  split
  case isTrue hseen => exact Or.inl ⟨rfl, Or.inl (of_decide_eq_true hseen)⟩
  case isFalse hseen =>
    have hnew : some m.eventId ∉ c.seen := fun hmem => hseen (decide_eq_true hmem)
    split
    case h_1 hdecode =>
      refine Or.inl ⟨rfl, Or.inr fun kind hkind => ?_⟩
      rw [Message.IsOf, Message.kind, hdecode] at hkind
      cases hkind
    case h_2 members hdecode =>
      have hkind : m.kind = (Json.Data.object members).get? "type" := by
        rw [Message.kind, hdecode]
        rfl
      split
      case h_1 kind htype =>
        exact Or.inr ⟨hnew, Or.inl ⟨kind, hkind.trans htype, rfl⟩⟩
      case h_2 htype =>
        refine Or.inl ⟨rfl, Or.inr fun kind h => ?_⟩
        rw [Message.IsOf, hkind, htype] at h
        cases h
      case h_3 htype =>
        refine Or.inl ⟨rfl, Or.inr fun kind h => ?_⟩
        rw [Message.IsOf, hkind, htype] at h
        cases h
      case h_4 htype _ _ =>
        refine Or.inr ⟨hnew, Or.inr ⟨fun kind h => ?_, rfl⟩⟩
        exact htype kind (hkind.symm.trans h)
    case h_3 payload hobject hdecode =>
      refine Or.inl ⟨rfl, Or.inr fun kind h => ?_⟩
      -- what is not a dictionary has no members
      rw [Message.IsOf, Message.kind, hdecode, Option.bind_some] at h
      cases payload with
      | object members => exact hobject members rfl
      | _ => cases h

/-- A message is of one type. -/
theorem Message.IsOf.unique {m : Message} {k k' : String} (h : m.IsOf k) (h' : m.IsOf k') :
    k = k' :=
  Json.Data.str.inj (Option.some.inj (h.symm.trans h'))

/-- An event that is new is acted on: it is marked, after what was counted of it. -/
theorem Counted.snoc {sent acted : List Message} {c c' : Consumer} {m : Message}
    (h : Counted sent c acted) (hm : m ∈ sent) (hnew : some m.eventId ∉ c.seen)
    (hseen : c'.seen = c.seen) (hkinds : c'.kinds = c.kinds)
    (htotal : ∀ k ∈ c.kinds, c'.total k = c.total k + if m.IsOf k then 1 else 0) :
    Counted sent (c'.mark (some m.eventId)) (acted ++ [m]) := by
  have hmark : (c'.mark (some m.eventId)).seen = c.seen ++ [some m.eventId] := by
    rw [Consumer.mark, hseen]
    exact if_neg hnew
  refine ⟨?_, ?_, ?_⟩
  · rw [hmark]
    exact h.once.snoc hm hnew
  · rw [Consumer.kinds_mark, hkinds]
    exact h.kinds
  · intro k hk
    rw [Consumer.kinds_mark, hkinds] at hk
    rw [Consumer.total_mark, htotal k hk, h.total k hk, List.countP_append, List.countP_singleton]
    simp only [decide_eq_true_eq]

/-- **Step lemma** of the consumer: whatever it handles, it has counted each event once, and an
event with a type is among those it has seen from then on. -/
theorem Counted.handle {sent acted : List Message} {c : Consumer} {m : Message}
    (h : Counted sent c acted) (hm : m ∈ sent) (interrupted : Bool) :
    (∃ acted', Counted sent (handle interrupted c m.publish).1 acted') ∧
      c.seen ⊆ (handle interrupted c m.publish).1.seen ∧
      ((∃ kind, m.IsOf kind) → some m.eventId ∈ (handle interrupted c m.publish).1.seen) := by
  have hmark : ∀ c' : Consumer, c'.seen = c.seen → some m.eventId ∉ c.seen →
      c.seen ⊆ (c'.mark (some m.eventId)).seen ∧
        some m.eventId ∈ (c'.mark (some m.eventId)).seen := by
    intro c' hseen hnew
    rw [Consumer.mark, hseen, if_neg hnew]
    exact ⟨List.subset_append_left _ _, by simp⟩
  rcases handle_cases interrupted c m with ⟨hsame, hwhy⟩ |
    ⟨hnew, ⟨kind, hkind, hcounted⟩ | ⟨hnone, hmarked⟩⟩
  · rw [hsame]
    refine ⟨⟨acted, h⟩, List.Subset.refl _, fun ⟨kind, hkind⟩ => ?_⟩
    exact hwhy.resolve_right fun hnone => hnone kind hkind
  · rw [hcounted]
    refine ⟨⟨acted ++ [m], h.snoc hm hnew rfl (c.kinds_count kind) fun k hk => ?_⟩, ?_⟩
    · rw [Consumer.total_count hk]
      -- the message is of the type that is counted and of no other
      by_cases heq : kind = k
      · rw [if_pos heq, if_pos (heq ▸ hkind)]
      · rw [if_neg heq, if_neg fun hk' => heq (hkind.unique hk')]
    · obtain ⟨hsub, hmem⟩ := hmark (c.count kind) rfl hnew
      exact ⟨hsub, fun _ => hmem⟩
  · rw [hmarked]
    refine ⟨⟨acted ++ [m], h.snoc hm hnew rfl rfl fun k _ => ?_⟩, ?_⟩
    · rw [if_neg (hnone k), Nat.add_zero]
    · obtain ⟨hsub, hmem⟩ := hmark c rfl hnew
      exact ⟨hsub, fun _ => hmem⟩

/-! ## What relays send and mark -/

/-- The messages of the events in the outbox. -/
def Database.messages (db : Database) : List Message := db.outboxEvents.map OutboxEvent.message

@[simp] theorem OutboxEvent.message_mark (marks : List (UUID × Timestamp)) (e : OutboxEvent) :
    (e.mark marks).message = e.message := by
  unfold mark
  split <;> rfl

/-- A commit adds messages and changes none. -/
theorem Database.messages_view (db : Database) (p : Writes) :
    (db.view p).messages = db.messages ++ p.outboxEvents.map OutboxEvent.message := by
  have hcomp : OutboxEvent.message ∘ OutboxEvent.mark p.published = OutboxEvent.message :=
    funext (OutboxEvent.message_mark p.published)
  rw [messages, view, List.map_map, hcomp, List.map_append, messages]

/-- The ids of messages are distinct. -/
theorem Database.nodup_messages (h : db.uniqueKeys.Nodup) :
    (db.messages.map Message.eventId).Nodup := by
  have hids : db.messages.map Message.eventId = (db.outboxEvents.map (·.id)).map UUID.str := by
    rw [messages, List.map_map, List.map_map]
    rfl
  rw [hids]
  exact (nodup_eventIds h).map fun _ _ => UUID.str_inj

/-- What relays keep: they have sent messages of the outbox only, and marked only what they have
sent. -/
structure Relayed (g : Shared sql Database Request) : Prop where
  sent : g.sent ⊆ g.store.messages
  published : ∀ e ∈ g.store.outboxEvents, e.publishedAt ≠ none → e.message ∈ g.sent

/-- What has not been sent is pending. -/
theorem Relayed.mem_pendingEvents {g : Shared sql Database Request} (h : Relayed g)
    {e : OutboxEvent} (he : e ∈ g.store.outboxEvents) (hunsent : e.message ∉ g.sent) :
    e ∈ g.store.pendingEvents := by
  refine Database.mem_pendingEvents.mpr ⟨he, ?_⟩
  by_contra hpublished
  exact hunsent (h.published e he hpublished)

/-- What a relay reads is in the outbox. -/
theorem Database.message_mem_of_pending {e : OutboxEvent} {limit : ℕ}
    (he : e ∈ db.pendingEvents.take limit) : e.message ∈ db.messages :=
  List.mem_map_of_mem (mem_pendingEvents.mp (List.mem_of_mem_take he)).1

/-- What a relay in its loop knows of its batch. -/
structure Relaying (g : Shared sql Database Request) (done rest : List OutboxEvent) : Prop where
  mem : ∀ e ∈ done ++ rest, e.message ∈ g.store.messages
  sent : ∀ e ∈ done, e.message ∈ g.sent

/-- An event with a mark is published, or was. -/
theorem OutboxEvent.publishedAt_mark {marks : List (UUID × Timestamp)} {e : OutboxEvent}
    (h : (e.mark marks).publishedAt ≠ none) :
    e.publishedAt ≠ none ∨ e.id ∈ marks.map Prod.fst := by
  unfold mark at h
  split at h
  case h_1 now hlookup =>
    obtain ⟨before, after, rfl, -⟩ := List.lookup_eq_some_iff.mp hlookup
    right
    simp
  case h_2 => exact Or.inl h

/-- An event of the outbox whose message a relay has sent is the one it has sent. -/
theorem Relaying.message_mem {g : Shared sql Database Request} {done rest : List OutboxEvent}
    (h : Relaying g done rest) (hkeys : g.store.uniqueKeys.Nodup) {e : OutboxEvent}
    (he : e ∈ g.store.outboxEvents) (hid : e.id ∈ done.map (·.id)) : e.message ∈ g.sent := by
  obtain ⟨e₀, he₀, hid⟩ := List.mem_map.mp hid
  obtain ⟨e₁, he₁, hmessage⟩ := List.mem_map.mp (h.mem e₀ (List.mem_append_left _ he₀))
  have hid₁ : e₁.id = e₀.id := UUID.str_inj (congrArg Message.eventId hmessage)
  have hsame : e₁ = e :=
    List.inj_on_of_nodup_map (Database.nodup_eventIds hkeys) he₁ he (hid₁.trans hid)
  rw [← hsame, hmessage]
  exact h.sent e₀ he₀

/-- A commit of marks changes no message. -/
theorem Database.messages_view_mark (db : Database) (marks : List (UUID × Timestamp)) :
    (db.view (markWrites marks)).messages = db.messages :=
  (db.messages_view _).trans (List.append_nil _)

/-- Marks keep the invariant. -/
theorem Relayed.mark {g : Shared sql Database Request} {done rest : List OutboxEvent}
    (h : Relayed g) (hkeys : g.store.uniqueKeys.Nodup) (hbatch : Relaying g done rest)
    (r : Request) (now : UUID → Timestamp) :
    Relayed (g.commit postgres r (markWrites (marksOf now done))) := by
  constructor
  · rw [commit_postgres_store, Database.messages_view_mark]
    exact h.sent
  · intro e' he' hpublished
    rw [commit_postgres_store, view_markWrites_outboxEvents] at he'
    obtain ⟨e, he, rfl⟩ := List.mem_map.mp he'
    rw [OutboxEvent.message_mark]
    show e.message ∈ g.sent
    rcases OutboxEvent.publishedAt_mark hpublished with hbefore | hid
    · exact h.published e he hbefore
    · rw [map_fst_marksOf] at hid
      exact hbatch.message_mem hkeys he hid

/-- Events are committed unpublished. -/
theorem Commits.publishedAt {call : Call} {p : Writes} (h : Commits H db call p) :
    ∀ e ∈ p.outboxEvents, e.publishedAt = none := by
  cases h with
  | postAccount => exact nofun
  | createTransaction =>
      intro e he
      rw [List.mem_singleton.mp he]
      rfl

/-- A commit of a writer keeps the invariant. -/
theorem Relayed.commit {g : Shared sql Database Request} {call : Call} {p written : Writes}
    (h : Relayed g) (hcall : Commits H g.store call written)
    (hview : g.store.view p = g.store.view written) (r : Request) :
    Relayed (g.commit postgres r p) := by
  have hstore : (g.commit postgres r p).store = g.store.view written := hview
  constructor
  · rw [hstore, Database.messages_view]
    exact List.Subset.trans h.sent (List.subset_append_left _ _)
  · rw [hstore, Database.view_outboxEvents hcall.published]
    intro e he hpublished
    rcases List.mem_append.mp he with he | he
    · exact h.published e he hpublished
    · exact absurd (hcall.publishedAt e he) hpublished

/-- More may be in the outbox, and more may have been sent. -/
theorem Relaying.mono {g g' : Shared sql Database Request} {done rest : List OutboxEvent}
    (h : Relaying g done rest) (hmessages : g.store.messages ⊆ g'.store.messages)
    (hsent : g.sent ⊆ g'.sent) : Relaying g' done rest :=
  ⟨fun e he => hmessages (h.mem e he), fun e he => hsent (h.sent e he)⟩

/-- A message of a batch keeps the invariant. -/
theorem Relayed.emit {g : Shared sql Database Request} {done rest : List OutboxEvent}
    {e : OutboxEvent} (h : Relayed g) (hbatch : Relaying g done (e :: rest)) :
    Relayed (g.emit e.message) := by
  constructor
  · intro m hm
    rcases List.mem_append.mp hm with hm | hm
    · exact h.sent hm
    · rw [List.mem_singleton.mp hm]
      exact hbatch.mem e (by simp)
  · exact fun e' he' hpublished => List.mem_append_left _ (h.published e' he' hpublished)

/-- The batch goes on behind it. -/
theorem Relaying.emit {g : Shared sql Database Request} {done rest : List OutboxEvent}
    {e : OutboxEvent} (h : Relaying g done (e :: rest)) :
    Relaying (g.emit e.message) (done ++ [e]) rest := by
  constructor
  · intro e' he'
    rw [List.append_assoc] at he'
    exact h.mem e' he'
  · intro e' he'
    rcases List.mem_append.mp he' with he' | he'
    · exact List.mem_append_left _ (h.sent e' he')
    · rw [List.mem_singleton.mp he']
      exact List.mem_append_right _ List.mem_cons_self

theorem relayInvariant_relayed (h₀ : Initial db₀) :
    RelayInvariant H db₀ (fun _ _ => True) Relayed Relaying where
  read w i s limit next _ _ _ _ _ :=
    ⟨fun e he => Database.message_mem_of_pending he, nofun⟩
  emit g done e rest hG hI :=
    ⟨hG.emit hI, hI.emit, fun _ _ hI' =>
      hI'.mono (List.Subset.refl _) (List.subset_append_left _ _)⟩
  mark w r done rest now hw hG hI := by
    refine ⟨hG.mark (consistent_of_api (.initial h₀) hw).keys hI r now, fun _ _ hI' => ?_⟩
    refine hI'.mono ?_ (List.Subset.refl _)
    rw [commit_postgres_store, Database.messages_view_mark]
    exact List.Subset.refl _
  commit w i s next call written hw _ _ _ _ hG hcall hview := by
    refine ⟨hG.commit hcall hview s.call, fun _ _ hI => hI.mono ?_ (List.Subset.refl _)⟩
    rw [commit_postgres_store, Database.messages_view]
    exact List.subset_append_left _ _

/-- **Relays send what is in the outbox and mark what they have sent**, in every run. -/
theorem relayed_of_api {w : World sql Database Writes Resource Request Response}
    (h₀ : Initial db₀) (h : (api H).Reachable (World.init db₀) w) : Relayed w.shared := by
  refine (relayInvariant_relayed h₀).of_reaches h ⟨List.nil_subset _, fun e he => ?_⟩
  rw [h₀.outboxEvents] at he
  cases he

/-! ## The whole way -/

/-- The application with its broker and its consumer. -/
structure Delivery where
  world : World sql Database Writes Resource Request Response
  consumer : Consumer
  /-- The messages that have been handled, in order. -/
  handled : List Message

/-- The committed tables. -/
abbrev Delivery.database (d : Delivery) : Database := d.world.shared.store

/-- The messages that the transport has accepted. -/
abbrev Delivery.sent (d : Delivery) : List Message := d.world.shared.sent

/-- The consumer handles a message. -/
def Delivery.deliver (d : Delivery) (m : Message) (interrupted : Bool) : Delivery where
  world := d.world
  consumer := (handle interrupted d.consumer m.publish).1
  handled := d.handled ++ [m]

/-- The runs: requests are served interleaved, and any message that has been accepted may be handed
to the consumer at any time, also again. -/
inductive Delivers (H : HexHash) (db₀ : Database) : Delivery → Prop
  | start : Delivers H db₀ ⟨World.init db₀, .start, []⟩
  | serve {d : Delivery} {a : System.Action Request}
      {w : World sql Database Writes Resource Request Response} (h : Delivers H db₀ d)
      (hstep : (api H).step d.world a = some w) : Delivers H db₀ { d with world := w }
  | deliver {d : Delivery} {m : Message} (h : Delivers H db₀ d) (hm : m ∈ d.sent)
      (interrupted : Bool) : Delivers H db₀ (d.deliver m interrupted)

/-- **Run lemma**: the consumer has counted each event once, and what it has handled of a type it
has seen. -/
theorem Delivers.counted {d : Delivery} (h : Delivers H db₀ d) :
    (api H).Reachable (World.init db₀) d.world ∧ (∃ acted, Counted d.sent d.consumer acted) ∧
      ∀ m ∈ d.handled, (∃ kind, m.IsOf kind) → some m.eventId ∈ d.consumer.seen := by
  induction h with
  | start => exact ⟨.refl, ⟨[], Counted.start⟩, nofun⟩
  | serve _ hstep ih =>
      obtain ⟨hreach, ⟨acted, hcounted⟩, hseen⟩ := ih
      exact ⟨hreach.step trivial hstep, ⟨acted, hcounted.mono (sent_subset_step hstep)⟩, hseen⟩
  | @deliver d m _ hm interrupted ih =>
      obtain ⟨hreach, ⟨acted, hcounted⟩, hseen⟩ := ih
      obtain ⟨hcounted', hsub, hnew⟩ := hcounted.handle hm interrupted
      refine ⟨hreach, hcounted', fun m' hm' hkind => ?_⟩
      rcases List.mem_append.mp hm' with hm' | hm'
      · exact hsub (hseen m' hm' hkind)
      · rw [List.mem_singleton.mp hm'] at hkind ⊢
        exact hnew hkind

/-- An event's message is of the type of its transaction. -/
theorem Announces.isOf_iff {t : Transaction ℤ} {e : OutboxEvent} (h : Announces t e)
    (k : TransactionType) : e.message.IsOf k.value ↔ t.type = k := by
  obtain ⟨payload, hdecode, htype⟩ := h.type
  rw [Message.IsOf, Message.kind, hdecode, Option.bind_some, htype]
  constructor
  · intro heq
    exact TransactionType.value_inj (Json.Data.str.inj (Option.some.inj heq))
  · rintro rfl
    rfl

/-- Events mirror transactions in every interleaving. -/
theorem eventsMirror_of_api {w : World sql Database Writes Resource Request Response}
    (h₀ : Initial db₀) (h : (api H).Reachable (World.init db₀) w) :
    EventsMirror Announces w.shared.store :=
  api_store_invariant h h₀.eventsMirror
    (fun db _ _ hmirror hcall => hmirror.commit hcall fun _ _ => announces_posting H db _ _)
    fun _ marks hmirror => hmirror.view_mark (fun marks h => h.mark marks) marks

/-- There are as many messages of a type as transactions. -/
theorem EventsMirror.countP_messages (h : EventsMirror Announces db) (k : TransactionType) :
    db.messages.countP (·.IsOf k.value) = db.transactions.countP (·.type = k) := by
  unfold EventsMirror at h
  rw [Database.messages]
  generalize db.transactions = transactions at h ⊢
  generalize db.outboxEvents = events at h ⊢
  induction h with
  | nil => rfl
  | cons hannounces _ ih =>
      rw [List.map_cons, List.countP_cons, List.countP_cons, ih]
      simp only [decide_eq_true_eq, hannounces.isOf_iff k]

/-- **Effectively once**: the totals of the consumer never exceed the committed transactions, and
they are equal when nothing is pending and all that was sent has been handled. -/
theorem effectively_once {d : Delivery} (h₀ : Initial db₀) (h : Delivers H db₀ d)
    (k : TransactionType) :
    d.consumer.total k.value ≤ d.database.transactions.countP (·.type = k) ∧
      (d.database.pendingEvents = [] → (∀ m ∈ d.sent, m ∈ d.handled) →
        d.consumer.total k.value = d.database.transactions.countP (·.type = k)) := by
  obtain ⟨hreach, ⟨acted, hcounted⟩, hseen⟩ := h.counted
  have hrelayed := relayed_of_api h₀ hreach
  have hmirror : EventsMirror Announces d.database := eventsMirror_of_api h₀ hreach
  have htotal : d.consumer.total k.value = acted.countP (·.IsOf k.value) := by
    refine hcounted.total _ ?_
    rw [hcounted.kinds]
    cases k <;> decide
  rw [htotal, ← hmirror.countP_messages k]
  refine ⟨hcounted.once.countP_le hrelayed.sent _, fun hpending hhandled => ?_⟩
  have hkeys := (consistent_of_api (.initial h₀) hreach).keys
  refine hcounted.once.countP_eq hrelayed.sent ?_ (fun m hm => ?_) _
  · have hids := (Database.nodup_messages hkeys).map (Option.some_injective _)
    rwa [List.map_map] at hids
  · obtain ⟨e, he, rfl⟩ := List.mem_map.mp hm
    -- an event that is not pending has been sent, hence handled
    have hsent : e.message ∈ d.sent := by
      by_contra hunsent
      have hmem := hrelayed.mem_pendingEvents he hunsent
      rw [hpending] at hmem
      cases hmem
    obtain ⟨t, -, hannounces⟩ := Grouping.exists_of_forall₂ hmirror he
    refine hseen _ (hhandled _ hsent) ⟨t.type.value, ?_⟩
    exact (hannounces.isOf_iff t.type).mpr rfl

/-- The consumer handles some messages, one after the other, each time without acknowledging. -/
def Delivery.deliverAll (d : Delivery) : List Message → Delivery
  | [] => d
  | m :: ms => (d.deliver m true).deliverAll ms

theorem Delivers.deliverAll {d : Delivery} (h : Delivers H db₀ d) {ms : List Message}
    (hms : ms ⊆ d.sent) :
    Delivers H db₀ (d.deliverAll ms) ∧ (d.deliverAll ms).world = d.world ∧
      (d.deliverAll ms).handled = d.handled ++ ms := by
  induction ms generalizing d with
  | nil => exact ⟨h, rfl, (List.append_nil _).symm⟩
  | cons m ms ih =>
      obtain ⟨hm, hms⟩ := List.cons_subset.mp hms
      obtain ⟨hdelivers, hworld, hhandled⟩ := ih (h.deliver hm true) hms
      refine ⟨hdelivers, hworld, ?_⟩
      rw [Delivery.deliverAll, hhandled, Delivery.deliver, List.append_assoc]
      rfl

/-- A run of the requests alone. -/
theorem Delivers.of_reachable {w : World sql Database Writes Resource Request Response}
    (h : (api H).Reachable (World.init db₀) w) : Delivers H db₀ ⟨w, .start, []⟩ := by
  induction h with
  | refl => exact .start
  | step _ _ hstep ih => exact ih.serve hstep

/-- A deposit is relayed by two calls at once: both read its event and send it, and the first of
them gets no further. -/
def relayedTwice : Option (World sql Database Writes Resource Request Response) :=
  (api sha256).run (fun _ _ => True) sampleDatabase
    [.call (.createTransaction sampleDeposit (sampleGenerated 1)),
      .outboxPublish 50 (fun _ => true) (fun _ => 7),
      .outboxPublish 50 (fun _ => true) (fun _ => 8)]
    (List.replicate 13 0 ++ [1, 1] ++ List.replicate 5 2)

/-- The event has been sent twice, and nothing is pending. -/
theorem relayedTwice_outcome :
    relayedTwice.map (fun w => (w.shared.sent.map (·.eventType), w.shared.store.pendingEvents,
      w.shared.store.transactions.countP (·.type = .deposit))) =
        some (["transaction.deposit", "transaction.deposit"], [], 1) := by
  decide +kernel

/-- It is handled twice and counted once. -/
theorem effectively_once_relayedTwice :
    ∃ d, Delivers sha256 sampleDatabase d ∧ d.handled.length = 2 ∧
      d.consumer.total "deposit" = 1 := by
  obtain ⟨w, hw, houtcome⟩ := Option.map_eq_some_iff.mp relayedTwice_outcome
  simp only [Prod.mk.injEq] at houtcome
  obtain ⟨hsent, hpending, hcount⟩ := houtcome
  obtain ⟨hdelivers, hworld, hhandled⟩ :=
    (Delivers.of_reachable (Reaches.of_run hw)).deliverAll (List.Subset.refl w.shared.sent)
  have honce := effectively_once initial_sampleDatabase hdelivers .deposit
  rw [Delivery.database, Delivery.sent, hworld, hhandled] at honce
  refine ⟨_, hdelivers, ?_, (honce.2 hpending fun m hm => hm).trans hcount⟩
  rw [hhandled]
  simpa using congrArg List.length hsent

end LedgerApi
