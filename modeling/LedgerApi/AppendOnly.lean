import LedgerApi.Reads
import LedgerApi.Relay
import LedgerApi.Retries

/-! # Append-only history

Whatever is done through the API, every row that was committed before is there afterwards, at its
place and with the same columns; only `published_at` may change, from NULL and by a call of the
relay (`Operation.extends`). Along a run, with any number of requests under way, rows and the chain
are only ever added to at the end (`append_only`). -/

namespace LedgerApi

open Sessions System

variable {H : HexHash} {db db' db'' db₀ : Database}

/-! ## Operations -/

/-- What can be done through the API. -/
inductive Operation : Type 1
  /-- A request that writes to the ledger, or one of the relay. -/
  | serve (r : Request)
  /-- Such a request, lost when it has done `n` operations. -/
  | lose (n : ℕ) (r : Request)
  /-- A listing, a statement, or whatever else issues queries of the ledger. -/
  | read {Answer : Type} (planner : Planner) (session : Prog reads Answer)
  /-- An audit, or whatever else issues queries of the audits. -/
  | audit {Report : Type} (session : Prog auditReads Report)

/-- PostgreSQL for sessions whose statements are queries: they see the committed rows and those that
they have written themselves, which a commit would add. -/
def queries {S : Signature} (answer : Database → (q : S.Stmt) → S.Reply q) :
    Store S Database Writes Resource where
  blank := .blank
  footprint _ := []
  engaged _ _ _ := true
  exec db w q := .ok (answer (db.view w) q, w)
  merge := Database.view

/-- The committed rows after an operation. -/
def Operation.effect (H : HexHash) (db : Database) : Operation → Database
  | serve r => (LedgerApi.serve H db r).2
  | lose n r => (serveFor H n db r).2
  | read planner session => ((queries (Query.answer planner)).run session db).2
  | audit session => ((queries AuditQuery.answer).run session db).2

/-- The operation is a call of the relay. -/
def Operation.Publishes : Operation → Prop
  | serve (.outboxPublish _ _ _) => True
  | lose _ (.outboxPublish _ _ _) => True
  | _ => False

/-! ## Extensions -/

/-- What becomes of an event in an operation: nothing, or it was pending and a relay publishes
it. -/
inductive Kept (publishes : Prop) : OutboxEvent → OutboxEvent → Prop
  | same {e : OutboxEvent} : Kept publishes e e
  | published {e : OutboxEvent} {now : Timestamp} (h : publishes)
      (hpending : e.publishedAt = none) :
      Kept publishes e { e with publishedAt := some now }

/-- Nothing of an event has changed but `published_at`. -/
def SameEvent (e e' : OutboxEvent) : Prop := e'.unmarked = e.unmarked

theorem SameEvent.refl (e : OutboxEvent) : SameEvent e e := rfl

/-- The rows of `db` stand in `db'` at their places, where `R` is what may become of an event. -/
structure Extends (R : OutboxEvent → OutboxEvent → Prop) (db db' : Database) : Prop where
  accounts : db.accounts <+: db'.accounts
  transactions : db.transactions <+: db'.transactions
  ledgerEntries : db.ledgerEntries <+: db'.ledgerEntries
  outboxEvents : ∀ (i : ℕ) e, db.outboxEvents[i]? = some e →
    ∃ e', db'.outboxEvents[i]? = some e' ∧ R e e'
  chain : db.chain <+: db'.chain

theorem Extends.refl {R : OutboxEvent → OutboxEvent → Prop} (hR : ∀ e, R e e) (db : Database) :
    Extends R db db :=
  ⟨List.prefix_refl _, List.prefix_refl _, List.prefix_refl _, fun _ e he => ⟨e, he, hR e⟩,
    List.prefix_refl _⟩

theorem Extends.trans {R : OutboxEvent → OutboxEvent → Prop}
    (hR : ∀ e e' e'', R e e' → R e' e'' → R e e'') (h : Extends R db db')
    (h' : Extends R db' db'') : Extends R db db'' := by
  refine ⟨h.accounts.trans h'.accounts, h.transactions.trans h'.transactions,
    h.ledgerEntries.trans h'.ledgerEntries, fun i e he => ?_, h.chain.trans h'.chain⟩
  obtain ⟨e', he', hkept⟩ := h.outboxEvents i e he
  obtain ⟨e'', he'', hkept'⟩ := h'.outboxEvents i e' he'
  exact ⟨e'', he'', hR e e' e'' hkept hkept'⟩

/-- **Writes extend the tables** if they update no committed row of the ledger: rows are added, and
events are marked. -/
theorem Extends.of_view {R : OutboxEvent → OutboxEvent → Prop} {p : Writes}
    (hp : p.rechained = []) (h : Consistent H db) (h' : Consistent H (db.view p))
    (hR : ∀ e ∈ db.outboxEvents, R e (e.mark p.published)) : Extends R db (db.view p) := by
  have htransactions : db.transactions <+: (db.view p).transactions := by
    rw [Database.view_transactions hp]
    exact List.prefix_append _ _
  refine ⟨List.prefix_append _ _, htransactions, List.prefix_append _ _, ?_, ?_⟩
  · intro i e he
    refine ⟨e.mark p.published, ?_, hR e (List.mem_of_getElem? he)⟩
    have hlt : i < db.outboxEvents.length := (List.getElem?_eq_some_iff.mp he).1
    show ((db.outboxEvents ++ p.outboxEvents).map (OutboxEvent.mark p.published))[i]? = _
    rw [List.getElem?_map, List.getElem?_append_left hlt, he]
    rfl
  · -- the chain is the table, before and after
    rw [h.chain_eq, h'.chain_eq]
    exact htransactions

/-! ## One operation -/

/-- **A session of queries leaves everything as it is**: it has written nothing that a commit of its
could add. -/
theorem queries_eval_store {S : Signature} {Answer : Type}
    (answer : Database → (q : S.Stmt) → S.Reply q) (x : Prog S Answer) (db : Database) :
    ((queries answer).eval x db .blank).store = db := by
  induction x with
  | ret a => rfl
  | raise e => rfl
  | exec q next ih => exact ih _
  | commit next ih =>
      show ((queries answer).eval next (db.view .blank) .blank).store = db
      rw [Database.view_blank]
      exact ih
  | emit m next ih => exact ih

/-- A relay marks events of its batch, which were pending. -/
theorem kept_mark {marks : List (UUID × Timestamp)} {limit : ℕ} (h : Consistent H db)
    (hmarks : marks.map Prod.fst <+: (db.pendingEvents.take limit).map (·.id)) {e : OutboxEvent}
    (he : e ∈ db.outboxEvents) : Kept True e (e.mark marks) := by
  unfold OutboxEvent.mark
  split
  case h_2 => exact .same
  case h_1 now hlookup =>
    obtain ⟨before, after, rfl, -⟩ := List.lookup_eq_some_iff.mp hlookup
    have hid : e.id ∈ (db.pendingEvents.take limit).map (·.id) := hmarks.subset (by simp)
    obtain ⟨e', he', hid⟩ := List.mem_map.mp hid
    obtain ⟨hmem, hpending⟩ := Database.mem_pendingEvents.mp (List.mem_of_mem_take he')
    obtain rfl := List.inj_on_of_nodup_map (Database.nodup_eventIds h.keys) hmem he hid
    exact .published trivial hpending

/-- **A request extends the tables.** -/
theorem Consistent.extends_serve (h : Consistent H db) (r : Request) :
    Extends (Kept (Operation.serve r).Publishes) db (serve H db r).2 := by
  cases r with
  | call call =>
      rcases (serve_call H db call).1 with hsame | ⟨p, hcall, hview⟩
      · rw [hsame]
        exact .refl (fun _ => .same) db
      · rw [hview]
        refine .of_view hcall.fresh.rechained h (h.commit hcall) fun e _ => ?_
        rw [hcall.published]
        exact .same
  | outboxPublish limit accepts now =>
      obtain ⟨marks, hmarks, hview⟩ := serve_outboxPublish H db limit accepts now
      rw [hview]
      exact .of_view rfl h (h.mark marks) fun e he => kept_mark h hmarks he

/-- **Every operation extends the tables.** -/
theorem Operation.extends (h : Consistent H db) (op : Operation) :
    Extends (Kept op.Publishes) db (op.effect H db) := by
  cases op with
  | serve r => exact h.extends_serve r
  | lose n r =>
      have hserve := h.extends_serve r
      have hpublishes : (Operation.lose n r).Publishes = (Operation.serve r).Publishes := by
        cases r <;> rfl
      rw [hpublishes]
      -- a lost request has done nothing or everything
      rcases serveFor_database n db r with hsame | hdone
      · rw [Operation.effect, hsame]
        exact .refl (fun _ => .same) db
      · rw [Operation.effect, hdone]
        exact hserve
  | read planner session =>
      have hsame : (Operation.read planner session).effect H db = db :=
        queries_eval_store _ session db
      rw [hsame]
      exact .refl (fun _ => .same) db
  | audit session =>
      have hsame : (Operation.audit session).effect H db = db := queries_eval_store _ session db
      rw [hsame]
      exact .refl (fun _ => .same) db

/-! ## Runs -/

/-- A commit of a writer, or one of a relay. -/
inductive GrowsBy (H : HexHash) (db : Database) : Database → Prop
  | commit {call : Call} {written : Writes} (h : Commits H db call written) :
      GrowsBy H db (db.view written)
  | mark (marks : List (UUID × Timestamp)) : GrowsBy H db (db.view (markWrites marks))

/-- Consistent tables stay consistent. -/
theorem GrowsBy.consistent (h : GrowsBy H db db') (hdb : Consistent H db) : Consistent H db' := by
  cases h with
  | commit hcall => exact hdb.commit hcall
  | mark marks => exact hdb.mark marks

/-- **A commit extends the tables**, as far as marks keep `R`. -/
theorem GrowsBy.extends {R : OutboxEvent → OutboxEvent → Prop} (h : GrowsBy H db db')
    (hdb : Consistent H db) (hmark : ∀ marks e, R e (e.mark marks)) : Extends R db db' := by
  have hafter := h.consistent hdb
  cases h with
  | commit hcall => exact .of_view hcall.fresh.rechained hdb hafter fun e _ => hmark _ e
  | mark marks => exact .of_view rfl hdb hafter fun e _ => hmark _ e

section Runs

variable {w w' : World sql Database Writes Resource Request Response}

/-- A step leaves the rows as they are or commits. -/
theorem growsBy_of_step (h : (api H).Reachable (World.init db₀) w) {a : System.Action Request}
    (hstep : (api H).step w a = some w') :
    w'.shared.store = w.shared.store ∨ GrowsBy H w.shared.store w'.shared.store := by
  rcases shared_step hstep with hsame | ⟨i, s, next, -, hs, hprog, hcommit⟩ |
    ⟨i, s, m, next, -, -, -, hemit⟩
  · exact Or.inl (congrArg _ hsame)
  · right
    rw [hcommit]
    show GrowsBy H w.shared.store (w.shared.store.view s.pending)
    cases hcall : s.call with
    | call call =>
        obtain ⟨written, hcommits, hview⟩ := commits_of_running h hs hcall hprog
        rw [hview]
        exact .commit hcommits
    | outboxPublish limit accepts now =>
        obtain ⟨marks, hmarks⟩ := marks_of_running h hs hcall
        rw [hmarks]
        exact .mark marks
  · left
    rw [hemit]
    rfl

/-- A step extends the tables, as far as marks keep `R`. -/
theorem extends_step {R : OutboxEvent → OutboxEvent → Prop} (hrefl : ∀ e, R e e)
    (hmark : ∀ marks e, R e (e.mark marks)) (h₀ : Reachable H db₀)
    (h : (api H).Reachable (World.init db₀) w) {a : System.Action Request}
    (hstep : (api H).step w a = some w') : Extends R w.shared.store w'.shared.store := by
  rcases growsBy_of_step h hstep with hsame | hgrows
  · rw [hsame]
    exact .refl hrefl _
  · exact hgrows.extends (consistent_of_api h₀ h) hmark

/-- So does a run. -/
theorem extends_of_api {R : OutboxEvent → OutboxEvent → Prop} (hrefl : ∀ e, R e e)
    (htrans : ∀ e e' e'', R e e' → R e' e'' → R e e'') (hmark : ∀ marks e, R e (e.mark marks))
    (h₀ : Reachable H db₀) (h : (api H).Reachable (World.init db₀) w)
    (h' : (api H).Reachable w w') : Extends R w.shared.store w'.shared.store := by
  induction h' with
  | refl => exact .refl hrefl _
  | step hreach _ hstep ih =>
      exact ih.trans htrans (extends_step hrefl hmark h₀ (h.trans hreach) hstep)

/-- **Append-only history**: on every state that interleaved requests reach, every operation keeps
all rows, but for the `published_at` that a relay sets where it was NULL; and from there on every
run, however interleaved, keeps all rows and extends the chain at its end. -/
theorem append_only (h₀ : Initial db₀) (h : (api H).Reachable (World.init db₀) w) :
    (∀ op : Operation,
        Extends (Kept op.Publishes) w.shared.store (op.effect H w.shared.store)) ∧
      ∀ w', (api H).Reachable w w' → Extends SameEvent w.shared.store w'.shared.store := by
  refine ⟨fun op => op.extends (consistent_of_api (.initial h₀) h), fun w' h' => ?_⟩
  exact extends_of_api SameEvent.refl (fun _ _ _ hsame hsame' => hsame'.trans hsame)
    OutboxEvent.unmarked_mark (.initial h₀) h h'

/-- A deposit is served. -/
def depositRun : Option (World sql Database Writes Resource Request Response) :=
  (api sha256).run (fun _ _ => True) sampleDatabase
    [.call (.createTransaction sampleDeposit (sampleGenerated 1))] (List.replicate 14 0)

theorem depositRun_outcome :
    depositRun.map (fun w => w.shared.store.pendingEvents.map (·.eventType)) =
      some ["transaction.deposit"] := by
  decide +kernel

/-- Its event is kept by a relay that publishes it and dies before its commit, and by one that does
not die. -/
theorem append_only_depositRun :
    ∃ w : World sql Database Writes Resource Request Response,
      w.shared.store.pendingEvents.length = 1 ∧
        (∀ n, Extends (Kept True) w.shared.store
          (serveFor sha256 n w.shared.store (.outboxPublish 50 (fun _ => true) fun _ => 7)).2) ∧
        Extends SameEvent w.shared.store w.shared.store := by
  obtain ⟨w, hw, houtcome⟩ := Option.map_eq_some_iff.mp depositRun_outcome
  obtain ⟨hoperations, hruns⟩ := append_only initial_sampleDatabase (Reaches.of_run hw)
  refine ⟨w, ?_, fun n => ?_, hruns w .refl⟩
  · simpa using congrArg List.length houtcome
  · exact hoperations (.lose n (.outboxPublish 50 (fun _ => true) fun _ => 7))

end Runs

end LedgerApi
