import LedgerApi.Consistency
import LedgerApi.Library.Hiding

/-! # The whole application, interleaved

All requests in one system, those that write to the ledger and the calls of the relay (`api`). The
relay reads and writes nothing but `published_at`, which no other request reads; so it can be hidden
(`hideRelay`), and whatever is known of the interleaved writers holds beside any number of relays:
a session about to commit commits what its request posts (`commits_of_running`), and the tables stay
consistent (`consistent_of_api`). -/

namespace LedgerApi

open Sessions System

/-- The application, relay included: every request runs in a session of its own. -/
def api (H : HexHash) : System sql Database Writes Resource Request Response :=
  { postgres with program := Request.program H }

variable {H : HexHash} {db db' : Database} {data : TransactionCreate} {gen : Generated}
  {post : Posting}

/-! ## What the writers use -/

/-- A program of plain statements that sends no message. -/
abbrev Writer {α : Type} (x : Prog sql α) : Prop := x.Uses Stmt.Plain fun _ => False

/-- A plain statement, and a writer after it. -/
theorem writer_execute_bind {α : Type} {stmt : Stmt} {f : stmt.Reply → Prog sql α} (h : stmt.Plain)
    (hf : ∀ r, Writer (f r)) : Writer (execute stmt >>= f) :=
  Prog.Uses.bind ⟨h, fun _ => trivial⟩ hf

/-- The branches are writers. -/
theorem writer_recordTransaction : Writer (recordTransaction H data gen) :=
  compositional_recordTransaction (T := fun _ x => Writer x)
    (Prog.compositional_uses (S := sql) Stmt.Plain fun _ => False)

theorem writer_finishTransaction {txn : Transaction Decimal} {entries : List LedgerEntry} :
    Writer (finishTransaction H gen txn entries) := by
  have hlink : Writer (linkTransaction H entries txn) :=
    writer_execute_bind trivial fun _ => writer_execute_bind trivial fun _ =>
      writer_execute_bind trivial fun _ => trivial
  refine hlink.bind fun txn => ?_
  refine writer_execute_bind trivial fun _ => ?_
  -- an event is inserted unpublished
  refine writer_execute_bind rfl fun _ => ?_
  exact writer_execute_bind trivial fun _ => trivial

/-- **Requests that write to the ledger** neither read nor set `published_at`. -/
theorem writer_program (call : Call) : Writer (call.program H) := by
  cases call with
  | postAccount body id now =>
      refine Prog.Uses.bind ?_ fun _ => trivial
      refine writer_execute_bind trivial fun existing => ?_
      cases existing with
      | some account => exact trivial
      | none =>
          refine writer_execute_bind trivial fun _ => ?_
          exact ⟨trivial, fun _ => trivial⟩
  | createTransaction data gen =>
      refine Prog.Uses.bind ?_ fun _ => trivial
      refine writer_execute_bind trivial fun existing => ?_
      cases existing with
      | some row =>
          dsimp only
          unfold replay
          split <;> exact trivial
      | none => exact writer_recordTransaction.bind fun _ => writer_finishTransaction

/-! ## What the relay changes -/

/-- An event as it was inserted. -/
def OutboxEvent.unmarked (e : OutboxEvent) : OutboxEvent := { e with publishedAt := none }

/-- The same tables, up to `published_at`. -/
structure SameRows (db db' : Database) : Prop where
  accounts : db'.accounts = db.accounts
  transactions : db'.transactions = db.transactions
  ledgerEntries : db'.ledgerEntries = db.ledgerEntries
  outboxEvents : db'.outboxEvents.map OutboxEvent.unmarked =
    db.outboxEvents.map OutboxEvent.unmarked

theorem SameRows.refl (db : Database) : SameRows db db := ⟨rfl, rfl, rfl, rfl⟩

@[simp] theorem OutboxEvent.unmarked_mark (marks : List (UUID × Timestamp)) (e : OutboxEvent) :
    (e.mark marks).unmarked = e.unmarked := by
  unfold mark
  split <;> rfl

/-- Marks make no difference. -/
theorem SameRows.view (h : SameRows db db') (p : Writes) :
    SameRows (db.view p) (db'.view p) := by
  refine ⟨?_, ?_, ?_, ?_⟩
  · rw [Database.view_accounts, h.accounts, Database.view_accounts]
  · rw [Database.view, Database.view, h.transactions]
  · rw [Database.view_ledgerEntries, h.ledgerEntries, Database.view_ledgerEntries]
  · have hcomp : OutboxEvent.unmarked ∘ OutboxEvent.mark p.published = OutboxEvent.unmarked :=
      funext (OutboxEvent.unmarked_mark p.published)
    simp only [Database.view, List.map_map, hcomp, List.map_append, h.outboxEvents]

/-- Without marks, writes that look alike on some rows look alike on the same rows. -/
theorem SameRows.view_congr (h : SameRows db db') {p q : Writes} (hview : db.view p = db.view q)
    (hp : p.published = []) (hq : q.published = []) : db'.view p = db'.view q := by
  have hevents : p.outboxEvents = q.outboxEvents := by
    have hall := congrArg Database.outboxEvents hview
    rw [Database.view_outboxEvents hp, Database.view_outboxEvents hq] at hall
    exact List.append_cancel_left hall
  have hsame := h.view p
  rw [hview] at hsame
  have hall : (db'.view p).outboxEvents = (db'.view q).outboxEvents := by
    rw [Database.view_outboxEvents hp, Database.view_outboxEvents hq, hevents]
  calc db'.view p
      = ⟨(db'.view p).accounts, (db'.view p).transactions, (db'.view p).ledgerEntries,
          (db'.view p).outboxEvents⟩ := rfl
    _ = db'.view q := by
        rw [hsame.accounts, hsame.transactions, hsame.ledgerEntries, hall, ← (h.view q).accounts,
          ← (h.view q).transactions, ← (h.view q).ledgerEntries]

theorem SameRows.mark (h : SameRows db db') (marks : List (UUID × Timestamp)) :
    SameRows (db.view (markWrites marks)) db' := by
  refine ⟨?_, ?_, ?_, ?_⟩
  · rw [h.accounts, view_markWrites_accounts]
  · rw [h.transactions, view_markWrites_transactions]
  · rw [h.ledgerEntries, view_markWrites_ledgerEntries]
  · have hcomp : OutboxEvent.unmarked ∘ OutboxEvent.mark marks = OutboxEvent.unmarked :=
      funext (OutboxEvent.unmarked_mark marks)
    rw [view_markWrites_outboxEvents, List.map_map, hcomp, h.outboxEvents]

/-- The same rows have the same keys. -/
theorem SameRows.uniqueKeys (h : SameRows db db') : db'.uniqueKeys = db.uniqueKeys := by
  have hevents : ∀ events : List OutboxEvent, events.flatMap OutboxEvent.uniqueKeys =
      (events.map OutboxEvent.unmarked).flatMap OutboxEvent.uniqueKeys := fun events => by
    rw [List.flatMap_map]
    rfl
  rw [Database.uniqueKeys, Database.uniqueKeys, h.accounts, h.transactions, h.ledgerEntries,
    hevents db'.outboxEvents, h.outboxEvents, ← hevents]

/-- Plain statements have the same effect. -/
theorem SameRows.perform (h : SameRows db db') {p : Writes} {stmt : Stmt} (hplain : stmt.Plain) :
    perform db' p stmt = perform db p stmt := by
  have hview := h.view p
  cases stmt <;>
    simp only [LedgerApi.perform, Database.transactionByKey, Database.accountByName,
      Database.accountById, Database.amounts, Database.chain, hview.accounts, hview.transactions,
      hview.ledgerEntries, h.transactions]
  case selectTransactionByKey => rfl
  case selectPendingEvents => exact hplain.elim

theorem SameRows.violation (h : SameRows db db') (p : Writes) (stmt : Stmt) :
    violation db' p stmt = violation db p stmt := by
  rw [LedgerApi.violation, (h.view p).uniqueKeys, LedgerApi.violation]

theorem SameRows.exec (h : SameRows db db') {p : Writes} {stmt : Stmt} (hplain : stmt.Plain) :
    postgres.exec db' p stmt = postgres.exec db p stmt := by
  simp only [postgres, h.violation, h.perform hplain]

/-- All statements take the same locks. -/
theorem SameRows.requests (h : SameRows db db') (p : Writes) (stmt : Stmt) :
    postgres.requests db' p stmt = postgres.requests db p stmt := by
  have hengaged : engaged db' p stmt = engaged db p stmt := by
    simp only [engaged, h.violation, Database.accountById, (h.view p).accounts]
  simp only [Store.requests, postgres, hengaged]
  rfl

/-- What a writer has written marks nothing. -/
def Unmarked (p : Writes) : Prop := p.published = [] ∧ ∀ e ∈ p.outboxEvents, e.publishedAt = none

/-- Plain statements mark nothing. -/
theorem Stmt.Plain.unmarked {stmt : Stmt} (h : stmt.Plain) :
    stmt.marks = [] ∧ ∀ e ∈ stmt.newEvents, e.publishedAt = none := by
  cases stmt <;> simp only [Stmt.marks, Stmt.newEvents, List.not_mem_nil, false_implies,
    implies_true, and_self, true_and]
  case insertOutboxEvent => exact fun e he => List.mem_singleton.mp he ▸ h
  case updatePublishedAt => exact h.elim

/-- It stays so. -/
theorem Unmarked.exec {p p' : Writes} {stmt : Stmt} {r : stmt.Reply} (hplain : stmt.Plain)
    (h : Unmarked p) (hexec : postgres.exec db p stmt = .ok (r, p')) : Unmarked p' := by
  obtain ⟨-, hevents, hpublished⟩ := perform_effect (perform_of_exec hexec)
  obtain ⟨hmarks, hnew⟩ := hplain.unmarked
  constructor
  · rw [hpublished, h.1, hmarks]
    rfl
  · intro e he
    rw [hevents] at he
    rcases List.mem_append.mp he with he | he
    · exact h.2 e he
    · exact hnew e he

/-! ## Hiding the relay -/

/-- The statements of the relay. -/
def Stmt.Relaying : Stmt → Prop
  | selectPendingEvents _ => True
  | updatePublishedAt _ => True
  | _ => False

/-- The relay's loop issues no statement. -/
theorem uses_publishEach {P : Stmt → Prop} (accepts : Message → Bool) (now : UUID → Timestamp)
    (events : List OutboxEvent) :
    (publishEach accepts now events).Uses P fun _ => True := by
  induction events with
  | nil => exact trivial
  | cons event events ih =>
      rw [publishEach]
      split
      · exact ⟨trivial, ih.bind fun _ => trivial⟩
      · exact trivial

theorem uses_outboxPublish (limit : ℕ) (accepts : Message → Bool) (now : UUID → Timestamp) :
    ((Request.outboxPublish limit accepts now).program H).Uses Stmt.Relaying fun _ => True := by
  refine Prog.Uses.bind ⟨trivial, fun events => ?_⟩ fun _ => trivial
  exact (uses_publishEach accepts now events).bind fun marks => ⟨trivial, fun _ => trivial⟩

/-- The relay writes marks. -/
theorem relaying_exec {p p' : Writes} {stmt : Stmt} {r : stmt.Reply} (hquiet : stmt.Relaying)
    (hwrites : ∃ marks, p = markWrites marks) (hexec : postgres.exec db p stmt = .ok (r, p')) :
    ∃ marks, p' = markWrites marks := by
  obtain ⟨marks, rfl⟩ := hwrites
  cases stmt with
  | selectPendingEvents limit =>
      obtain rfl := (Prod.mk.inj (Except.ok.inj hexec)).2
      exact ⟨marks, rfl⟩
  | updatePublishedAt marks' =>
      obtain rfl := (Prod.mk.inj (Except.ok.inj hexec)).2
      exact ⟨marks ++ marks', rfl⟩
  | _ => exact hquiet.elim

/-- The request that writes to the ledger, if it is one. -/
def Request.writer : Request → Option Call
  | call c => some c
  | outboxPublish _ _ _ => none

/-- **The relay can be hidden** from the writers. -/
def hideRelay (H : HexHash) : Hiding (api H) (ledger H) where
  visible := Request.writer
  idle := .postAccount ⟨externalClearingName, by decide⟩ 0 0
  alike := SameRows
  plain := Stmt.Plain
  plainWrites := Unmarked
  quiet := Stmt.Relaying
  quietWrites p := ∃ marks, p = markWrites marks
  blank := rfl
  program {r call} h := by
    cases r with
    | call c =>
        obtain rfl := Option.some.inj h
        exact ⟨rfl, writer_program c⟩
    | outboxPublish => cases h
  plain_blank := ⟨rfl, nofun⟩
  plain_exec := Unmarked.exec
  exec h hplain := h.exec hplain
  requests h _ := h.requests _ _
  merge h _ := h.view _
  quiet_program {r} h := by
    cases r with
    | call c => cases h
    | outboxPublish limit accepts now => exact uses_outboxPublish (H := H) limit accepts now
  quiet_blank := ⟨[], rfl⟩
  quiet_exec := relaying_exec
  quiet_merge h hquiet := by
    obtain ⟨marks, rfl⟩ := hquiet
    exact h.mark marks

/-! ## What carries over -/

/-- Whether rows are fresh does not depend on marks. -/
theorem SameRows.fresh (h : SameRows db db') {p : Writes} (hfresh : Fresh db p) : Fresh db' p :=
  ⟨hfresh.rechained, hfresh.nodup, fun k hk => h.uniqueKeys ▸ hfresh.not_mem k hk⟩

/-- Nor does what a request posts. -/
theorem SameRows.settles (h : SameRows db db') (hs : Settles H db data gen post) :
    Settles H db' data gen post ∧
      postingWrites H db' data gen post = postingWrites H db data gen post := by
  have hchain : db'.chain = db.chain := by rw [Database.chain, h.transactions, Database.chain]
  have hwrites : postingWrites H db' data gen post = postingWrites H db data gen post := by
    simp only [postingWrites, postedRow, linkedTransaction, hchain]
  have hposting : db'.posting data gen = db.posting data gen := by
    simp only [Database.posting, Database.openedAccounts, Database.clearingAccount,
      Database.accountByName, h.accounts]
    rfl
  refine ⟨⟨hposting.trans hs.posting, hwrites ▸ h.fresh hs.fresh, ?_, ?_, ?_⟩, hwrites⟩
  · rw [h.accounts]
    exact hs.debit_mem
  · rw [h.accounts]
    exact hs.credit_mem
  · rw [Database.balance, Database.amounts, h.ledgerEntries]
    exact hs.funds

/-- A call commits the same writes on the same rows. -/
theorem SameRows.commits (h : SameRows db db') {call : Call} {p : Writes}
    (hcall : Commits H db call p) : Commits H db' call p := by
  cases hcall with
  | postAccount hfresh => exact .postAccount (h.fresh hfresh)
  | createTransaction hs =>
      obtain ⟨hs', hwrites⟩ := h.settles hs
      rw [← hwrites]
      exact .createTransaction hs'

/-- The same rows are consistent. -/
theorem SameRows.consistent (h : SameRows db db') (hdb : Consistent H db) : Consistent H db' := by
  refine hdb.congr (h.uniqueKeys ▸ hdb.keys) h.transactions h.ledgerEntries ?_ ?_
  · rw [h.accounts]
    exact List.Subset.refl _
  · intro a ha
    rw [h.accounts] at ha
    exact Or.inl ha

/-- A writer marks nothing. -/
theorem Commits.published {call : Call} {p : Writes} (h : Commits H db call p) :
    p.published = [] := by
  cases h <;> rfl

section Runs

variable {db₀ : Database} {w : World sql Database Writes Resource Request Response}

theorem SameRows.symm (h : SameRows db db') : SameRows db' db :=
  ⟨h.accounts.symm, h.transactions.symm, h.ledgerEntries.symm, h.outboxEvents.symm⟩

/-- **The tables stay consistent**, whatever the relays do. -/
theorem consistent_of_api (h₀ : Reachable H db₀) (h : (api H).Reachable (World.init db₀) w) :
    Consistent H w.shared.store := by
  obtain ⟨w', hw', hshadows⟩ := (hideRelay H).exists_shadow SameRows.refl h
  have halike : SameRows w.shared.store w'.shared.store := hshadows.alike
  exact halike.symm.consistent (consistent_of_ledger h₀ hw')

/-- **What a writer commits**: when it stands before its commit, it has written what its request
posts on the tables of the moment. -/
theorem commits_of_running (h : (api H).Reachable (World.init db₀) w) {i : ℕ}
    {s : Session sql Writes Resource Request Response} (hs : w.Running i s) {call : Call}
    (hcall : s.call = .call call) {next : Prog sql Response} (hprog : s.prog = .commit next) :
    ∃ written, Commits H w.shared.store call written ∧
      w.shared.store.view s.pending = w.shared.store.view written := by
  obtain ⟨w', hw', hshadows⟩ := (hideRelay H).exists_shadow SameRows.refl h
  have halike : SameRows w.shared.store w'.shared.store := hshadows.alike
  have hvisible : (hideRelay H).visible s.call = some call := by
    rw [hcall]
    rfl
  obtain ⟨hs', -, hpublished, -⟩ := hshadows.running hs hvisible
  obtain ⟨written, hcommits, hview⟩ := commits_of_ledger hw' hs' hprog
  refine ⟨written, halike.symm.commits hcommits, ?_⟩
  exact (halike.symm.view_congr hview hcommits.published hpublished).symm

/-- A relay has written marks, if anything. -/
theorem marks_of_running (h : (api H).Reachable (World.init db₀) w) {i : ℕ}
    {s : Session sql Writes Resource Request Response} (hs : w.Running i s) {limit : ℕ}
    {accepts : Message → Bool} {now : UUID → Timestamp}
    (hcall : s.call = .outboxPublish limit accepts now) :
    ∃ marks, s.pending = markWrites marks := by
  obtain ⟨w', -, hshadows⟩ := (hideRelay H).exists_shadow SameRows.refl h
  have hhidden : (hideRelay H).visible s.call = none := by
    rw [hcall]
    rfl
  exact (hshadows.quiet hs hhidden).2

/-- A writer sends nothing. -/
theorem not_emit_of_running (h : (api H).Reachable (World.init db₀) w) {i : ℕ}
    {s : Session sql Writes Resource Request Response} (hs : w.Running i s) {call : Call}
    (hcall : s.call = .call call) {m : Message} {next : Prog sql Response}
    (hprog : s.prog = .emit m next) : False := by
  obtain ⟨w', -, hshadows⟩ := (hideRelay H).exists_shadow SameRows.refl h
  have hvisible : (hideRelay H).visible s.call = some call := by
    rw [hcall]
    rfl
  obtain ⟨-, huses, -⟩ := hshadows.running hs hvisible
  rw [hprog] at huses
  exact huses.1

end Runs

end LedgerApi
