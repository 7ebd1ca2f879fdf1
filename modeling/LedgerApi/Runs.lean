import LedgerApi.Commit

/-! # What requests do

Served on its own, a request that writes to the ledger commits what it posts or changes nothing
(`serve_call`), and the relay changes nothing but marks (`serve_outboxPublish`); so what commits and
marks keep holds in every reachable database (`Reachable.invariant`). Interleaved calls commit one
after the other (`ledger_history`), which is why they reach no other databases than requests served
one by one (`reachable_of_ledger`). -/

namespace LedgerApi

open Sessions

variable {H : HexHash}

/-! ## What the branches of a transaction are made of -/

/-- The statements of the requests that write to the ledger: they neither read nor set
`published_at`. -/
def Stmt.Plain : Stmt → Prop
  | selectPendingEvents _ => False
  | updatePublishedAt _ => False
  | insertOutboxEvent row => row.publishedAt = none
  | _ => True

/-- The statements of the branches, but for those that look up or create the clearing account. -/
def Stmt.Recording : Stmt → Prop
  | selectAccountForUpdate _ => True
  | sumEntries _ => True
  | insertTransaction _ => True
  | _ => False

theorem Stmt.Recording.plain {stmt : Stmt} (h : stmt.Recording) : stmt.Plain := by
  cases stmt <;> trivial

/-- The exceptions that the branches raise of their own. -/
def Exn.IsHttp : Exn → Prop
  | http _ _ => True
  | _ => False

section Branches

variable {T : (α : Type) → Prog sql α → Prop} {data : TransactionCreate} {gen : Generated}

theorem compositional_getOrCreateClearingAccount (hT : Prog.Compositional Stmt.Plain T) :
    T _ (getOrCreateClearingAccount gen) := by
  have hbind : ∀ {α : Type} {stmt : Stmt} {f : stmt.Reply → Prog sql α}, stmt.Plain →
      (∀ r, T _ (f r)) → T _ (execute stmt >>= f) := fun h hf => hT.bind (hT.stmt h) hf
  refine hbind trivial fun account => ?_
  cases account with
  | some account => exact hT.ret _
  | none =>
      refine hbind trivial fun _ => hbind trivial fun account => ?_
      cases account with
      | some account => exact hT.ret _
      | none => exact hbind trivial fun _ => hT.ret _

variable (hT : Prog.Sequential Stmt.Recording Exn.IsHttp T)
include hT

/-- A statement, and a program after it. -/
theorem sequential_execute_bind {α : Type} {stmt : Stmt} {f : stmt.Reply → Prog sql α}
    (h : stmt.Recording) (hf : ∀ r, T _ (f r)) : T _ (execute stmt >>= f) :=
  hT.bind (hT.stmt h) hf

theorem sequential_lockEach (ids : List UUID) : T _ (lockEach ids) := by
  induction ids with
  | nil => exact hT.ret _
  | cons id ids ih =>
      refine sequential_execute_bind hT trivial fun account => ?_
      cases account with
      | none => exact hT.raise trivial
      | some account => exact hT.bind ih fun _ => hT.ret _

theorem sequential_addTransaction {debit credit : UUID} :
    T _ (addTransaction H data gen debit credit) :=
  sequential_execute_bind hT trivial fun _ => hT.ret _

/-- **The branches are sequences** of the lookup of the clearing account and of statements of their
own. -/
theorem sequential_recordTransaction (hclearing : T _ (getOrCreateClearingAccount gen)) :
    T _ (recordTransaction H data gen) := by
  have hcheck : ∀ (balance : Decimal) (debit credit : UUID),
      T _ (if balance < data.amount then httpError 422 "Insufficient balance"
        else addTransaction H data gen debit credit) := by
    intro balance debit credit
    split
    · exact hT.raise trivial
    · exact sequential_addTransaction hT
  unfold recordTransaction
  split
  · unfold deposit
    split
    · exact hT.raise trivial
    · refine hT.bind hclearing fun clearing => ?_
      exact hT.bind (sequential_lockEach hT _) fun _ => sequential_addTransaction hT
  · unfold withdrawal
    split
    · exact hT.raise trivial
    · refine hT.bind hclearing fun clearing => ?_
      refine hT.bind (sequential_lockEach hT _) fun _ => ?_
      exact sequential_execute_bind hT trivial fun _ => hcheck _ _ _
  · unfold transfer
    split
    · split
      · exact hT.raise trivial
      · refine hT.bind (sequential_lockEach hT _) fun _ => ?_
        exact sequential_execute_bind hT trivial fun _ => hcheck _ _ _
    · exact hT.raise trivial

omit hT in
/-- **The branches are sequences of plain statements.** -/
theorem compositional_recordTransaction (hT : Prog.Compositional Stmt.Plain T) :
    T _ (recordTransaction H data gen) :=
  sequential_recordTransaction ((hT.sequential _).mono fun _ h => h.plain)
    (compositional_getOrCreateClearingAccount hT)

end Branches

/-! ## Commits of a call -/

section CommitsAtMost

variable {data : TransactionCreate} {gen : Generated}

theorem commitsAtMost_execute (stmt : Stmt) : (execute stmt).CommitsAtMost 0 := fun _ => trivial

/-- The branches commit nothing. -/
theorem commitsAtMost_recordTransaction : (recordTransaction H data gen).CommitsAtMost 0 :=
  compositional_recordTransaction (T := fun _ x => x.CommitsAtMost 0)
    (Prog.compositional_commitsAtMost_zero (S := sql) Stmt.Plain)

theorem commitsAtMost_finishTransaction {txn : Transaction Decimal} {entries : List LedgerEntry} :
    (finishTransaction H gen txn entries).CommitsAtMost 1 :=
  fun _ _ _ _ _ _ => trivial

theorem commitsAtMost_createTransaction : (createTransaction H data gen).CommitsAtMost 1 := by
  refine Prog.CommitsAtMost.zero_bind (commitsAtMost_execute _) fun existing => ?_
  cases existing with
  | some row =>
      dsimp only
      unfold replay
      split <;> exact trivial
  | none =>
      exact Prog.CommitsAtMost.zero_bind commitsAtMost_recordTransaction fun _ =>
        commitsAtMost_finishTransaction

/-- A call commits at most once. -/
theorem commitsAtMost_program (call : Call) : (call.program H).CommitsAtMost 1 := by
  cases call with
  | postAccount body id now =>
      refine fun existing => ?_
      cases existing with
      | some account => exact trivial
      | none => exact fun _ _ => trivial
  | createTransaction data gen =>
      exact Prog.CommitsAtMost.bind (m := 1) (n := 0) commitsAtMost_createTransaction fun _ =>
        trivial

end CommitsAtMost

/-! ## One request at a time -/

/-- The shared state of a call served on its own on `db`. -/
def Solo (H : HexHash) (db : Database) (call : Call) (g : Shared sql Database Call) : Prop :=
  (g.log = [] → g.store = db) ∧
    (g.log = [call] → ∃ w, Commits H db call w ∧ g.store = db.view w)

theorem solo_commit {db : Database} {call call' : Call} {g : Shared sql Database Call} {w : Writes}
    (hg : Solo H db call g) (hcall : Commits H g.store call' w) :
    Solo H db call (g.commit postgres call' w) := by
  refine ⟨fun hlog => ?_, fun hlog => ?_⟩
  · simp at hlog
  · rw [Shared.commit_log, List.append_eq_singleton_iff] at hlog
    -- the log was empty before its only commit
    rcases hlog with ⟨hlog, hcall'⟩ | ⟨-, hnil⟩
    · obtain rfl := List.singleton_inj.mp hcall'
      have hstore := hg.1 hlog
      exact ⟨w, hstore ▸ hcall, by rw [Shared.commit_store, hstore]; rfl⟩
    · cases hnil

/-- **A call served on its own** commits or leaves the database as it is, and ends as annotated. -/
theorem serve_call (H : HexHash) (db : Database) (call : Call) :
    ((serve H db (.call call)).2 = db ∨
      ∃ w, Commits H db call w ∧ (serve H db (.call call)).2 = db.view w) ∧
    ∃ g p L, g.store = (serve H db (.call call)).2 ∧
      (∀ answer, (serve H db (.call call)).1 = .ok answer → CallReturns H call answer g p L) ∧
      ∀ e, (serve H db (.call call)).1 = .error e → CallRaises H true call e g p L := by
  have hA : Annotated (ledgerContract (Solo H db call) true) (ledger H) (CallReturns H)
      (CallRaises H true) := annotated_ledger fun g call' w hg hcall => solo_commit hg hcall
  have hstart : Solo H db call ⟨db, [], []⟩ := ⟨fun _ => rfl, nofun⟩
  obtain ⟨g, L, k, hk, hlog, hinv, hstore, hend⟩ :=
    (hA.triple call).eval (commitsAtMost_program call) hstart ⟨rfl, rfl⟩
  refine ⟨?_, g, _, L, hstore, hend⟩
  show (postgres.eval (call.program H) db .blank).store = db ∨
    ∃ w, Commits H db call w ∧ (postgres.eval (call.program H) db .blank).store = db.view w
  rw [List.nil_append] at hlog
  rw [← show g.store = (postgres.eval (call.program H) db .blank).store from hstore]
  -- the length of the log tells whether the call has committed
  rcases Nat.le_one_iff_eq_zero_or_eq_one.mp hk with rfl | rfl
  · exact Or.inl (hinv.1 hlog)
  · exact Or.inr (hinv.2 hlog)

/-- The events of a batch that the transport accepts: those before the first on which it raises. -/
def acceptedEvents (accepts : Message → Bool) (events : List OutboxEvent) : List OutboxEvent :=
  events.takeWhile fun e => accepts e.message

theorem acceptedEvents_isPrefix (accepts : Message → Bool) (events : List OutboxEvent) :
    acceptedEvents accepts events <+: events :=
  List.takeWhile_prefix _

/-- **The relay's loop** hands out the messages of the accepted events, marks these events, and
writes nothing. -/
theorem eval_publishEach (D : Store sql Database Writes Resource) (accepts : Message → Bool)
    (now : UUID → Timestamp) (events : List OutboxEvent) (db : Database) (w : Writes) :
    D.eval (publishEach accepts now events) db w =
      ⟨.ok ((acceptedEvents accepts events).map fun e => (e.id, now e.id)), db, w,
        (acceptedEvents accepts events).map OutboxEvent.message⟩ := by
  induction events with
  | nil => rfl
  | cons event events ih =>
      rw [publishEach]
      by_cases haccepts : accepts event.message
      · have hcons : acceptedEvents accepts (event :: events) =
            event :: acceptedEvents accepts events := List.takeWhile_cons_of_pos haccepts
        have hrest : D.eval (publishEach accepts now events >>= fun marks =>
            (.ret ((event.id, now event.id) :: marks))) db w =
            ⟨.ok ((event.id, now event.id) :: (acceptedEvents accepts events).map
              fun e => (e.id, now e.id)), db, w,
              (acceptedEvents accepts events).map OutboxEvent.message⟩ := by
          rw [Store.eval_bind, ih]
          simp
        rw [if_pos haccepts, hcons]
        show (let o := D.eval (publishEach accepts now events >>= fun marks =>
            (.ret ((event.id, now event.id) :: marks))) db w
          ({ o with sent := event.message :: o.sent } : Outcome sql Database Writes _)) = _
        rw [hrest]
        rfl
      -- the transport raises and the loop ends
      · have hstop : acceptedEvents accepts (event :: events) = [] :=
          List.takeWhile_cons_of_neg haccepts
        rw [if_neg haccepts, hstop]
        rfl

/-- The writes of a relay call: marks only. -/
def markWrites (marks : List (UUID × Timestamp)) : Writes :=
  { Writes.blank with published := marks }

@[simp] theorem view_markWrites_accounts (db : Database) (marks : List (UUID × Timestamp)) :
    (db.view (markWrites marks)).accounts = db.accounts := List.append_nil _

@[simp] theorem view_markWrites_transactions (db : Database) (marks : List (UUID × Timestamp)) :
    (db.view (markWrites marks)).transactions = db.transactions := List.append_nil _

@[simp] theorem view_markWrites_ledgerEntries (db : Database) (marks : List (UUID × Timestamp)) :
    (db.view (markWrites marks)).ledgerEntries = db.ledgerEntries := List.append_nil _

@[simp] theorem view_markWrites_outboxEvents (db : Database) (marks : List (UUID × Timestamp)) :
    (db.view (markWrites marks)).outboxEvents = db.outboxEvents.map (OutboxEvent.mark marks) :=
  congrArg (List.map _) (List.append_nil _)

/-- **What a relay call does**, on a store that answers its query with `events`: it sends those that
the transport accepts, and commits their marks. -/
theorem eval_outboxPublish {D : Store sql Database Writes Resource} {db : Database} {limit : ℕ}
    {events : List OutboxEvent} (accepts : Message → Bool) (now : UUID → Timestamp)
    (hread : D.exec db .blank (.selectPendingEvents limit) = .ok (events, .blank))
    (hmark : ∀ marks, D.exec db .blank (.updatePublishedAt marks) = .ok ((), markWrites marks))
    (hmerge : D.merge = Database.view) (hblank : D.blank = .blank) :
    D.eval (outboxPublish limit accepts now) db .blank =
      ⟨.ok ⟨(acceptedEvents accepts events).length,
          events.length - (acceptedEvents accepts events).length⟩,
        db.view (markWrites ((acceptedEvents accepts events).map fun e => (e.id, now e.id))),
        .blank, (acceptedEvents accepts events).map OutboxEvent.message⟩ := by
  have hbatch : D.eval (outboxPublish limit accepts now) db .blank =
      D.eval (publishEach accepts now events >>= fun marks => do
        execute (.updatePublishedAt marks)
        Prog.commitNow
        return (⟨marks.length, events.length - marks.length⟩ : PublishResult)) db .blank :=
    D.eval_exec_ok hread
  have hflush : ∀ marks (result : PublishResult),
      D.eval (do execute (.updatePublishedAt marks); Prog.commitNow; return result) db .blank =
        ⟨.ok result, db.view (markWrites marks), .blank, []⟩ := by
    intro marks result
    refine (D.eval_exec_ok (hmark marks)).trans ?_
    show (⟨.ok result, D.merge db (markWrites marks), D.blank, []⟩ : Outcome _ _ _ _) = _
    rw [hmerge, hblank]
  rw [hbatch, Store.eval_bind, eval_publishEach]
  dsimp only
  rw [hflush, List.append_nil, List.length_map]

theorem exec_selectPendingEvents (db : Database) (limit : ℕ) :
    postgres.exec db .blank (.selectPendingEvents limit) =
      .ok (db.pendingEvents.take limit, .blank) := by
  show Except.ok ((db.view .blank).pendingEvents.take limit, _) = _
  rw [Database.view_blank]

/-- **A relay call** only marks events of its batch. -/
theorem serve_outboxPublish (H : HexHash) (db : Database) (limit : ℕ) (accepts : Message → Bool)
    (now : UUID → Timestamp) :
    ∃ marks, marks.map Prod.fst <+: (db.pendingEvents.take limit).map (·.id) ∧
      (serve H db (.outboxPublish limit accepts now)).2 = db.view (markWrites marks) := by
  have hpublish := eval_outboxPublish accepts now (exec_selectPendingEvents db limit)
    (fun _ => rfl) rfl rfl
  refine ⟨(acceptedEvents accepts (db.pendingEvents.take limit)).map fun e => (e.id, now e.id),
    ?_, ?_⟩
  · rw [List.map_map]
    exact (acceptedEvents_isPrefix accepts _).map _
  · rw [serve, Store.run, Request.program, Store.eval_bind]
    rw [show postgres.blank = .blank from rfl, hpublish]
    rfl

/-- **Rule**: what holds before the first transaction and is kept by commits and by marks holds of
every reachable database. -/
theorem Reachable.invariant {Inv : Database → Prop} {db : Database} (h : Reachable H db)
    (hinit : ∀ db, Initial db → Inv db)
    (hcommit : ∀ db call w, Inv db → Commits H db call w → Inv (db.view w))
    (hmark : ∀ db marks, Inv db → Inv (db.view (markWrites marks))) : Inv db := by
  induction h with
  | initial h => exact hinit _ h
  | @serve db _ r ih =>
      cases r with
      | call call =>
          rcases (serve_call H db call).1 with hsame | ⟨w, hcall, hview⟩
          · rw [hsame]
            exact ih
          · rw [hview]
            exact hcommit db call w ih hcall
      | outboxPublish limit accepts now =>
          obtain ⟨marks, -, hview⟩ := serve_outboxPublish H db limit accepts now
          rw [hview]
          exact hmark db marks ih

/-! ## Interleaved calls -/

/-- A history leads from reachable databases to reachable ones. -/
theorem History.reachable {db₀ db : Database} {log : List Call} (h : History H db₀ log db)
    (h₀ : Reachable H db₀) : Reachable H db := by
  refine h.invariant h₀ fun db call w hdb hcall => ?_
  obtain ⟨r, hrun⟩ := hcall.run
  have hserve := hdb.serve (.call call)
  rwa [serve, Request.program, hrun] at hserve

/-- The invariant of interleaved calls: they have committed one after the other. -/
def Committed (H : HexHash) (db₀ : Database) (g : Shared sql Database Call) : Prop :=
  History H db₀ g.log g.store

/-- The calls are annotated for that invariant. -/
theorem annotated_committed {db₀ : Database} {serial : Bool} :
    Annotated (ledgerContract (Committed H db₀) serial) (ledger H) (CallReturns H)
      (CallRaises H serial) :=
  annotated_ledger fun _ _ _ hg hcall => History.snoc hg hcall

/-- Where commits beside a lookup are allowed, every step is. -/
theorem admits_of_concurrent {inv : Shared sql Database Call → Prop}
    (w : World sql Database Writes Resource Call Response) (a : System.Action Call) :
    (ledgerContract inv false).Admits w a :=
  fun _ _ _ _ _ _ _ _ _ _ hserial => nomatch hserial

/-- Every world that some interleaving reaches is sound. -/
theorem sound_of_ledger {db₀ : Database} {w : World sql Database Writes Resource Call Response}
    (h : (ledger H).Reachable (World.init db₀) w) :
    w.Sound (ledgerContract (Committed H db₀) false) (ledger H) (CallReturns H)
      (CallRaises H false) :=
  World.Sound.of_reaches annotated_committed (fun v a _ => admits_of_concurrent v a)
    (World.Sound.init History.nil) h

/-- **Interleaved calls commit one after the other**: the committed database is what the logged
calls make of the first one. -/
theorem ledger_history {db₀ : Database} {w : World sql Database Writes Resource Call Response}
    (h : (ledger H).Reachable (World.init db₀) w) : History H db₀ w.shared.log w.shared.store :=
  (sound_of_ledger h).inv

/-- Interleaved calls reach no other databases than requests served one by one. -/
theorem reachable_of_ledger {db₀ : Database}
    {w : World sql Database Writes Resource Call Response} (h₀ : Reachable H db₀)
    (h : (ledger H).Reachable (World.init db₀) w) : Reachable H w.shared.store :=
  (ledger_history h).reachable h₀

/-- **What a session commits** that stands before its commit: the writes of its call, as the
sequential program makes them. -/
theorem commits_of_ledger {db₀ : Database}
    {w : World sql Database Writes Resource Call Response}
    (h : (ledger H).Reachable (World.init db₀) w) {i : ℕ}
    {s : Session sql Writes Resource Call Response} (hs : w.Running i s)
    {next : Prog sql Response} (hprog : s.prog = .commit next) :
    ∃ written, Commits H w.shared.store s.call written ∧
      w.shared.store.view written = w.shared.store.view s.pending := by
  obtain ⟨w', hstep, hcommit⟩ := System.step_commit (Y := ledger H) hs hprog
  have hafter := ledger_history (h.step trivial hstep)
  rw [hcommit] at hafter
  -- the log of the commit is that of a history, whose last call did this
  generalize hlog : (w.shared.commit (ledger H).toStore s.call s.pending).log = log at hafter
  generalize hstore : (w.shared.commit (ledger H).toStore s.call s.pending).store = db at hafter
  cases hafter with
  | nil => simp at hlog
  | @snoc log db call written hbefore hcall =>
      obtain ⟨rfl, hcalls⟩ := List.append_inj' hlog rfl
      obtain rfl := List.singleton_inj.mp hcalls
      obtain rfl := hbefore.unique (ledger_history h)
      exact ⟨written, hcall, hstore.symm⟩

/-- **What a step commits**: nothing, or the writes of a session that stands before its commit. -/
theorem exists_commits_of_step {db₀ : Database}
    {w w' : World sql Database Writes Resource Call Response}
    (h : (ledger H).Reachable (World.init db₀) w) {a : System.Action Call}
    (hstep : (ledger H).step w a = some w') :
    w'.shared.store = w.shared.store ∨ ∃ i s next, a = .advance i ∧ w.Running i s ∧
      s.prog = .commit next ∧ w'.shared.store = w.shared.store.view s.pending ∧
      ∃ written, Commits H w.shared.store s.call written ∧
        w.shared.store.view written = w.shared.store.view s.pending := by
  rcases System.shared_step hstep with hsame | ⟨i, s, next, rfl, hs, hprog, hcommit⟩ |
    ⟨i, s, m, next, -, -, -, hemit⟩
  · exact Or.inl (congrArg Shared.store hsame)
  · refine Or.inr ⟨i, s, next, rfl, hs, hprog, ?_, commits_of_ledger h hs hprog⟩
    rw [hcommit]
    rfl
  · exact Or.inl (by rw [hemit]; rfl)

/-- **Rule** for interleaved calls under a condition on their steps: what every commit keeps that a
step under the condition makes holds in every state. -/
theorem ledger_invariant {db₀ : Database}
    {adm : World sql Database Writes Resource Call Response → System.Action Call → Prop}
    {w : World sql Database Writes Resource Call Response} {Inv : Database → Prop}
    (h : (ledger H).Reaches adm (World.init db₀) w) (h₀ : Inv db₀)
    (hcommit : ∀ w i s next written, (ledger H).Reachable (World.init db₀) w →
      adm w (.advance i) → w.Running i s → s.prog = .commit next → Inv w.shared.store →
      Commits H w.shared.store s.call written →
      w.shared.store.view written = w.shared.store.view s.pending →
      Inv (w.shared.store.view written)) : Inv w.shared.store := by
  induction h with
  | refl => exact h₀
  | @step w w' a hw hadm hstep ih =>
      rcases exists_commits_of_step hw.reachable hstep with hsame |
        ⟨i, s, next, rfl, hs, hprog, hview, written, hcall, hwritten⟩
      · rw [hsame]
        exact ih
      · rw [hview, ← hwritten]
        exact hcommit w i s next written hw.reachable hadm hs hprog ih hcall hwritten

end LedgerApi
