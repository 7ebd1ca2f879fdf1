import LedgerApi.AppendOnly
import LedgerApi.Movements

/-! # Cold start

The first deposits and withdrawals on a database without External Clearing. Each looks the account
up, and those that miss it queue for the clearing lock, look again and create it if it is still not
there. The annotation here says what makes this right: whoever has created the account and not yet
committed holds the lock (`OpensUnderLock`), so that nobody else creates it between the second
lookup and the insert, and a creator that rolls back leaves the next in the queue to create it.

An account of that name could also come from `POST /accounts`, which takes no lock; the result
(`cold_start`) is about runs in which no such account is committed. -/

namespace LedgerApi

open Sessions System

variable {H : HexHash}

/-! ## The contract -/

/-- The lock for creating External Clearing. -/
def clearingLock : Lock Resource := .excl (.advisory clearingLockKey)

/-- A request to create an account of a name. -/
def Request.PostsName (name : String) : Request → Prop
  | call (.postAccount data _ _) => data.name = name
  | _ => False

instance (name : String) : DecidablePred (Request.PostsName name)
  | .call (.postAccount data _ _) => inferInstanceAs (Decidable (data.name = _))
  | .call (.createTransaction _ _) => isFalse id
  | .outboxPublish _ _ _ => isFalse id

/-- What sessions count on: while one of them holds the clearing lock, the others do not create the
account, unless one commits an account of its name for `POST /accounts`, which is no system
account. -/
def clearingContract : Contract sql Database Writes Resource Request where
  inv _ := True
  rely _ L g g' := clearingLock ∈ L → g.store.accountByName externalClearingName = none →
    g'.store.accountByName externalClearingName = none
  beside p _ := ∀ a ∈ p.accounts, a.name = externalClearingName → a.isSystem = true
  ready _ _ := True

/-- Assertions about the sessions of the application. -/
abbrev ApiAssn := Assn sql Database Writes Resource Request

/-- A session that has created the account holds the lock. -/
def Opening : ApiAssn := fun _ p L =>
  ∀ a ∈ p.accounts, a.name = externalClearingName → a.isSystem = true → clearingLock ∈ L

/-- The session holds the lock. -/
def UnderLock : ApiAssn := fun g p L => Opening g p L ∧ clearingLock ∈ L

/-- The session holds the lock and does not see the account. -/
def Missing : ApiAssn := fun g p L =>
  UnderLock g p L ∧ (g.store.view p).accountByName externalClearingName = none

/-- Why a request raises: not for the name of an account, unless it was to create one of that name
for `POST /accounts`. -/
def NameIsFree (r : Request) (e : Exn) : ApiAssn := fun _ _ _ =>
  ∀ name, ¬ r.PostsName name → e ≠ .uniqueViolation (.accountsName name)

/-- A program that creates the account under the lock only, and does not fail on names. -/
abbrev OpensUnderLock (r : Request) (α : Type) (x : Prog sql α) : Prop :=
  clearingContract.Triple postgres r (fun _ => Opening) (NameIsFree r) x Opening

/-- A name is free in a view when it is neither in the tables nor among the session's own rows. -/
theorem Database.accountByName_view_eq_none_iff {db : Database} {p : Writes} {name : String} :
    (db.view p).accountByName name = none ↔
      db.accountByName name = none ∧ p.rows.accountByName name = none := by
  rw [Database.accountByName, Database.view_accounts, List.find?_append, Option.or_eq_none_iff]
  rfl

theorem stable_opening : clearingContract.Stable Opening := Contract.Stable.own _

theorem stable_underLock : clearingContract.Stable UnderLock :=
  stable_opening.and (Contract.Stable.own fun _ L => clearingLock ∈ L)

/-- What is missed under the lock stays missing. -/
theorem stable_missing : clearingContract.Stable Missing := by
  rintro g g' p L - - hrely ⟨hunder, hnone⟩
  rw [Database.accountByName_view_eq_none_iff] at hnone
  refine ⟨hunder, Database.accountByName_view_eq_none_iff.mpr ⟨?_, hnone.2⟩⟩
  exact hrely hunder.2 hnone.1

theorem stable_nameIsFree (r : Request) (e : Exn) : clearingContract.Stable (NameIsFree r e) :=
  Contract.Stable.pure _

/-! ## Statements -/

/-- The statement inserts no account. -/
def Stmt.AddsNoAccount : Stmt → Prop
  | insertAccount _ => False
  | _ => True

/-- Such a statement adds no name. -/
theorem Stmt.AddsNoAccount.name_not_mem {stmt : Stmt} (h : stmt.AddsNoAccount) (name : String) :
    .accountsName name ∉ stmt.uniqueKeys := by
  cases stmt <;> simp [uniqueKeys, Transaction.uniqueKeys, LedgerEntry.uniqueKeys,
    OutboxEvent.uniqueKeys]
  case insertAccount => exact h.elim

/-- It leaves the session's accounts as they are. -/
theorem Stmt.AddsNoAccount.accounts_eq {db : Database} {p p' : Writes} {stmt : Stmt}
    {r : stmt.Reply} (h : stmt.AddsNoAccount) (hperform : perform db p stmt = .ok (r, p')) :
    p'.accounts = p.accounts := by
  have hnone : stmt.newAccounts = [] := by
    cases stmt with
    | insertAccount row => exact h.elim
    | _ => rfl
  rw [(perform_effect hperform).1, hnone, List.append_nil]

/-- A statement that violates no key does not fail on one. -/
theorem perform_ne_uniqueViolation {db : Database} {p : Writes} {stmt : Stmt} {e : Exn}
    (hperform : perform db p stmt = .error e) (k : UniqueKey) : e ≠ .uniqueViolation k := by
  rintro rfl
  cases stmt <;> simp only [perform] at hperform
  all_goals
    try split at hperform
    all_goals cases hperform

section Triples

variable {r : Request} {data : TransactionCreate} {gen : Generated}

/-- Other statements change nothing about it. -/
theorem opens_execute {stmt : Stmt} (h : stmt.AddsNoAccount) :
    OpensUnderLock r stmt.Reply (execute stmt) := by
  refine triple_execute stable_opening (fun _ => stable_opening) (fun _ _ _ _ => trivial) ?_ ?_
  · rintro g p L k - hviol name - ⟨⟩
    exact h.name_not_mem name (firstTaken_mem hviol)
  · intro g p L L' hopening hL _ _ _
    cases hperform : perform g.store p stmt with
    | ok rp =>
        intro a ha hname hsystem
        exact hL (hopening a (h.accounts_eq hperform ▸ ha) hname hsystem)
    | error e => exact fun _ _ => perform_ne_uniqueViolation hperform _

/-- An account is inserted: under the lock, if it is External Clearing, and where its name cannot be
taken. -/
theorem opens_insertAccount {row : Account} {P : ApiAssn} (hP : clearingContract.Stable P)
    (hopening : ∀ g p L, P g p L → Opening g p L ∧
      (row.name = externalClearingName → row.isSystem = true → clearingLock ∈ L))
    (hfree : ∀ g p L, P g p L → ¬ r.PostsName row.name →
      (g.store.view p).accountByName row.name = none) :
    clearingContract.Triple postgres r (fun _ => Opening) (NameIsFree r)
      (execute (.insertAccount row)) P := by
  refine triple_execute hP (fun _ => stable_opening) (fun _ _ _ _ => trivial) ?_ ?_
  · rintro g p L k h hviol name hposts ⟨⟩
    have hkey : .accountsName name ∈ row.uniqueKeys := firstTaken_mem hviol
    obtain rfl : name = row.name := by simpa [Account.uniqueKeys] using hkey
    -- a name that the insert fails on is in the view
    have htaken := firstTaken_taken hviol (by simp [Stmt.uniqueKeys, Account.uniqueKeys])
    exact Database.accountByName_eq_none_iff.mp (hfree g p L h hposts) htaken
  · intro g p L L' h hL _ _ _ a ha hname hsystem
    obtain ⟨hold, hnew⟩ := hopening g p L h
    rcases List.mem_append.mp ha with ha | ha
    · exact hL (hold a ha hname hsystem)
    · obtain rfl := List.mem_singleton.mp ha
      exact hL (hnew hname hsystem)

/-- The clearing lock is taken. -/
theorem opens_advisoryXactLock :
    clearingContract.Triple postgres r (fun _ => UnderLock) (NameIsFree r)
      (execute (.advisoryXactLock clearingLockKey)) Opening := by
  refine triple_execute stable_opening (fun _ => stable_underLock) (fun _ _ _ _ => trivial) ?_ ?_
  · rintro g p L k - ⟨⟩
  · intro g p L L' hopening hL _ hreq _
    have hlock : clearingLock ∈ L' := hreq (List.mem_singleton_self _)
    exact ⟨fun _ _ _ _ => hlock, hlock⟩

/-- The second lookup, under the lock. -/
theorem opens_relookup :
    clearingContract.Triple postgres r
      (fun account => match account with
        | some _ => Opening
        | none => Missing) (NameIsFree r) selectClearingAccount UnderLock := by
  refine triple_execute stable_underLock ?_ (fun _ _ _ _ => trivial) ?_ ?_
  · intro account
    cases account with
    | some account => exact stable_opening
    | none => exact stable_missing
  · rintro g p L k - ⟨⟩
  · intro g p L L' h hL _ _ _
    have hunder : UnderLock g p L' := ⟨fun _ _ _ _ => hL h.2, hL h.2⟩
    dsimp only [perform]
    cases hfound : (g.store.view p).accountByName externalClearingName with
    | some account => exact hunder.1
    | none => exact ⟨hunder, hfound⟩

/-- **`get_or_create_clearing_account`** creates the account under the lock, where its name is
free. -/
theorem opens_getOrCreateClearingAccount :
    OpensUnderLock r Account (getOrCreateClearingAccount gen) := by
  refine Contract.Triple.bind (opens_execute trivial) fun account => ?_
  cases account with
  | some account => exact Contract.Triple.ret stable_opening fun _ _ _ h => h
  | none =>
      refine Contract.Triple.bind opens_advisoryXactLock fun _ => ?_
      refine Contract.Triple.bind opens_relookup fun account => ?_
      cases account with
      | some account => exact Contract.Triple.ret stable_opening fun _ _ _ h => h
      | none =>
          refine Contract.Triple.bind (opens_insertAccount stable_missing ?_ ?_) fun _ => ?_
          · exact fun g p L h => ⟨h.1.1, fun _ _ => h.1.2⟩
          · exact fun g p L h _ => h.2
          · exact Contract.Triple.ret stable_opening fun _ _ _ h => h

/-- A commit beside a session that holds the lock does not create the account. -/
theorem opens_commitNow : OpensUnderLock r Unit Prog.commitNow := by
  refine ⟨stable_opening, Opening, Contract.Triple.ret stable_opening fun _ _ _ h => h, ?_⟩
  intro g p L _ hopening
  refine ⟨trivial, nofun, fun p' L' hcompat hbeside hlock hnone => ?_⟩
  refine Database.accountByName_view_eq_none_iff.mpr ⟨hnone, List.find?_eq_none.mpr ?_⟩
  intro a ha hname
  -- the session that commits would hold the lock as well
  have hname := of_decide_eq_true hname
  exact hcompat.not_mem (hopening a ha hname (hbeside a ha hname)) rfl hlock

/-- A message changes nothing. -/
theorem opens_send (m : Message) : OpensUnderLock r Unit (Prog.send (S := sql) m) :=
  ⟨stable_opening, Opening, Contract.Triple.ret stable_opening fun _ _ _ h => h,
    fun _ _ _ _ h => ⟨trivial, h, fun _ _ _ _ hnone => hnone⟩⟩

/-! ## Requests -/

/-- The parts of a program are taken one after the other. -/
theorem sequential_opensUnderLock :
    Prog.Sequential Stmt.AddsNoAccount Exn.IsHttp (OpensUnderLock r) where
  ret _ := Contract.Triple.ret stable_opening fun _ _ _ h => h
  raise {α e} he := Contract.Triple.raise stable_opening fun _ _ _ _ _ _ heq => by
    rw [heq] at he
    exact he
  stmt h := opens_execute h
  bind hx hf := Contract.Triple.bind hx hf

/-- **The branches** of `create_transaction`. -/
theorem opens_recordTransaction :
    OpensUnderLock r _ (recordTransaction H data gen) :=
  sequential_recordTransaction
    (sequential_opensUnderLock.mono fun stmt h => by cases stmt <;> trivial)
    opens_getOrCreateClearingAccount

theorem opens_finishTransaction {txn : Transaction Decimal} {entries : List LedgerEntry} :
    OpensUnderLock r _ (finishTransaction H gen txn entries) := by
  have hT := sequential_opensUnderLock (r := r)
  have hlink : OpensUnderLock r _ (linkTransaction H entries txn) :=
    hT.bind (opens_execute trivial) fun _ => hT.bind (opens_execute trivial) fun _ =>
      hT.bind (opens_execute trivial) fun _ => hT.ret _
  refine hT.bind hlink fun txn => ?_
  refine hT.bind (opens_execute trivial) fun _ => hT.bind (opens_execute trivial) fun _ => ?_
  exact hT.bind opens_commitNow fun _ => hT.bind (opens_execute trivial) fun _ => hT.ret _

/-- **`create_transaction`**. -/
theorem opens_createTransaction : OpensUnderLock r _ (createTransaction H data gen) := by
  have hT := sequential_opensUnderLock (r := r)
  refine hT.bind (opens_execute trivial) fun existing => ?_
  cases existing with
  | some row =>
      dsimp only
      unfold replay
      split
      · exact hT.raise trivial
      · exact hT.ret _
  | none => exact hT.bind opens_recordTransaction fun _ => opens_finishTransaction

/-- **`post_account`**: its account is no system account. -/
theorem opens_postAccount {body : AccountCreate} {id : UUID} {now : Timestamp}
    (hr : r = .call (.postAccount body id now)) : OpensUnderLock r _ (postAccount body id now) := by
  have hT := sequential_opensUnderLock (r := r)
  refine hT.bind (opens_execute trivial) fun existing => ?_
  cases existing with
  | some account => exact hT.raise trivial
  | none =>
      refine hT.bind (opens_insertAccount stable_opening ?_ ?_) fun _ => ?_
      · exact fun g p L h => ⟨h, fun _ => nofun⟩
      · intro g p L _ hposts
        rw [hr] at hposts
        exact absurd rfl hposts
      · exact hT.bind opens_commitNow fun _ => opens_execute trivial

/-- The relay's loop. -/
theorem opens_publishEach (accepts : Message → Bool) (now : UUID → Timestamp)
    (events : List OutboxEvent) : OpensUnderLock r _ (publishEach accepts now events) := by
  have hT := sequential_opensUnderLock (r := r)
  induction events with
  | nil => exact hT.ret _
  | cons event events ih =>
      rw [publishEach]
      split
      · exact hT.bind (opens_send _) fun _ => hT.bind ih fun _ => hT.ret _
      · exact hT.ret _

/-- **`outbox_publish`**. -/
theorem opens_outboxPublish (limit : ℕ) (accepts : Message → Bool) (now : UUID → Timestamp) :
    OpensUnderLock r _ (outboxPublish limit accepts now) := by
  have hT := sequential_opensUnderLock (r := r)
  refine hT.bind (opens_execute trivial) fun events => ?_
  refine hT.bind (opens_publishEach accepts now events) fun marks => ?_
  exact hT.bind (opens_execute trivial) fun _ => hT.bind opens_commitNow fun _ => hT.ret _

end Triples

/-- **The application is annotated**: External Clearing is created under its lock. -/
theorem annotated_opening :
    Annotated clearingContract (api H) (fun _ _ => Opening) NameIsFree := by
  refine ⟨fun r => ?_, fun r e => stable_nameIsFree r e⟩
  have hT := sequential_opensUnderLock (r := r)
  have hprogram : OpensUnderLock r _ (r.program H) := by
    cases r with
    | call call =>
        cases call with
        | postAccount body id now => exact hT.bind (opens_postAccount rfl) fun _ => hT.ret _
        | createTransaction data gen => exact hT.bind opens_createTransaction fun _ => hT.ret _
    | outboxPublish limit accepts now =>
        exact hT.bind (opens_outboxPublish limit accepts now) fun _ => hT.ret _
  -- a session that has done nothing has created no account
  refine hprogram.pre Contract.Stable.fresh ?_
  rintro g p L - ⟨rfl, rfl⟩
  exact nofun

/-! ## Counter-entries -/

/-- One entry of the transaction is on its customer's account, the other on account `id`, which pays
a deposit and is paid by a withdrawal. -/
def CounteredBy (db : Database) (t : Transaction ℤ) (id : UUID) : Prop :=
  ∃ customer, (db.entriesOf t.id).map (fun e => (e.accountId, e.amount)) =
    match t.type with
    | .deposit => [(id, -t.amount), (customer, t.amount)]
    | _ => [(customer, -t.amount), (id, t.amount)]

/-- All deposits and withdrawals have their counter-entry on External Clearing. -/
def CounterEntries (db : Database) : Prop :=
  ∀ t ∈ db.transactions, t.type ≠ .transfer →
    ∃ id, db.clearingId = some id ∧ CounteredBy db t id

section CounterEntries

variable {db db' db₀ : Database}

/-- External Clearing is found by the rows that come after it as well. -/
theorem Database.clearingId_of_prefix (h : db.accounts <+: db'.accounts) {id : UUID}
    (hid : db.clearingId = some id) : db'.clearingId = some id := by
  obtain ⟨account, hfound, rfl⟩ := Option.map_eq_some_iff.mp hid
  have hfound' : db'.accountByName externalClearingName = some account := h.find?_eq_some hfound
  rw [clearingId, hfound']
  rfl

/-- What a request posts has its counter-entry on External Clearing. -/
theorem Consistent.counteredBy_posting (h : Consistent H db) {data : TransactionCreate}
    {gen : Generated} {post : Posting} (hs : Settles H db data gen post)
    (htype : data.type ≠ .transfer) :
    ∃ id, (db.view (postingWrites H db data gen post)).clearingId = some id ∧
      CounteredBy (db.view (postingWrites H db data gen post)) (postedRow H db data gen) id := by
  have hrow : (postedRow H db data gen).id = gen.transactionId := rfl
  have hrowType : (postedRow H db data gen).type = data.type := rfl
  have hamount : (postedRow H db data gen).amount = data.cents := data.toScale_amount
  have hentries : ((db.view (postingWrites H db data gen post)).entriesOf
      (postedRow H db data gen).id).map (fun e => (e.accountId, e.amount)) =
      [(post.debit, -data.cents), (post.credit, data.cents)] := by
    rw [hrow, h.entriesOf_posting hs, if_pos rfl]
    simp [newEntries, data.toScale_amount, data.toScale_neg_amount]
  refine ⟨(db.clearingAccount gen).id, h.clearingId_posting hs htype, ?_⟩
  cases posts_of_posting hs.posting with
  | @deposit id hcase =>
      refine ⟨id, ?_⟩
      rw [hentries, hrowType, hcase, hamount]
  | @withdrawal id hcase =>
      refine ⟨id, ?_⟩
      rw [hentries, hrowType, hcase, hamount]
  | transfer hcase => exact absurd hcase htype

/-- Commits keep it so. -/
theorem CounterEntries.commit {call : Call} {p : Writes} (hc : CounterEntries db)
    (h : Consistent H db) (hcall : Commits H db call p) : CounterEntries (db.view p) := by
  -- the transactions there were keep their entries, and External Clearing its id
  have hold : ∀ t ∈ db.transactions, t.type ≠ .transfer →
      ∃ id, (db.view p).clearingId = some id ∧ CounteredBy (db.view p) t id := by
    intro t ht htype
    obtain ⟨id, hid, customer, hentries⟩ := hc t ht htype
    refine ⟨id, Database.clearingId_of_prefix (List.prefix_append _ _) hid, customer, ?_⟩
    rw [hcall.entriesOf_eq h ht, hentries]
  cases hcall with
  | postAccount =>
      intro t ht
      exact hold t (by simpa [accountWrites] using ht)
  | createTransaction hs =>
      intro t ht htype
      rcases List.mem_append.mp ht with ht | ht
      · exact hold t ht htype
      · obtain rfl := List.mem_singleton.mp ht
        exact h.counteredBy_posting hs htype

/-- So do marks. -/
theorem CounterEntries.mark (hc : CounterEntries db) (marks : List (UUID × Timestamp)) :
    CounterEntries (db.view (markWrites marks)) := by
  intro t ht htype
  rw [view_markWrites_transactions] at ht
  obtain ⟨id, hid, customer, hentries⟩ := hc t ht htype
  refine ⟨id, Database.clearingId_of_prefix (List.prefix_append _ _) hid, customer, ?_⟩
  rw [Database.entriesOf_view_markWrites, hentries]

/-- Every reachable database is so. -/
theorem Reachable.counterEntries (h : Reachable H db) : CounterEntries db :=
  h.consistent_invariant (fun _ hdb t ht => nomatch (hdb.transactions ▸ ht : t ∈ []))
    (fun _ _ _ => CounterEntries.commit) fun _ marks hc => hc.mark marks

/-- And every database that interleaved requests reach. -/
theorem counterEntries_of_api {w : World sql Database Writes Resource Request Response}
    (h₀ : Reachable H db₀) (h : (api H).Reachable (World.init db₀) w) :
    CounterEntries w.shared.store := by
  have hboth : Consistent H w.shared.store ∧ CounterEntries w.shared.store := by
    refine @api_store_invariant H db₀ w (fun db => Consistent H db ∧ CounterEntries db) h
      ⟨h₀.consistent, h₀.counterEntries⟩ ?_ ?_
    · exact fun db call p hdb hcall => ⟨hdb.1.commit hcall, hdb.2.commit hdb.1 hcall⟩
    · exact fun db marks hdb => ⟨hdb.1.mark marks, hdb.2.mark marks⟩
  exact hboth.2

end CounterEntries

/-! ## Runs -/

section Runs

variable {db₀ : Database} {w : World sql Database Writes Resource Request Response}

/-- The request that the session in a slot commits when it goes on. -/
def slotCommits : Slot sql Writes Resource Request Response → Option Request
  | .running ⟨r, .commit _, _, _, _⟩ => some r
  | _ => none

/-- **No such account from outside**: no step commits one for `POST /accounts`. -/
def PostsNoClearing (w : World sql Database Writes Resource Request Response) :
    Action Request → Prop
  | .advance i => ∀ slot ∈ w.slots[i]?, ∀ r ∈ slotCommits slot,
      ¬ r.PostsName externalClearingName
  | _ => True

instance (w : World sql Database Writes Resource Request Response) :
    (a : Action Request) → Decidable (PostsNoClearing w a)
  | .start _ => isTrue trivial
  | .acquire _ => isTrue trivial
  | .advance i => inferInstanceAs (Decidable (∀ slot ∈ w.slots[i]?, ∀ r ∈ slotCommits slot,
      ¬ r.PostsName externalClearingName))
  | .fault _ => isTrue trivial

/-- Commits then keep to the contract. -/
theorem PostsNoClearing.admits {a : Action Request} (h : PostsNoClearing w a)
    (hw : (api H).Reachable (World.init db₀) w) : clearingContract.Admits w a := by
  rintro i ⟨r, prog, pending, held, acquired⟩ next rfl hs rfl j t - - account haccount hname
  have hposts : ¬ r.PostsName externalClearingName := h _ hs r rfl
  cases r with
  | call call =>
      obtain ⟨written, hcommits, hview⟩ := commits_of_running hw hs rfl rfl
      have haccounts : pending.accounts = written.accounts :=
        List.append_cancel_left (congrArg Database.accounts hview)
      have haccount : account ∈ written.accounts := haccounts ▸ haccount
      cases hcommits with
      | postAccount =>
          obtain rfl := List.mem_singleton.mp haccount
          exact absurd hname hposts
      | @createTransaction data gen post hsettles =>
          rcases opened_of_posting hsettles.posting with hnil | ⟨hopened, -⟩
          · have haccount : account ∈ post.opened := haccount
            rw [hnil] at haccount
            cases haccount
          · have haccount : account ∈ post.opened := haccount
            rw [hopened] at haccount
            obtain rfl := List.mem_singleton.mp haccount
            rfl
  | outboxPublish limit accepts now =>
      obtain ⟨marks, hmarks⟩ := marks_of_running hw hs rfl
      have hmarks : pending = markWrites marks := hmarks
      rw [hmarks] at haccount
      cases haccount

/-- In such a run no statement fails on the name of an account, but for a request that was to create
one of that name for `POST /accounts`. -/
theorem PostsNoClearing.name_free
    (h : (api H).Reaches PostsNoClearing (World.init db₀) w) {i : ℕ}
    {s : Session sql Writes Resource Request Response} (hs : w.Running i s) {name : String}
    (hposts : ¬ s.call.PostsName name) {stmt : Stmt} {next : stmt.Reply → Prog sql Response}
    (hprog : s.prog = .exec stmt next) :
    violation w.shared.store s.pending stmt ≠ some (.accountsName name) := by
  intro hviolation
  have hreaches := h.mono fun v a hv ha => ha.admits hv.reachable
  have hsound := World.Sound.of_reaches annotated_opening (fun _ _ hadm => hadm)
    (World.Sound.init trivial) hreaches
  exact hsound.failed hs hprog (exec_of_violation hviolation) name hposts rfl

/-- **One External Clearing**: as long as no account of that name is committed for `POST /accounts`,
no insert fails on the name of an account, but those of `POST /accounts`; there is at most one
External Clearing; all deposits and withdrawals have their counter-entry on it; and it stays the
same. So it is from any database on, one without External Clearing included. -/
theorem cold_start (h₀ : Reachable H db₀)
    (h : (api H).Reaches PostsNoClearing (World.init db₀) w) :
    (∀ i s stmt next name, w.Running i s → ¬ s.call.PostsName name → s.prog = .exec stmt next →
        violation w.shared.store s.pending stmt ≠ some (.accountsName name)) ∧
      (w.shared.store.accounts.filter (·.name = externalClearingName)).length ≤ 1 ∧
      CounterEntries w.shared.store ∧
      ∀ w', (api H).Reachable w w' → ∀ id, w.shared.store.clearingId = some id →
        w'.shared.store.clearingId = some id := by
  have hreachable := h.reachable
  refine ⟨?_, ?_, counterEntries_of_api h₀ hreachable, fun w' h' id hid => ?_⟩
  · intro i s stmt next name hs hposts hprog
    exact PostsNoClearing.name_free h hs hposts hprog
  · have hkeys := (consistent_of_api h₀ hreachable).keys
    rw [Grouping.filter_eq_find? (Database.nodup_accountNames hkeys)]
    exact Option.length_toList_le
  · have hextends := extends_of_api SameEvent.refl (fun _ _ _ hsame hsame' => hsame'.trans hsame)
      OutboxEvent.unmarked_mark h₀ hreachable h'
    exact Database.clearingId_of_prefix hextends.accounts hid

/-- A customer, and no External Clearing. -/
def coldDatabase : Database := ⟨[⟨2, "alice", false, 0⟩], [], [], []⟩

theorem initial_coldDatabase : Initial coldDatabase := ⟨by decide, by decide, rfl, rfl, rfl⟩

/-- A withdrawal has created External Clearing when two deposits, which do not see it, queue for the
lock. It is rejected, as there is nothing to withdraw, and the deposits go on, one by one. -/
def coldRun : Option (World sql Database Writes Resource Request Response) :=
  (api sha256).run PostsNoClearing coldDatabase
    [.call (.createTransaction (sampleWithdrawal "withdrawal-1" validLength_withdrawalKey)
        (sampleGenerated 1)),
      .call (.createTransaction sampleDeposit (sampleGenerated 2)),
      .call (.createTransaction laterDeposit (sampleGenerated 3))]
    (List.replicate 5 0 ++ [1, 1, 2, 2] ++ List.replicate 4 0 ++ List.replicate 14 1 ++
      List.replicate 13 2)

/-- Both deposits commit, and External Clearing is the account that the first of them creates. -/
theorem coldRun_outcome :
    coldRun.map (fun w => (w.shared.store.accounts.map (·.name),
        w.shared.store.transactions.map (·.idempotencyKey), w.shared.store.clearingId)) =
      some (["alice", externalClearingName], ["deposit-1", "deposit-2"], some 21) := by
  decide +kernel

/-- In that run both deposits are paid by that account. -/
theorem cold_start_coldRun :
    ∃ w : World sql Database Writes Resource Request Response,
      w.shared.store.accounts.map (·.name) = ["alice", externalClearingName] ∧
        w.shared.store.transactions.map (·.idempotencyKey) = ["deposit-1", "deposit-2"] ∧
        w.shared.store.clearingId = some 21 ∧ CounterEntries w.shared.store := by
  obtain ⟨w, hw, houtcome⟩ := Option.map_eq_some_iff.mp coldRun_outcome
  simp only [Prod.mk.injEq] at houtcome
  obtain ⟨haccounts, htransactions, hclearing⟩ := houtcome
  obtain ⟨-, -, hcounter, -⟩ := cold_start (.initial initial_coldDatabase) (Reaches.of_run hw)
  exact ⟨w, haccounts, htransactions, hclearing, hcounter⟩

end Runs

end LedgerApi
