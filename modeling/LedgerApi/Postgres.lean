import Mathlib.Data.List.Sort
import LedgerApi.Library.Program
import LedgerApi.Models

/-! # The statements and what PostgreSQL makes of them

Every statement the application issues, with its reply, the locks it takes and its effect under
READ COMMITTED: it sees the rows committed when it runs and those its own transaction has written
(`Database.view`).

* A statement that adds a key to a unique index waits while another transaction in progress has
  added the same key, and fails once that key is in the table (`violation`).
* `FOR UPDATE` locks the row exclusively, if it is there, and so does an `UPDATE` of a unique
  column; the foreign-key check of a new ledger entry takes the account's row in the shared mode
  (`KEY SHARE`), which `FOR UPDATE` excludes.
* An advisory lock is a lock on a number.

`Writes.missed` notes the idempotency keys a transaction has looked up in vain. SERIALIZABLE would
hold them as predicate locks; under READ COMMITTED nothing reads them, here as in PostgreSQL. -/

namespace LedgerApi

open Sessions

/-- A key of a unique index. -/
inductive UniqueKey
  | accountsPkey (id : UUID)
  | accountsName (name : String)
  | transactionsPkey (id : UUID)
  | transactionsIdempotencyKey (key : String)
  | transactionsChainSeq (seq : ℤ)
  | ledgerEntriesPkey (id : UUID)
  | outboxEventsPkey (id : UUID)
  deriving DecidableEq, Repr

/-- What a transaction can lock. -/
inductive Resource
  /-- `pg_advisory_xact_lock` on a number. -/
  | advisory (key : ℕ)
  /-- A row of `accounts`. -/
  | accountRow (id : UUID)
  /-- A row of `transactions`. -/
  | transactionRow (id : UUID)
  /-- A key of a unique index. -/
  | index (key : UniqueKey)
  /-- A row of `outbox_events`. -/
  | outboxRow (id : UUID)
  deriving DecidableEq, Repr

/-- New chain columns of a row of `transactions`. -/
structure Rechained where
  id : UUID
  prevHash : Option String
  chainHash : Option String
  chainSeq : Option ℤ
  deriving DecidableEq, Repr

/-- They are set in the row with the id. -/
def Rechained.set (update : Rechained) (row : Transaction ℤ) : Transaction ℤ :=
  if row.id = update.id then
    { row with
      prevHash := update.prevHash
      chainHash := update.chainHash
      chainSeq := update.chainSeq }
  else row

/-- The uncommitted writes of a transaction. -/
structure Writes where
  accounts : List Account
  transactions : List (Transaction ℤ)
  ledgerEntries : List LedgerEntry
  outboxEvents : List OutboxEvent
  /-- The outbox rows marked published, with their `published_at`. -/
  published : List (UUID × Timestamp)
  /-- The updates of rows of `transactions` that were committed before. -/
  rechained : List Rechained
  /-- The idempotency keys whose lookup found no row. -/
  missed : List String
  deriving DecidableEq, Repr

/-- A transaction that has written nothing. -/
def Writes.blank : Writes := ⟨[], [], [], [], [], [], []⟩

/-- Why a session raises. -/
inductive Exn
  /-- `HTTPException`. -/
  | http (statusCode : ℕ) (detail : String)
  /-- `IntegrityError` of a unique index. -/
  | uniqueViolation (key : UniqueKey)
  /-- `IntegrityError` of a foreign key of `ledger_entries`. -/
  | foreignKeyViolation
  /-- A row to update or to refresh is not there. -/
  | missingRow
  deriving DecidableEq, Repr

/-- A message handed to the transport. -/
structure Message where
  eventId : String
  eventType : String
  payload : String
  deriving DecidableEq, Repr

/-- The statements. -/
inductive Stmt
  /-- `SELECT … FROM transactions WHERE idempotency_key = key` -/
  | selectTransactionByKey (key : String)
  /-- `SELECT … FROM transactions WHERE id = id`, to refresh an object. -/
  | refreshTransaction (id : UUID)
  /-- `SELECT … FROM transactions WHERE chain_seq IS NOT NULL ORDER BY chain_seq DESC LIMIT 1` -/
  | selectChainTip
  /-- `SELECT … FROM accounts WHERE name = name` -/
  | selectAccountByName (name : String)
  /-- `SELECT … FROM accounts WHERE id = id`, to refresh an object. -/
  | refreshAccount (id : UUID)
  /-- `SELECT … FROM accounts WHERE id = id FOR UPDATE` -/
  | selectAccountForUpdate (id : UUID)
  /-- `SELECT coalesce(sum(amount), 0) FROM ledger_entries WHERE account_id = id` -/
  | sumEntries (accountId : UUID)
  /-- `SELECT pg_advisory_xact_lock(key)` -/
  | advisoryXactLock (key : ℕ)
  /-- `INSERT INTO accounts` -/
  | insertAccount (row : Account)
  /-- `INSERT INTO transactions` -/
  | insertTransaction (row : Transaction ℤ)
  /-- `INSERT INTO ledger_entries` -/
  | insertLedgerEntries (rows : List LedgerEntry)
  /-- `UPDATE transactions SET prev_hash, chain_hash, chain_seq WHERE id = id` -/
  | updateChainColumns (id : UUID) (prevHash chainHash : Option String) (chainSeq : Option ℤ)
  /-- `INSERT INTO outbox_events` -/
  | insertOutboxEvent (row : OutboxEvent)
  /-- `SELECT … FROM outbox_events WHERE published_at IS NULL ORDER BY created_at LIMIT limit` -/
  | selectPendingEvents (limit : ℕ)
  /-- `UPDATE outbox_events SET published_at`, one row for each mark. -/
  | updatePublishedAt (marks : List (UUID × Timestamp))
  deriving DecidableEq

/-- What each statement replies with. -/
@[reducible] def Stmt.Reply : Stmt → Type
  | selectTransactionByKey _ => Option (Transaction ℤ)
  | refreshTransaction _ => Transaction ℤ
  | selectChainTip => Option (Transaction ℤ)
  | selectAccountByName _ => Option Account
  | refreshAccount _ => Account
  | selectAccountForUpdate _ => Option Account
  | sumEntries _ => Decimal
  | selectPendingEvents _ => List OutboxEvent
  | _ => Unit

/-- The vocabulary of the application's sessions. -/
abbrev sql : Signature := ⟨Stmt, Stmt.Reply, Message, Exn⟩

/-- `db.execute`, and the statements a flush issues. -/
def execute (stmt : Stmt) : Prog sql stmt.Reply := Prog.stmt (S := sql) stmt

/-! ## Keys of rows -/

/-- The unique keys of a row of `accounts`. -/
def Account.uniqueKeys (row : Account) : List UniqueKey :=
  [.accountsPkey row.id, .accountsName row.name]

/-- The unique keys of a row of `transactions`; a NULL `chain_seq` is in no index. -/
def Transaction.uniqueKeys (row : Transaction ℤ) : List UniqueKey :=
  .transactionsPkey row.id :: .transactionsIdempotencyKey row.idempotencyKey ::
    row.chainSeq.toList.map .transactionsChainSeq

/-- The unique key of a row of `ledger_entries`. -/
def LedgerEntry.uniqueKeys (row : LedgerEntry) : List UniqueKey := [.ledgerEntriesPkey row.id]

/-- The unique key of a row of `outbox_events`. -/
def OutboxEvent.uniqueKeys (row : OutboxEvent) : List UniqueKey := [.outboxEventsPkey row.id]

/-- The unique keys of all rows. -/
def Database.uniqueKeys (db : Database) : List UniqueKey :=
  db.accounts.flatMap Account.uniqueKeys ++ db.transactions.flatMap Transaction.uniqueKeys ++
    db.ledgerEntries.flatMap LedgerEntry.uniqueKeys ++
    db.outboxEvents.flatMap OutboxEvent.uniqueKeys

/-- The unique keys a statement adds. -/
def Stmt.uniqueKeys : Stmt → List UniqueKey
  | insertAccount row => row.uniqueKeys
  | insertTransaction row => row.uniqueKeys
  | insertLedgerEntries rows => rows.flatMap LedgerEntry.uniqueKeys
  | updateChainColumns _ _ _ chainSeq => chainSeq.toList.map .transactionsChainSeq
  | insertOutboxEvent row => row.uniqueKeys
  | _ => []

/-! ## What a transaction sees -/

/-- A row of `outbox_events` with the marks of a transaction. -/
def OutboxEvent.mark (marks : List (UUID × Timestamp)) (row : OutboxEvent) : OutboxEvent :=
  match marks.lookup row.id with
  | some now => { row with publishedAt := some now }
  | none => row

/-- The committed rows and a transaction's own; also what its commit makes of the tables. -/
def Database.view (db : Database) (w : Writes) : Database where
  accounts := db.accounts ++ w.accounts
  transactions :=
    w.rechained.foldl (fun rows update => rows.map update.set) db.transactions ++ w.transactions
  ledgerEntries := db.ledgerEntries ++ w.ledgerEntries
  outboxEvents := (db.outboxEvents ++ w.outboxEvents).map (OutboxEvent.mark w.published)

/-- The transaction with an idempotency key. -/
def Database.transactionByKey (db : Database) (key : String) : Option (Transaction ℤ) :=
  db.transactions.find? (·.idempotencyKey = key)

/-- The account with a name. -/
def Database.accountByName (db : Database) (name : String) : Option Account :=
  db.accounts.find? (·.name = name)

/-- The account with an id. -/
def Database.accountById (db : Database) (id : UUID) : Option Account :=
  db.accounts.find? (·.id = id)

/-- `coalesce(sum(amount), 0)`: the sum of no rows is the literal `0`. -/
def coalesceSum (amounts : List ℤ) : Decimal :=
  if amounts = [] then ⟨0, 0⟩ else readAmount amounts.sum

/-- The amounts of the entries of an account. -/
def Database.amounts (db : Database) (accountId : UUID) : List ℤ :=
  (db.ledgerEntries.filter (·.accountId = accountId)).map (·.amount)

/-- The order of rows by `chain_seq`. -/
def Transaction.ChainLe (s t : Transaction ℤ) : Prop := s.chainSeq.getD 0 ≤ t.chainSeq.getD 0

instance : DecidableRel Transaction.ChainLe := fun s t =>
  inferInstanceAs (Decidable (s.chainSeq.getD 0 ≤ t.chainSeq.getD 0))

instance : Std.Total Transaction.ChainLe := ⟨fun _ _ => Int.le_total _ _⟩

instance : IsTrans (Transaction ℤ) Transaction.ChainLe := ⟨fun _ _ _ => Int.le_trans⟩

/-- The chained transactions, in the order of `chain_seq`. -/
def Database.chain (db : Database) : List (Transaction ℤ) :=
  (db.transactions.filter (·.chainSeq.isSome)).insertionSort Transaction.ChainLe

/-- The unpublished events, oldest first. SQL leaves open in which order those of one `created_at`
come; here it is the order in which they were inserted. -/
def Database.pendingEvents (db : Database) : List OutboxEvent :=
  (db.outboxEvents.filter (·.publishedAt = none)).insertionSort fun e f =>
    e.createdAt ≤ f.createdAt

/-- The rows a transaction has inserted. -/
def Writes.rows (w : Writes) : Database :=
  ⟨w.accounts, w.transactions, w.ledgerEntries, w.outboxEvents⟩

/-! ## Effects -/

/-- The first of some new keys that is taken, by a row or by an earlier one of them. -/
def firstTaken : List UniqueKey → List UniqueKey → Option UniqueKey
  | _, [] => none
  | taken, k :: ks => if k ∈ taken then some k else firstTaken (k :: taken) ks

/-- The unique key on which a statement fails. -/
def violation (db : Database) (w : Writes) (stmt : Stmt) : Option UniqueKey :=
  firstTaken (db.view w).uniqueKeys stmt.uniqueKeys

/-- The effect of a statement that violates no unique key. -/
def perform (db : Database) (w : Writes) : (stmt : Stmt) → Except Exn (stmt.Reply × Writes)
  | .selectTransactionByKey key =>
      let found := (db.view w).transactionByKey key
      -- the note of a lookup in vain is for the record, as no statement reads it
      .ok (found, if found.isSome then w else { w with missed := key :: w.missed })
  | .refreshTransaction id =>
      match (db.view w).transactions.find? (·.id = id) with
      | some row => .ok (row, w)
      | none => .error .missingRow
  | .selectChainTip => .ok ((db.view w).chain.getLast?, w)
  | .selectAccountByName name => .ok ((db.view w).accountByName name, w)
  | .refreshAccount id =>
      match (db.view w).accountById id with
      | some row => .ok (row, w)
      | none => .error .missingRow
  | .selectAccountForUpdate id => .ok ((db.view w).accountById id, w)
  | .sumEntries accountId => .ok (coalesceSum ((db.view w).amounts accountId), w)
  | .advisoryXactLock _ => .ok ((), w)
  | .insertAccount row => .ok ((), { w with accounts := w.accounts ++ [row] })
  | .insertTransaction row => .ok ((), { w with transactions := w.transactions ++ [row] })
  | .insertLedgerEntries rows =>
      -- the foreign keys to `transactions` and `accounts`
      if ∀ e ∈ rows, e.transactionId ∈ (db.view w).transactions.map (·.id) ∧
          e.accountId ∈ (db.view w).accounts.map (·.id) then
        .ok ((), { w with ledgerEntries := w.ledgerEntries ++ rows })
      else .error .foreignKeyViolation
  | .updateChainColumns id prevHash chainHash chainSeq =>
      let update : Rechained := ⟨id, prevHash, chainHash, chainSeq⟩
      if id ∈ (db.view w).transactions.map (·.id) then
        -- a row that the session has inserted is changed at once, a committed one at its commit
        .ok ((), { w with
          transactions := w.transactions.map update.set
          rechained :=
            if id ∈ db.transactions.map (·.id) then w.rechained ++ [update] else w.rechained })
      else .error .missingRow
  | .insertOutboxEvent row => .ok ((), { w with outboxEvents := w.outboxEvents ++ [row] })
  | .selectPendingEvents limit => .ok ((db.view w).pendingEvents.take limit, w)
  | .updatePublishedAt marks => .ok ((), { w with published := w.published ++ marks })

/-- The locks a statement takes, in the order it takes them. -/
def Stmt.footprint (stmt : Stmt) : List (Lock Resource) :=
  let keys := stmt.uniqueKeys.map fun key => .excl (.index key)
  match stmt with
  | selectAccountForUpdate id => [.excl (.accountRow id)]
  | advisoryXactLock key => [.excl (.advisory key)]
  -- the row is locked before its new key is added
  | updateChainColumns id _ _ _ => .excl (.transactionRow id) :: keys
  -- for the foreign key to `accounts`; the other one refers to a row nobody else sees
  | insertLedgerEntries rows => keys ++ rows.map fun row => .share (.accountRow row.accountId)
  | updatePublishedAt marks => marks.map fun mark => .excl (.outboxRow mark.1)
  | _ => keys

/-- The keys that it adds are among them. -/
theorem Stmt.index_mem_footprint {stmt : Stmt} {k : UniqueKey} (hk : k ∈ stmt.uniqueKeys) :
    .excl (.index k) ∈ stmt.footprint := by
  have hmem : Lock.excl (Resource.index k) ∈ stmt.uniqueKeys.map fun key => .excl (.index key) :=
    List.mem_map_of_mem hk
  cases stmt with
  | updateChainColumns id prevHash chainHash chainSeq => exact List.mem_cons_of_mem _ hmem
  | insertLedgerEntries rows => exact List.mem_append_left _ hmem
  | insertAccount row | insertTransaction row | insertOutboxEvent row => exact hmem
  | _ => cases hk

/-- A statement that fails on a key takes no locks, and a row that is not there is not locked. -/
def engaged (db : Database) (w : Writes) (stmt : Stmt) : Bool :=
  (violation db w stmt).isNone &&
    match stmt with
    | .selectAccountForUpdate id => ((db.view w).accountById id).isSome
    | _ => true

/-- PostgreSQL with the tables of the application. -/
def postgres : Store sql Database Writes Resource where
  blank := .blank
  footprint := Stmt.footprint
  engaged := engaged
  exec db w stmt :=
    -- a unique key is checked as its row is inserted, foreign keys when the statement ends
    match violation db w stmt with
    | some key => .error (.uniqueViolation key)
    | none => perform db w stmt
  merge := Database.view

theorem exec_of_violation {db : Database} {w : Writes} {stmt : Stmt} {k : UniqueKey}
    (h : violation db w stmt = some k) :
    postgres.exec db w stmt = .error (.uniqueViolation k) := by
  simp only [postgres, h]

theorem exec_of_free {db : Database} {w : Writes} {stmt : Stmt} (h : violation db w stmt = none) :
    postgres.exec db w stmt = perform db w stmt := by
  simp only [postgres, h]

/-- What is executed is performed. -/
theorem perform_of_exec {db : Database} {w : Writes} {stmt : Stmt} {r : stmt.Reply × Writes}
    (h : postgres.exec db w stmt = .ok r) : perform db w stmt = .ok r := by
  simp only [postgres] at h
  split at h
  · cases h
  · exact h

/-- The accounts a statement inserts. -/
def Stmt.newAccounts : Stmt → List Account
  | insertAccount row => [row]
  | _ => []

/-- The events a statement inserts. -/
def Stmt.newEvents : Stmt → List OutboxEvent
  | insertOutboxEvent row => [row]
  | _ => []

/-- The marks a statement sets. -/
def Stmt.marks : Stmt → List (UUID × Timestamp)
  | updatePublishedAt marks => marks
  | _ => []

/-- **What a statement adds** to the accounts, the events and the marks of its session. -/
theorem perform_effect {db : Database} {w w' : Writes} {stmt : Stmt} {r : stmt.Reply}
    (h : perform db w stmt = .ok (r, w')) :
    w'.accounts = w.accounts ++ stmt.newAccounts ∧
      w'.outboxEvents = w.outboxEvents ++ stmt.newEvents ∧
      w'.published = w.published ++ stmt.marks := by
  cases stmt <;> simp only [perform] at h
  case selectTransactionByKey =>
    obtain rfl := (Prod.mk.inj (Except.ok.inj h)).2
    split <;> simp [Stmt.newAccounts, Stmt.newEvents, Stmt.marks]
  all_goals
    try split at h
    all_goals first
      | (obtain rfl := (Prod.mk.inj (Except.ok.inj h)).2
         simp [Stmt.newAccounts, Stmt.newEvents, Stmt.marks])
      | cases h

/-! ## Keys and views -/

theorem Database.mem_uniqueKeys {db : Database} {k : UniqueKey} :
    k ∈ db.uniqueKeys ↔ (∃ a ∈ db.accounts, k ∈ a.uniqueKeys) ∨
      (∃ t ∈ db.transactions, k ∈ t.uniqueKeys) ∨ (∃ e ∈ db.ledgerEntries, k ∈ e.uniqueKeys) ∨
      ∃ o ∈ db.outboxEvents, k ∈ o.uniqueKeys := by
  simp only [uniqueKeys, List.mem_append, List.mem_flatMap, or_assoc]

theorem Database.accountsPkey_mem_iff {db : Database} {id : UUID} :
    .accountsPkey id ∈ db.uniqueKeys ↔ id ∈ db.accounts.map (·.id) := by
  simp [mem_uniqueKeys, Account.uniqueKeys, Transaction.uniqueKeys, LedgerEntry.uniqueKeys,
    OutboxEvent.uniqueKeys, eq_comm]

theorem Database.transactionsPkey_mem_iff {db : Database} {id : UUID} :
    .transactionsPkey id ∈ db.uniqueKeys ↔ id ∈ db.transactions.map (·.id) := by
  simp [mem_uniqueKeys, Account.uniqueKeys, Transaction.uniqueKeys, LedgerEntry.uniqueKeys,
    OutboxEvent.uniqueKeys, eq_comm]

@[simp] theorem OutboxEvent.uniqueKeys_mark (marks : List (UUID × Timestamp)) (row : OutboxEvent) :
    (row.mark marks).uniqueKeys = row.uniqueKeys := by
  unfold mark
  split <;> rfl

@[simp] theorem OutboxEvent.mark_nil (row : OutboxEvent) : row.mark [] = row := rfl

/-- A row without a mark stays as it is. -/
theorem OutboxEvent.mark_of_not_mem {marks : List (UUID × Timestamp)} {row : OutboxEvent}
    (h : row.id ∉ marks.map Prod.fst) : row.mark marks = row := by
  have hnone : marks.lookup row.id = none := by
    refine List.lookup_eq_none_iff.mpr fun p hp => ?_
    exact bne_iff_ne.mpr fun hid => h (List.mem_map.mpr ⟨p, hp, hid.symm⟩)
  rw [mark, hnone]

/-- A row with a mark is published. -/
theorem OutboxEvent.publishedAt_mark_of_mem {marks : List (UUID × Timestamp)} {row : OutboxEvent}
    (h : row.id ∈ marks.map Prod.fst) : (row.mark marks).publishedAt ≠ none := by
  unfold mark
  split
  case h_1 => simp
  case h_2 hnone =>
    obtain ⟨p, hp, hid⟩ := List.mem_map.mp h
    exact absurd hid.symm (bne_iff_ne.mp (List.lookup_eq_none_iff.mp hnone p hp))

@[simp] theorem Database.view_accounts (db : Database) (w : Writes) :
    (db.view w).accounts = db.accounts ++ w.accounts := rfl

/-- Without updates the transactions are appended like the other rows. -/
@[simp] theorem Database.view_transactions {db : Database} {w : Writes} (h : w.rechained = []) :
    (db.view w).transactions = db.transactions ++ w.transactions := by
  rw [view, h]
  rfl

/-- Updates leave as many rows. -/
theorem length_rechained (updates : List Rechained) (rows : List (Transaction ℤ)) :
    (updates.foldl (fun rows update => rows.map update.set) rows).length = rows.length := by
  induction updates generalizing rows with
  | nil => rfl
  | cons update updates ih => rw [List.foldl_cons, ih, List.length_map]

/-- Writes that look alike have inserted the same transactions. -/
theorem Database.transactions_eq_of_view {db : Database} {p q : Writes}
    (h : db.view p = db.view q) : p.transactions = q.transactions :=
  (List.append_inj (congrArg Database.transactions h)
    ((length_rechained _ _).trans (length_rechained _ _).symm)).2

@[simp] theorem Database.view_ledgerEntries (db : Database) (w : Writes) :
    (db.view w).ledgerEntries = db.ledgerEntries ++ w.ledgerEntries := rfl

/-- Without marks the events are appended like the other rows. -/
theorem Database.view_outboxEvents {db : Database} {w : Writes} (h : w.published = []) :
    (db.view w).outboxEvents = db.outboxEvents ++ w.outboxEvents := by
  rw [view, h]
  exact List.map_id _

@[simp] theorem Database.view_blank (db : Database) : db.view .blank = db := by
  have hevents : (db.view .blank).outboxEvents = db.outboxEvents :=
    (Database.view_outboxEvents rfl).trans (List.append_nil _)
  calc db.view .blank
      = ⟨db.accounts ++ [], db.transactions ++ [], db.ledgerEntries ++ [],
          (db.view .blank).outboxEvents⟩ := rfl
    _ = db := by rw [hevents, List.append_nil, List.append_nil, List.append_nil]

/-- The keys of a view are those of the committed rows and those of the transaction's own. -/
theorem Database.uniqueKeys_view_perm (db : Database) {w : Writes} (h : w.rechained = []) :
    (db.view w).uniqueKeys.Perm (db.uniqueKeys ++ w.rows.uniqueKeys) := by
  have hevents : (db.view w).outboxEvents.flatMap OutboxEvent.uniqueKeys =
      db.outboxEvents.flatMap OutboxEvent.uniqueKeys ++
        w.outboxEvents.flatMap OutboxEvent.uniqueKeys := by
    simp only [view, List.flatMap_map, OutboxEvent.uniqueKeys_mark, List.flatMap_append]
  -- the same keys table by table, so only their order differs
  refine List.perm_iff_count.mpr fun k => ?_
  simp only [uniqueKeys, hevents, view_accounts, view_transactions h, view_ledgerEntries,
    Writes.rows, List.flatMap_append, List.count_append]
  omega

theorem Database.mem_uniqueKeys_view {db : Database} {w : Writes} (h : w.rechained = [])
    {k : UniqueKey} :
    k ∈ (db.view w).uniqueKeys ↔ k ∈ db.uniqueKeys ∨ k ∈ w.rows.uniqueKeys := by
  rw [(db.uniqueKeys_view_perm h).mem_iff, List.mem_append]

theorem firstTaken_eq_none_iff {taken keys : List UniqueKey} :
    firstTaken taken keys = none ↔ keys.Nodup ∧ ∀ k ∈ keys, k ∉ taken := by
  induction keys generalizing taken with
  | nil => simp [firstTaken]
  | cons k ks ih =>
      rw [firstTaken]
      split
      case isTrue h => simp [h]
      case isFalse h =>
        rw [ih, List.nodup_cons]
        constructor
        · -- the rest is free of `k`, which counts as taken from here on
          rintro ⟨hnodup, hks⟩
          refine ⟨⟨fun hk => hks k hk (by simp), hnodup⟩, fun k' hk' => ?_⟩
          rcases List.mem_cons.mp hk' with rfl | hk'
          · exact h
          · exact fun hmem => hks k' hk' (List.mem_cons_of_mem _ hmem)
        · rintro ⟨⟨hk, hnodup⟩, hks⟩
          refine ⟨hnodup, fun k' hk' hmem => ?_⟩
          rcases List.mem_cons.mp hmem with rfl | hmem
          · exact hk hk'
          · exact hks k' (List.mem_cons_of_mem _ hk') hmem

theorem firstTaken_mem {taken keys : List UniqueKey} {k : UniqueKey}
    (h : firstTaken taken keys = some k) : k ∈ keys := by
  induction keys generalizing taken with
  | nil => cases h
  | cons k' ks ih =>
      rw [firstTaken] at h
      split at h
      case isTrue => exact Option.some.inj h ▸ List.mem_cons_self
      case isFalse => exact List.mem_cons_of_mem _ (ih h)

/-- Among distinct keys the first that is taken was taken before. -/
theorem firstTaken_taken {taken keys : List UniqueKey} {k : UniqueKey}
    (h : firstTaken taken keys = some k) (hnodup : keys.Nodup) : k ∈ taken := by
  induction keys generalizing taken with
  | nil => cases h
  | cons k' ks ih =>
      obtain ⟨hk', hnodup⟩ := List.nodup_cons.mp hnodup
      rw [firstTaken] at h
      split at h
      case isTrue htaken => exact Option.some.inj h ▸ htaken
      case isFalse =>
        -- the rest found `k'` itself taken only if `k'` occurs in it again
        rcases List.mem_cons.mp (ih h hnodup) with rfl | hmem
        · exact absurd (firstTaken_mem h) hk'
        · exact hmem

/-- A statement violates no key when the keys it adds are distinct and new. -/
theorem violation_eq_none_iff {db : Database} {w : Writes} (h : w.rechained = []) {stmt : Stmt} :
    violation db w stmt = none ↔
      stmt.uniqueKeys.Nodup ∧ ∀ k ∈ stmt.uniqueKeys, k ∉ db.uniqueKeys ∧ k ∉ w.rows.uniqueKeys := by
  rw [violation, firstTaken_eq_none_iff]
  simp only [Database.mem_uniqueKeys_view h, not_or]

/-- A transaction has only inserted rows, whose keys are distinct and new, and set marks. -/
structure Fresh (db : Database) (w : Writes) : Prop where
  rechained : w.rechained = []
  nodup : w.rows.uniqueKeys.Nodup
  not_mem : ∀ k ∈ w.rows.uniqueKeys, k ∉ db.uniqueKeys

instance (db : Database) (w : Writes) : Decidable (Fresh db w) :=
  decidable_of_iff (w.rechained = [] ∧ w.rows.uniqueKeys.Nodup ∧
      ∀ k ∈ w.rows.uniqueKeys, k ∉ db.uniqueKeys)
    ⟨fun h => ⟨h.1, h.2.1, h.2.2⟩, fun h => ⟨h.1, h.2, h.3⟩⟩

/-- Fresh rows keep the keys of the tables distinct. -/
theorem Fresh.nodup_view {db : Database} {w : Writes} (h : Fresh db w)
    (hdb : db.uniqueKeys.Nodup) : (db.view w).uniqueKeys.Nodup := by
  rw [(db.uniqueKeys_view_perm h.rechained).nodup_iff, List.nodup_append]
  exact ⟨hdb, h.nodup, fun k hk k' hk' hkk => h.not_mem k' hk' (hkk ▸ hk)⟩

/-- Fresh accounts have new ids. -/
theorem Fresh.account_not_mem {db : Database} {w : Writes} (h : Fresh db w) {a : Account}
    (ha : a ∈ w.accounts) : a.id ∉ db.accounts.map (·.id) := by
  rw [← Database.accountsPkey_mem_iff]
  exact h.not_mem _ (Database.mem_uniqueKeys.mpr (Or.inl ⟨a, ha, List.mem_cons_self⟩))

/-- Fresh transactions have new ids. -/
theorem Fresh.transaction_not_mem {db : Database} {w : Writes} (h : Fresh db w)
    {t : Transaction ℤ} (ht : t ∈ w.transactions) : t.id ∉ db.transactions.map (·.id) := by
  rw [← Database.transactionsPkey_mem_iff]
  exact h.not_mem _ (Database.mem_uniqueKeys.mpr (Or.inr (Or.inl ⟨t, ht, List.mem_cons_self⟩)))

/-- Before the last statement of a transaction with fresh rows its rows are fresh, and that
statement violates no key. -/
theorem Fresh.of_perm {db : Database} {w w' : Writes} {stmt : Stmt} (h : Fresh db w')
    (hw : w.rechained = [])
    (hperm : w'.rows.uniqueKeys.Perm (w.rows.uniqueKeys ++ stmt.uniqueKeys)) :
    Fresh db w ∧ violation db w stmt = none := by
  have hnodup := List.nodup_append.mp (hperm.nodup_iff.mp h.nodup)
  have habsent : ∀ k ∈ w.rows.uniqueKeys ++ stmt.uniqueKeys, k ∉ db.uniqueKeys := fun k hk =>
    h.not_mem k (hperm.mem_iff.mpr hk)
  refine ⟨⟨hw, hnodup.1, fun k hk => habsent k (List.mem_append_left _ hk)⟩, ?_⟩
  refine (violation_eq_none_iff hw).mpr ⟨hnodup.2.1, fun k hk => ⟨?_, fun hmem => ?_⟩⟩
  · exact habsent k (List.mem_append_right _ hk)
  · exact hnodup.2.2 k hmem k hk rfl

/-! ## Lookups -/

theorem Database.transactionByKey_eq_none_iff {db : Database} {key : String} :
    db.transactionByKey key = none ↔ .transactionsIdempotencyKey key ∉ db.uniqueKeys := by
  rw [transactionByKey, List.find?_eq_none]
  simp [mem_uniqueKeys, Account.uniqueKeys, Transaction.uniqueKeys, LedgerEntry.uniqueKeys,
    OutboxEvent.uniqueKeys, eq_comm]

theorem Database.accountByName_eq_none_iff {db : Database} {name : String} :
    db.accountByName name = none ↔ .accountsName name ∉ db.uniqueKeys := by
  rw [accountByName, List.find?_eq_none]
  simp [mem_uniqueKeys, Account.uniqueKeys, Transaction.uniqueKeys, LedgerEntry.uniqueKeys,
    OutboxEvent.uniqueKeys, eq_comm]

theorem Database.accountById_isSome_iff {db : Database} {id : UUID} :
    (db.accountById id).isSome ↔ id ∈ db.accounts.map (·.id) := by
  simp [accountById]

/-- A lookup that finds a committed row finds it in every view. -/
theorem Database.transactionByKey_view {db : Database} {w : Writes} (hw : w.rechained = [])
    {key : String} {row : Transaction ℤ} (h : db.transactionByKey key = some row) :
    (db.view w).transactionByKey key = some row := by
  rw [transactionByKey, view_transactions hw]
  exact (List.prefix_append db.transactions w.transactions).find?_eq_some h

theorem Database.accountByName_view {db : Database} {w : Writes} {name : String} {row : Account}
    (h : db.accountByName name = some row) : (db.view w).accountByName name = some row :=
  (List.prefix_append db.accounts w.accounts).find?_eq_some h

/-- Whatever the form of the sum, it is the sum in cents. -/
theorem exactAt_coalesceSum (amounts : List ℤ) :
    (coalesceSum amounts).exactAt amountExp = some amounts.sum := by
  unfold coalesceSum
  split
  case isTrue h => rw [h]; decide
  case isFalse => exact Decimal.exactAt_self _ _

/-- Writes without entries change no balance. -/
theorem Database.amounts_view {db : Database} {w : Writes} (h : w.ledgerEntries = []) (id : UUID) :
    (db.view w).amounts id = db.amounts id := by
  rw [amounts, view_ledgerEntries, h, List.append_nil, amounts]

/-! ## The chain -/

theorem Database.mem_chain {db : Database} {t : Transaction ℤ} :
    t ∈ db.chain ↔ t ∈ db.transactions ∧ t.chainSeq.isSome := by
  rw [chain, List.mem_insertionSort, List.mem_filter]

/-- No row of the chain comes after its tip. -/
theorem Database.chainLe_tip {db : Database} {t last : Transaction ℤ} (ht : t ∈ db.chain)
    (hlast : db.chain.getLast? = some last) : t.ChainLe last := by
  obtain ⟨rows, hrows⟩ := List.getLast?_eq_some_iff.mp hlast
  have hsorted : db.chain.Pairwise Transaction.ChainLe := List.pairwise_insertionSort _ _
  rw [hrows] at ht hsorted
  -- before the last row of a sorted list, or the last row itself
  rcases List.mem_append.mp ht with ht | ht
  · exact (List.pairwise_append.mp hsorted).2.2 t ht last (by simp)
  · rw [List.mem_singleton.mp ht]
    exact Int.le_refl _

/-- Rows without `chain_seq` are not in the chain. -/
theorem Database.chain_view {db : Database} {w : Writes} (hw : w.rechained = [])
    (h : ∀ t ∈ w.transactions, t.chainSeq = none) : (db.view w).chain = db.chain := by
  have hnone : w.transactions.filter (·.chainSeq.isSome) = [] := by
    simpa [List.filter_eq_nil_iff] using h
  rw [chain, view_transactions hw, List.filter_append, hnone, List.append_nil, chain]

end LedgerApi
