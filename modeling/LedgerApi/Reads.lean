import LedgerApi.Api
import LedgerApi.Audit
import LedgerApi.Library.Ordering

/-! # Reading

The handlers of `app/main.py` that only read, over the queries they issue; the two audits are the
functions `verifyLedger` and `verifyHashChain` of the committed rows. A query answers from the
committed rows (`Query.answer`); where it orders rows by `created_at`, which several rows may share,
the order of those is left to the database (`Planner`).

Sums of amounts have far fewer than the 28 digits at which `Decimal` arithmetic would round. Dates
are turned into timestamps in UTC. -/

namespace LedgerApi

open Sessions Ordering

/-! ## Queries -/

/-- An entry with its transaction. -/
abbrev StatementRow := LedgerEntry × Transaction ℤ

/-- How the database orders rows that tie. -/
structure Planner where
  /-- `ORDER BY transactions.created_at DESC` -/
  newestFirst : OrderBy fun s t : Transaction ℤ => t.createdAt ≤ s.createdAt
  /-- `ORDER BY transactions.created_at ASC`, of entries joined with their transactions. -/
  statement : OrderBy fun r s : StatementRow => r.2.createdAt ≤ s.2.createdAt
  /-- `ORDER BY outbox_events.created_at ASC` -/
  oldestFirst : OrderBy fun e f : OutboxEvent => e.createdAt ≤ f.createdAt

/-- A database that keeps rows that tie in the order of their insertion. -/
def Planner.stable : Planner :=
  ⟨.descending Transaction.createdAt, .ascending fun row : StatementRow => row.2.createdAt,
    .ascending OutboxEvent.createdAt⟩

/-- The queries. -/
inductive Query
  /-- `db.get(Account, id)` -/
  | getAccount (id : UUID)
  /-- `db.get(Transaction, id)` -/
  | getTransaction (id : UUID)
  /-- `db.get(LedgerEntry, id)` -/
  | getLedgerEntry (id : UUID)
  /-- `SELECT coalesce(sum(amount), 0) FROM ledger_entries WHERE account_id = id` -/
  | sumEntries (accountId : UUID)
  /-- The page of `list_transactions`: entries of an account, a type, `created_at < before`. -/
  | selectTransactions (accountId : Option UUID) (type : Option TransactionType)
    (before : Option Timestamp) (limit : ℕ)
  /-- The page of `list_entries`, in the order of the ids. -/
  | selectEntries (accountId : UUID) (after : Option UUID) (limit : ℕ)
  /-- The entries of an account joined with their transactions, `start ≤ created_at < finish`. -/
  | selectStatement (accountId : UUID) (start finish : Option Timestamp)
  /-- `SELECT … FROM outbox_events WHERE published_at IS NULL ORDER BY created_at LIMIT limit` -/
  | selectPending (limit : ℕ)
  /-- `SELECT count(*) FROM accounts` -/
  | countAccounts
  /-- `SELECT count(*) FROM transactions` -/
  | countTransactions
  /-- `SELECT count(*) FROM ledger_entries` -/
  | countEntries
  /-- `SELECT count(*) FROM outbox_events WHERE published_at IS NULL` -/
  | countPending
  deriving DecidableEq

/-- What each query replies with. -/
@[reducible] def Query.Reply : Query → Type
  | getAccount _ => Option Account
  | getTransaction _ => Option (Transaction ℤ)
  | getLedgerEntry _ => Option LedgerEntry
  | sumEntries _ => Decimal
  | selectTransactions _ _ _ _ => List (Transaction ℤ)
  | selectEntries _ _ _ => List LedgerEntry
  | selectStatement _ _ _ => List StatementRow
  | selectPending _ => List OutboxEvent
  | _ => ℕ

/-- The transactions that match the filters of a listing. -/
def Database.matching (db : Database) (accountId : Option UUID) (type : Option TransactionType) :
    List (Transaction ℤ) :=
  db.transactions.filter fun t =>
    (∀ id ∈ accountId, t.id ∈ (db.ledgerEntries.filter (·.accountId = id)).map (·.transactionId)) ∧
      ∀ type' ∈ type, t.type = type'

/-- The entries of an account. -/
def Database.entriesOn (db : Database) (accountId : UUID) : List LedgerEntry :=
  db.ledgerEntries.filter (·.accountId = accountId)

/-- The entries of an account, each with its transaction. -/
def Database.statementRows (db : Database) (accountId : UUID) : List StatementRow :=
  (db.entriesOn accountId).flatMap fun e =>
    (db.transactions.filter (·.id = e.transactionId)).map fun t => (e, t)

/-- The answer to a query. -/
def Query.answer (planner : Planner) (db : Database) : (q : Query) → q.Reply
  | getAccount id => db.accountById id
  | getTransaction id => db.transactions.find? (·.id = id)
  | getLedgerEntry id => db.ledgerEntries.find? (·.id = id)
  | sumEntries accountId => coalesceSum (db.amounts accountId)
  | selectTransactions accountId type before limit =>
      (planner.newestFirst.arrange ((db.matching accountId type).filter fun t =>
        ∀ time ∈ before, t.createdAt < time)).take limit
  | selectEntries accountId after limit =>
      -- ids are distinct, so this order is the only one
      (((db.entriesOn accountId).filter fun e => ∀ id ∈ after, id < e.id).insertionSort
        (·.id ≤ ·.id)).take limit
  | selectStatement accountId start finish =>
      planner.statement.arrange ((db.statementRows accountId).filter fun row =>
        (∀ time ∈ start, time ≤ row.2.createdAt) ∧ ∀ time ∈ finish, row.2.createdAt < time)
  | selectPending limit =>
      (planner.oldestFirst.arrange (db.outboxEvents.filter (·.publishedAt = none))).take limit
  | countAccounts => db.accounts.length
  | countTransactions => db.transactions.length
  | countEntries => db.ledgerEntries.length
  | countPending => db.outboxEvents.countP (·.publishedAt = none)

/-- The vocabulary of a session that reads. -/
abbrev reads : Signature := ⟨Query, Query.Reply, Empty, Exn⟩

/-- The database of a session that reads: there is nothing to write, and no lock to take. -/
def snapshot (planner : Planner) : Store reads Database Unit Empty where
  blank := ()
  footprint _ := []
  engaged _ _ _ := true
  exec db w q := .ok (q.answer planner db, w)
  merge db _ := db

/-- `db.execute` and `db.get` of a query. -/
def query (q : Query) : Prog reads q.Reply := Prog.stmt (S := reads) q

/-! ## Responses -/

/-- `PaginatedResponse`. -/
structure PaginatedResponse (Item : Type) where
  items : List Item
  nextCursor : Option String
  deriving DecidableEq, Repr

/-- `StatementEntry`. -/
structure StatementEntry where
  entryId : UUID
  transactionId : UUID
  type : TransactionType
  amount : Decimal
  runningBalance : Decimal
  reference : Option String
  createdAt : Timestamp
  deriving DecidableEq, Repr

/-- `StatementResponse`. -/
structure StatementResponse where
  accountId : UUID
  entries : List StatementEntry
  closingBalance : Decimal
  deriving DecidableEq, Repr

/-- `BalanceResponse`. -/
structure BalanceResponse where
  accountId : UUID
  balance : Decimal
  deriving DecidableEq, Repr

/-- An event in the answer of `outbox_pending`. -/
structure PendingEvent where
  id : String
  eventType : String
  aggregateId : String
  createdAt : Timestamp
  deriving DecidableEq, Repr

/-- The counts of `status`. -/
structure StatusCounts where
  accounts : ℕ
  transactions : ℕ
  ledgerEntries : ℕ
  outboxPending : ℕ
  deriving DecidableEq, Repr

/-! ## Handlers -/

/-- `404` for an account. -/
def findAccount (accountId : UUID) : Prog reads Account := do
  let account ← query (.getAccount accountId)
  match account with
  | none => Prog.raise (S := reads) (.http 404 "Account not found")
  | some account => return account

/-- `get_balance`. -/
def getBalance (accountId : UUID) : Prog reads BalanceResponse := do
  let _ ← findAccount accountId
  let balance ← query (.sumEntries accountId)
  return ⟨accountId, balance⟩

/-- The end of a listing: the look-ahead row is dropped, and the last row left is the cursor. -/
def paginate {Row Item : Type} (item : Row → Item) (id : Row → UUID) (limit : ℕ)
    (items : List Row) : PaginatedResponse Item :=
  if limit < items.length then
    ⟨(items.take limit).map item, ((items.take limit).getLast?.map id).map UUID.str⟩
  else ⟨items.map item, none⟩

/-- Where a page of transactions starts: a cursor that is no transaction is ignored. -/
def transactionBound : Option UUID → Prog reads (Option Timestamp)
  | none => return none
  | some cursor => do
      let cursorTxn ← query (.getTransaction cursor)
      return cursorTxn.map (·.createdAt)

/-- `list_transactions`. -/
def listTransactions (accountId : Option UUID) (type : Option TransactionType)
    (cursor : Option UUID) (limit : ℕ) : Prog reads (PaginatedResponse (Transaction Decimal)) := do
  let before ← transactionBound cursor
  -- one row more than the page, to see whether there is another
  let items ← query (.selectTransactions accountId type before (limit + 1))
  return paginate Transaction.load (·.id) limit items

/-- Where a page of entries starts. -/
def entryBound : Option UUID → Prog reads (Option UUID)
  | none => return none
  | some cursor => do
      let cursorEntry ← query (.getLedgerEntry cursor)
      return cursorEntry.map (·.id)

/-- `list_entries`. -/
def listEntries (accountId : UUID) (cursor : Option UUID) (limit : ℕ) :
    Prog reads (PaginatedResponse LedgerEntry) := do
  let _ ← findAccount accountId
  let after ← entryBound cursor
  let items ← query (.selectEntries accountId after (limit + 1))
  return paginate id (·.id) limit items

/-- A date, by the number of days since the epoch. -/
abbrev Date := ℤ

/-- The microseconds of a day. -/
def dayMicroseconds : ℤ := 86400 * 10 ^ 6

/-- `datetime.combine(date, datetime.min.time())`. -/
def startOfDay (date : Date) : Timestamp := date * dayMicroseconds

/-- `datetime.combine(date, datetime.max.time())`: the last microsecond of the day. -/
def endOfDay (date : Date) : Timestamp := date * dayMicroseconds + (dayMicroseconds - 1)

/-- The loop of `get_statement`: the lines, and the balance after the last one. -/
def statementEntries : Decimal → List StatementRow → List StatementEntry × Decimal
  | running, [] => ([], running)
  | running, (entry, txn) :: rows =>
      let running := running + readAmount entry.amount
      let rest := statementEntries running rows
      (⟨entry.id, entry.transactionId, txn.type, readAmount entry.amount, running, txn.reference,
        txn.createdAt⟩ :: rest.1, rest.2)

/-- `get_statement`. -/
def getStatement (accountId : UUID) (fromDate toDate : Option Date) :
    Prog reads StatementResponse := do
  let _ ← findAccount accountId
  let rows ← query (.selectStatement accountId (fromDate.map startOfDay) (toDate.map endOfDay))
  let lines := statementEntries decimalZero rows
  return ⟨accountId, lines.1, lines.2⟩

/-- `outbox_pending`. -/
def outboxPending (limit : ℕ) : Prog reads (List PendingEvent) := do
  let events ← query (.selectPending limit)
  return events.map fun e => ⟨e.id.str, e.eventType, e.aggregateId.str, e.createdAt⟩

/-- `status`. -/
def status : Prog reads StatusCounts := do
  let accounts ← query .countAccounts
  let transactions ← query .countTransactions
  let entries ← query .countEntries
  let pending ← query .countPending
  return ⟨accounts, transactions, entries, pending⟩

/-! ## Evaluation -/

/-- What a reading session answers on the committed rows. -/
def read {α : Type} (planner : Planner) (db : Database) (x : Prog reads α) : Except Exn α :=
  ((snapshot planner).run x db).1

variable {planner : Planner} {db : Database}

/-- A query is answered, and the program goes on. -/
theorem eval_query_bind {α : Type} (q : Query) (f : q.Reply → Prog reads α) :
    (snapshot planner).eval (query q >>= f) db () =
      (snapshot planner).eval (f (q.answer planner db)) db () :=
  Store.eval_bind_ok _ ((snapshot planner).eval_exec_ok rfl)

/-- An account that is there is found. -/
theorem eval_findAccount_bind {α : Type} {account : Account} {accountId : UUID}
    (h : db.accountById accountId = some account) (f : Account → Prog reads α) :
    (snapshot planner).eval (findAccount accountId >>= f) db () =
      (snapshot planner).eval (f account) db () := by
  have hfind : (snapshot planner).eval (findAccount accountId) db () =
      ⟨.ok account, db, (), []⟩ := by
    have hanswer : (Query.getAccount accountId).answer planner db = some account := h
    rw [findAccount, eval_query_bind, hanswer]
    rfl
  exact Store.eval_bind_ok _ hfind

/-- The statement of an account that is there. -/
theorem read_getStatement {account : Account} {accountId : UUID}
    (h : db.accountById accountId = some account) (fromDate toDate : Option Date) :
    read planner db (getStatement accountId fromDate toDate) =
      .ok ⟨accountId,
        (statementEntries decimalZero (planner.statement.arrange
          ((db.statementRows accountId).filter fun row =>
            (∀ time ∈ fromDate.map startOfDay, time ≤ row.2.createdAt) ∧
              ∀ time ∈ toDate.map endOfDay, row.2.createdAt < time))).1,
        (statementEntries decimalZero (planner.statement.arrange
          ((db.statementRows accountId).filter fun row =>
            (∀ time ∈ fromDate.map startOfDay, time ≤ row.2.createdAt) ∧
              ∀ time ∈ toDate.map endOfDay, row.2.createdAt < time))).2⟩ := by
  rw [read, Store.run]
  show ((snapshot planner).eval (getStatement accountId fromDate toDate) db ()).result = _
  rw [getStatement, eval_findAccount_bind h, eval_query_bind]
  rfl

end LedgerApi
