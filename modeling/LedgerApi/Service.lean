import LedgerApi.Chain
import LedgerApi.Library.Json
import LedgerApi.Schemas

/-! # The transaction service

`app/service.py` and `app/outbox.py`, statement by statement. The identifiers that `uuid4` and the
time that `now()` give to the rows of a call are the call's `Generated` values. An object is flushed
where the session flushes it: at `db.flush()`, at the next query of an entity, or at the commit.

The text that a request is hashed by determines its parameters (`canonicalRequest_inj`). -/

namespace LedgerApi

open Sessions

/-- The values drawn for a call: `uuid4` for each row it may insert, in the order of insertion, and
`now()`, the start of its transaction. -/
structure Generated where
  accountId : UUID
  transactionId : UUID
  firstEntryId : UUID
  secondEntryId : UUID
  eventId : UUID
  now : Timestamp
  deriving DecidableEq, Repr

/-- `HTTPException`. -/
def httpError {α : Type} (statusCode : ℕ) (detail : String) : Prog sql α :=
  .raise (.http statusCode detail)

/-! ## `app/outbox.py` -/

/-- The payload of a transaction's event; the amount is the object's, as it came in. -/
def eventPayload (txn : Transaction Decimal) : String :=
  Json.dumps [
    ("transaction_id", .str txn.id.str),
    ("type", .str txn.type.value),
    ("amount", .str txn.amount.str),
    ("idempotency_key", .str txn.idempotencyKey),
    ("reference", match txn.reference with | some text => .str text | none => .null)]

/-- The event of a transaction. -/
def writeTransactionEvent (gen : Generated) (txn : Transaction Decimal) : OutboxEvent where
  id := gen.eventId
  aggregateType := "transaction"
  aggregateId := txn.id
  eventType := "transaction." ++ txn.type.value
  payload := eventPayload txn
  createdAt := gen.now
  publishedAt := none

/-! ## `app/service.py` -/

/-- The name of the clearing account. -/
def externalClearingName : String := "External Clearing"

/-- The number of the advisory lock for creating it. -/
def clearingLockKey : ℕ := 8891275

/-- The clearing account a call would create. -/
def newClearingAccount (gen : Generated) : Account :=
  ⟨gen.accountId, externalClearingName, true, gen.now⟩

/-- `_select_clearing_account`. -/
def selectClearingAccount : Prog sql (Option Account) :=
  execute (.selectAccountByName externalClearingName)

/-- `get_or_create_clearing_account`. -/
def getOrCreateClearingAccount (gen : Generated) : Prog sql Account := do
  let account ← selectClearingAccount
  match account with
  | some account => return account
  | none =>
      execute (.advisoryXactLock clearingLockKey)
      -- looked up again: whoever held the lock before may have created it
      let account ← selectClearingAccount
      match account with
      | some account => return account
      | none =>
          -- `db.flush()`
          execute (.insertAccount (newClearingAccount gen))
          return newClearingAccount gen

/-- `compute_balance`. -/
def computeBalance (accountId : UUID) : Prog sql Decimal :=
  execute (.sumEntries accountId)

/-- The canonical text of a request's parameters. -/
def canonicalRequest (data : TransactionCreate) : String :=
  -- a UUID is truthy whatever its value, so that only a missing one becomes `null`
  let uuid (id : Option UUID) : Json.Value := match id with
    | some id => .str id.str
    | none => .null
  Json.dumps (Json.sortKeys [
    ("type", .str data.type.value),
    ("amount", .str data.amount.str),
    ("account_id", uuid data.accountId),
    ("from_account_id", uuid data.fromAccountId),
    ("to_account_id", uuid data.toAccountId),
    ("reference", match data.reference with | some text => .str text | none => .null)])

/-- The detail of the `404` for an account. -/
def accountNotFound (id : UUID) : String := "Account " ++ id.str ++ " not found"

/-- The loop of `_lock_accounts`. -/
def lockEach : List UUID → Prog sql (List Account)
  | [] => return []
  | aid :: ids => do
      let account ← execute (.selectAccountForUpdate aid)
      match account with
      | none => httpError 404 (accountNotFound aid)
      | some account =>
          let accounts ← lockEach ids
          return account :: accounts

/-- `_lock_accounts`: row locks in the order of the ids. -/
def lockAccounts (ids : List UUID) : Prog sql (List Account) :=
  lockEach (ids.insertionSort (· ≤ ·))

variable (H : HexHash)

/-- `_request_hash`. -/
def requestHash (data : TransactionCreate) : String := H.hexdigest (canonicalRequest data)

/-- The transaction object of a request. -/
def newTransaction (data : TransactionCreate) (gen : Generated) : Transaction Decimal where
  id := gen.transactionId
  idempotencyKey := data.idempotencyKey
  type := data.type
  amount := data.amount
  requestHash := requestHash H data
  prevHash := none
  chainHash := none
  chainSeq := none
  reference := data.reference
  createdAt := gen.now

/-- The two entries of a request, the debit first, as the session flushes them. -/
def newEntries (data : TransactionCreate) (gen : Generated) (debit credit : UUID) :
    List LedgerEntry :=
  [⟨gen.firstEntryId, gen.transactionId, debit, (-data.amount).toScale 2⟩,
    ⟨gen.secondEntryId, gen.transactionId, credit, data.amount.toScale 2⟩]

/-- The transaction and the entries of a request, the transaction flushed. -/
def addTransaction (data : TransactionCreate) (gen : Generated) (debit credit : UUID) :
    Prog sql (Transaction Decimal × List LedgerEntry) := do
  let txn := newTransaction H data gen
  -- `db.flush()` inserts the row while its chain columns are still NULL
  execute (.insertTransaction txn.flush)
  return (txn, newEntries data gen debit credit)

/-- The branch of `create_transaction` for a deposit. -/
def deposit (data : TransactionCreate) (gen : Generated) :
    Prog sql (Transaction Decimal × List LedgerEntry) := do
  match data.accountId with
  | none => httpError 422 "account_id required for deposit"
  | some accountId =>
      let clearing ← getOrCreateClearingAccount gen
      let _ ← lockAccounts [accountId, clearing.id]
      -- no balance is checked: the clearing account may owe
      addTransaction H data gen clearing.id accountId

/-- The branch for a withdrawal. -/
def withdrawal (data : TransactionCreate) (gen : Generated) :
    Prog sql (Transaction Decimal × List LedgerEntry) := do
  match data.accountId with
  | none => httpError 422 "account_id required for withdrawal"
  | some accountId =>
      let clearing ← getOrCreateClearingAccount gen
      let _ ← lockAccounts [accountId, clearing.id]
      -- summed under the row lock of the account
      let balance ← computeBalance accountId
      if balance < data.amount then httpError 422 "Insufficient balance"
      else addTransaction H data gen accountId clearing.id

/-- The branch for a transfer. -/
def transfer (data : TransactionCreate) (gen : Generated) :
    Prog sql (Transaction Decimal × List LedgerEntry) := do
  match data.fromAccountId, data.toAccountId with
  | some fromAccountId, some toAccountId =>
      if fromAccountId = toAccountId then httpError 422 "Cannot transfer to the same account"
      else
        -- the clearing account has no part in a transfer, unless it is named
        let _ ← lockAccounts [fromAccountId, toAccountId]
        let balance ← computeBalance fromAccountId
        if balance < data.amount then httpError 422 "Insufficient balance"
        else addTransaction H data gen fromAccountId toAccountId
  -- one of the two is missing
  | _, _ => httpError 422 "from_account_id and to_account_id required for transfer"

/-- The answer to a key that has been used: the transaction it was used for, or a conflict. -/
def replay (data : TransactionCreate) (existing : Transaction ℤ) :
    Prog sql (Transaction Decimal) :=
  if existing.requestHash ≠ requestHash H data then
    httpError 409 "Idempotency key already used with different parameters"
  else return existing.load

/-- Chain link, outbox event and commit. The commit flushes the chain columns and the event. -/
def finishTransaction (gen : Generated) (txn : Transaction Decimal) (entries : List LedgerEntry) :
    Prog sql (Transaction Decimal) := do
  let txn ← linkTransaction H entries txn
  let event := writeTransactionEvent gen txn
  -- what `db.commit()` flushes before it commits
  execute (.updateChainColumns txn.id txn.prevHash txn.chainHash txn.chainSeq)
  execute (.insertOutboxEvent event)
  Prog.commitNow
  -- `db.refresh(txn)`, in a new transaction
  let row ← execute (.refreshTransaction txn.id)
  return row.load

/-- The branches of `create_transaction`. -/
def recordTransaction (data : TransactionCreate) (gen : Generated) :
    Prog sql (Transaction Decimal × List LedgerEntry) :=
  match data.type with
  | .deposit => deposit H data gen
  | .withdrawal => withdrawal H data gen
  | .transfer => transfer H data gen

/-- `create_transaction`. -/
def createTransaction (data : TransactionCreate) (gen : Generated) :
    Prog sql (Transaction Decimal) := do
  -- the only lookup of the key: it is not repeated under the locks
  let existing ← execute (.selectTransactionByKey data.idempotencyKey)
  match existing with
  | some existing => replay H data existing
  | none =>
      let (txn, entries) ← recordTransaction H data gen
      finishTransaction H gen txn entries

/-! ## The parameters of a request -/

/-- The parameters of a request, as they were sent. -/
def TransactionCreate.parameters (data : TransactionCreate) :
    TransactionType × Decimal × Option UUID × Option UUID × Option UUID × Option String :=
  (data.type, data.amount, data.accountId, data.fromAccountId, data.toAccountId, data.reference)

/-- **The canonical text determines the parameters.** -/
theorem canonicalRequest_inj {data data' : TransactionCreate}
    (h : canonicalRequest data = canonicalRequest data') : data.parameters = data'.parameters := by
  unfold canonicalRequest at h
  have hobject := Json.dumps_sortKeys_inj (by rfl) (by simp) h
  simp only [List.cons.injEq, Prod.mk.injEq, Json.Value.str.injEq, true_and, and_true] at hobject
  obtain ⟨htype, hamount, haccount, hfrom, hto, hreference⟩ := hobject
  have huuid : ∀ {a b : Option UUID},
      (match a with | some id => Json.Value.str id.str | none => .null) =
        (match b with | some id => Json.Value.str id.str | none => .null) → a = b := by
    rintro (_ | a) (_ | b) heq
    · rfl
    · cases heq
    · cases heq
    · rw [UUID.str_inj (Json.Value.str.inj heq)]
  have htext : ∀ {a b : Option String},
      (match a with | some text => Json.Value.str text | none => .null) =
        (match b with | some text => Json.Value.str text | none => .null) → a = b := by
    rintro (_ | a) (_ | b) heq
    · rfl
    · cases heq
    · cases heq
    · rw [Json.Value.str.inj heq]
  rw [TransactionCreate.parameters, TransactionCreate.parameters, TransactionType.value_inj htype,
    Decimal.str_inj hamount, huuid haccount, huuid hfrom, huuid hto, htext hreference]

/-- The parameters determine the canonical text. -/
theorem canonicalRequest_congr {data data' : TransactionCreate}
    (h : data.parameters = data'.parameters) : canonicalRequest data = canonicalRequest data' := by
  simp only [TransactionCreate.parameters, Prod.mk.injEq] at h
  obtain ⟨htype, hamount, haccount, hfrom, hto, hreference⟩ := h
  simp only [canonicalRequest, htype, hamount, haccount, hfrom, hto, hreference]

end LedgerApi
