import LedgerApi.Consistency

/-! # The audit

`app/audit.py`: the six checks of `verify_ledger` with their figures and texts, on given tables
(`verifyLedger`) and as the session that issues two statements for each account and nine others
(`verifyLedgerSession`). Its verdict is a statement about aggregates of the tables (`AuditFacts`,
`verifyLedger_eq_pass_iff`), and it names a discrepancy exactly when it fails
(`discrepancies_eq_nil_iff`).

SQL leaves the order of grouped rows open; they are listed here by the last entry of their group. -/

namespace LedgerApi

open Sessions

/-! ## The report -/

structure GlobalInvariant where
  description : String
  sum : String
  pass : Bool
  deriving DecidableEq, Repr

structure PerTransactionInvariant where
  description : String
  unbalancedCount : ℕ
  pass : Bool
  deriving DecidableEq, Repr

/-- A line of the balance recomputation. -/
structure AccountDetail where
  accountId : String
  accountName : String
  derivedBalance : String
  entryCount : ℕ
  deriving DecidableEq, Repr

structure AccountBalances where
  description : String
  accountsVerified : ℕ
  pass : Bool
  details : List AccountDetail
  deriving DecidableEq, Repr

structure ReferentialIntegrity where
  description : String
  orphanedTransactionRefs : ℕ
  orphanedAccountRefs : ℕ
  pass : Bool
  deriving DecidableEq, Repr

structure IdempotencyUniqueness where
  description : String
  totalTransactions : ℕ
  uniqueKeys : ℕ
  pass : Bool
  deriving DecidableEq, Repr

structure EntryCount where
  description : String
  transactions : ℕ
  entries : ℕ
  expectedEntries : ℕ
  pass : Bool
  deriving DecidableEq, Repr

/-- `results["checks"]`. -/
structure AuditChecks where
  globalInvariant : GlobalInvariant
  perTransactionInvariant : PerTransactionInvariant
  accountBalances : AccountBalances
  referentialIntegrity : ReferentialIntegrity
  idempotencyUniqueness : IdempotencyUniqueness
  entryCount : EntryCount
  deriving DecidableEq, Repr

/-- The result of `verify_ledger`. -/
structure AuditReport where
  status : Status
  checks : AuditChecks
  discrepancies : List String
  deriving DecidableEq, Repr

/-! ## The queries -/

namespace Database

variable (db : Database)

/-- The sum of all entries. -/
def globalSum : Decimal := coalesceSum (db.ledgerEntries.map (·.amount))

/-- The sum of the entries of a transaction, in cents. -/
def entrySum (transactionId : UUID) : ℤ := ((db.entriesOf transactionId).map (·.amount)).sum

/-- The groups of entries whose sum is not zero. -/
def unbalanced : List (UUID × ℤ) :=
  ((db.ledgerEntries.map (·.transactionId)).dedup.map fun id => (id, db.entrySum id)).filter
    (·.2 ≠ 0)

/-- The number of entries whose transaction is missing. -/
def orphanedEntries : ℕ :=
  db.ledgerEntries.countP (·.transactionId ∉ db.transactions.map (·.id))

/-- The number of entries whose account is missing. -/
def orphanedAccounts : ℕ := db.ledgerEntries.countP (·.accountId ∉ db.accounts.map (·.id))

/-- The number of distinct idempotency keys. -/
def distinctKeys : ℕ := (db.transactions.map (·.idempotencyKey)).dedup.length

/-- The lines of the balance recomputation. -/
def accountDetails : List AccountDetail :=
  db.accounts.map fun account =>
    ⟨account.id.str, account.name, (coalesceSum (db.amounts account.id)).str,
      (db.amounts account.id).length⟩

end Database

/-- `Decimal("0")`. -/
def decimalZero : Decimal := ⟨0, 0⟩

/-- `verify_ledger`. -/
def verifyLedger (db : Database) : AuditReport :=
  let globalSum := db.globalSum
  let unbalanced := db.unbalanced
  let orphanedEntries := db.orphanedEntries
  let orphanedAccounts := db.orphanedAccounts
  let totalKeys := db.transactions.length
  let uniqueKeys := db.distinctKeys
  let entryCount := db.ledgerEntries.length
  let txnCount := db.transactions.length
  { status :=
      if ¬ globalSum.NumEq decimalZero ∨ unbalanced ≠ [] ∨
          (0 < orphanedEntries ∨ 0 < orphanedAccounts) ∨ totalKeys ≠ uniqueKeys ∨
          entryCount ≠ txnCount * 2 then .fail else .pass
    checks := {
      globalInvariant :=
        ⟨"Sum of all ledger entries equals zero", globalSum.str, globalSum.NumEq decimalZero⟩
      perTransactionInvariant :=
        ⟨"Every transaction sums to zero", unbalanced.length, unbalanced.length = 0⟩
      accountBalances :=
        -- the balances are reported and compared with nothing
        ⟨"Independent balance recomputation for every account", db.accountDetails.length, true,
          db.accountDetails⟩
      referentialIntegrity :=
        ⟨"No orphaned ledger entries", orphanedEntries, orphanedAccounts,
          orphanedEntries = 0 ∧ orphanedAccounts = 0⟩
      idempotencyUniqueness :=
        ⟨"Every idempotency key is unique", totalKeys, uniqueKeys, totalKeys = uniqueKeys⟩
      entryCount :=
        ⟨"Every transaction has exactly 2 ledger entries", txnCount, entryCount, txnCount * 2,
          entryCount = txnCount * 2⟩ }
    discrepancies :=
      (if globalSum.NumEq decimalZero then []
        else ["Global ledger sum is " ++ globalSum.str ++ ", expected 0"]) ++
      unbalanced.map (fun u =>
        "Transaction " ++ u.1.str ++ " sums to " ++ (readAmount u.2).str) ++
      (if 0 < orphanedEntries ∨ 0 < orphanedAccounts then
        ["Orphaned entries: " ++ toString orphanedEntries ++ " transaction refs, " ++
          toString orphanedAccounts ++ " account refs"] else []) ++
      (if totalKeys ≠ uniqueKeys then
        ["Duplicate idempotency keys: " ++ toString totalKeys ++ " transactions but only " ++
          toString uniqueKeys ++ " unique keys"] else []) ++
      (if entryCount ≠ txnCount * 2 then
        ["Expected " ++ toString (txnCount * 2) ++ " entries for " ++ toString txnCount ++
          " transactions, found " ++ toString entryCount] else []) }

/-! ## The session -/

/-- The queries of the audits. -/
inductive AuditQuery
  /-- `SELECT coalesce(sum(amount), 0) FROM ledger_entries` -/
  | globalSum
  /-- `SELECT transaction_id, sum(amount) … GROUP BY transaction_id HAVING sum(amount) != 0` -/
  | unbalanced
  /-- `SELECT … FROM accounts` -/
  | accounts
  /-- `SELECT coalesce(sum(amount), 0) FROM ledger_entries WHERE account_id = id` -/
  | derivedBalance (accountId : UUID)
  /-- `SELECT count(*) FROM ledger_entries WHERE account_id = id` -/
  | accountEntryCount (accountId : UUID)
  /-- `SELECT count(*) … WHERE transaction_id NOT IN (SELECT id FROM transactions)` -/
  | orphanedEntries
  /-- `SELECT count(*) … WHERE account_id NOT IN (SELECT id FROM accounts)` -/
  | orphanedAccounts
  /-- `SELECT count(*) FROM transactions` -/
  | totalKeys
  /-- `SELECT count(DISTINCT idempotency_key) FROM transactions` -/
  | uniqueKeys
  /-- `SELECT count(*) FROM ledger_entries` -/
  | entryCount
  /-- `SELECT count(*) FROM transactions` -/
  | txnCount
  /-- `SELECT … FROM transactions WHERE chain_seq IS NOT NULL ORDER BY chain_seq` -/
  | chain
  deriving DecidableEq

/-- What each query replies with. -/
@[reducible] def AuditQuery.Reply : AuditQuery → Type
  | globalSum => Decimal
  | unbalanced => List (UUID × ℤ)
  | accounts => List Account
  | derivedBalance _ => Decimal
  | chain => List (Transaction ℤ)
  | _ => ℕ

/-- The answer to a query. -/
def AuditQuery.answer (db : Database) : (q : AuditQuery) → q.Reply
  | globalSum => db.globalSum
  | unbalanced => db.unbalanced
  | accounts => db.accounts
  | derivedBalance accountId => coalesceSum (db.amounts accountId)
  | accountEntryCount accountId => (db.amounts accountId).length
  | orphanedEntries => db.orphanedEntries
  | orphanedAccounts => db.orphanedAccounts
  | totalKeys => db.transactions.length
  | uniqueKeys => db.distinctKeys
  | entryCount => db.ledgerEntries.length
  | txnCount => db.transactions.length
  | chain => db.chain

/-- The vocabulary of an audit. -/
abbrev auditReads : Signature := ⟨AuditQuery, AuditQuery.Reply, Empty, Exn⟩

/-- `db.execute` of a query. -/
def auditQuery (q : AuditQuery) : Prog auditReads q.Reply := Prog.stmt (S := auditReads) q

/-- What the statements of `verify_ledger` have replied. -/
structure AuditFigures where
  globalSum : Decimal
  unbalanced : List (UUID × ℤ)
  accountDetails : List AccountDetail
  orphanedEntries : ℕ
  orphanedAccounts : ℕ
  totalKeys : ℕ
  uniqueKeys : ℕ
  entryCount : ℕ
  txnCount : ℕ

/-- The report that `verify_ledger` makes of them. -/
def auditReport (f : AuditFigures) : AuditReport where
  status :=
    if ¬ f.globalSum.NumEq decimalZero ∨ f.unbalanced ≠ [] ∨
        (0 < f.orphanedEntries ∨ 0 < f.orphanedAccounts) ∨ f.totalKeys ≠ f.uniqueKeys ∨
        f.entryCount ≠ f.txnCount * 2 then .fail else .pass
  checks := {
    globalInvariant :=
      ⟨"Sum of all ledger entries equals zero", f.globalSum.str, f.globalSum.NumEq decimalZero⟩
    perTransactionInvariant :=
      ⟨"Every transaction sums to zero", f.unbalanced.length, f.unbalanced.length = 0⟩
    accountBalances :=
      ⟨"Independent balance recomputation for every account", f.accountDetails.length, true,
        f.accountDetails⟩
    referentialIntegrity :=
      ⟨"No orphaned ledger entries", f.orphanedEntries, f.orphanedAccounts,
        f.orphanedEntries = 0 ∧ f.orphanedAccounts = 0⟩
    idempotencyUniqueness :=
      ⟨"Every idempotency key is unique", f.totalKeys, f.uniqueKeys, f.totalKeys = f.uniqueKeys⟩
    entryCount :=
      ⟨"Every transaction has exactly 2 ledger entries", f.txnCount, f.entryCount, f.txnCount * 2,
        f.entryCount = f.txnCount * 2⟩ }
  discrepancies :=
    (if f.globalSum.NumEq decimalZero then []
      else ["Global ledger sum is " ++ f.globalSum.str ++ ", expected 0"]) ++
    f.unbalanced.map (fun u =>
      "Transaction " ++ u.1.str ++ " sums to " ++ (readAmount u.2).str) ++
    (if 0 < f.orphanedEntries ∨ 0 < f.orphanedAccounts then
      ["Orphaned entries: " ++ toString f.orphanedEntries ++ " transaction refs, " ++
        toString f.orphanedAccounts ++ " account refs"] else []) ++
    (if f.totalKeys ≠ f.uniqueKeys then
      ["Duplicate idempotency keys: " ++ toString f.totalKeys ++ " transactions but only " ++
        toString f.uniqueKeys ++ " unique keys"] else []) ++
    (if f.entryCount ≠ f.txnCount * 2 then
      ["Expected " ++ toString (f.txnCount * 2) ++ " entries for " ++ toString f.txnCount ++
        " transactions, found " ++ toString f.entryCount] else [])

/-- The line of an account. -/
def accountDetail (account : Account) : Prog auditReads AccountDetail := do
  let derived ← auditQuery (.derivedBalance account.id)
  let entryCount ← auditQuery (.accountEntryCount account.id)
  return ⟨account.id.str, account.name, derived.str, entryCount⟩

/-- The loop of `verify_ledger` over the accounts. -/
def accountDetailEach : List Account → Prog auditReads (List AccountDetail)
  | [] => return []
  | account :: accounts => do
      let detail ← accountDetail account
      let details ← accountDetailEach accounts
      return detail :: details

/-- `verify_ledger`, as it issues its statements. -/
def verifyLedgerSession : Prog auditReads AuditReport := do
  let globalSum ← auditQuery .globalSum
  let unbalanced ← auditQuery .unbalanced
  let accounts ← auditQuery .accounts
  let accountDetails ← accountDetailEach accounts
  let orphanedEntries ← auditQuery .orphanedEntries
  let orphanedAccounts ← auditQuery .orphanedAccounts
  let totalKeys ← auditQuery .totalKeys
  let uniqueKeys ← auditQuery .uniqueKeys
  let entryCount ← auditQuery .entryCount
  let txnCount ← auditQuery .txnCount
  return auditReport ⟨globalSum, unbalanced, accountDetails, orphanedEntries, orphanedAccounts,
    totalKeys, uniqueKeys, entryCount, txnCount⟩

/-- `verify_hash_chain`, which issues one statement. -/
def verifyHashChainSession (H : HexHash) : Prog auditReads ChainReport := do
  let transactions ← auditQuery .chain
  if transactions = [] then return ⟨.pass, 0, some "No chained transactions found", none⟩
  else
    let broken := brokenLinks H (some genesisHash) transactions
    return ⟨if broken = [] then .pass else .fail, transactions.length, none, some broken⟩

/-! ## What the verdict means -/

/-- The aggregates that the audit checks. -/
structure AuditFacts (db : Database) : Prop where
  global_sum : (db.ledgerEntries.map (·.amount)).sum = 0
  balanced : ∀ e ∈ db.ledgerEntries, db.entrySum e.transactionId = 0
  transaction_refs : ∀ e ∈ db.ledgerEntries, e.transactionId ∈ db.transactions.map (·.id)
  account_refs : ∀ e ∈ db.ledgerEntries, e.accountId ∈ db.accounts.map (·.id)
  keys : (db.transactions.map (·.idempotencyKey)).Nodup
  entry_count : db.ledgerEntries.length = db.transactions.length * 2

section Queries

variable (db : Database)

theorem globalSum_numEq_zero_iff :
    db.globalSum.NumEq decimalZero ↔ (db.ledgerEntries.map (·.amount)).sum = 0 :=
  Decimal.numEq_iff_of_exactAt (exactAt_coalesceSum _) (by decide)

theorem unbalanced_eq_nil_iff :
    db.unbalanced = [] ↔ ∀ e ∈ db.ledgerEntries, db.entrySum e.transactionId = 0 := by
  rw [Database.unbalanced, List.filter_eq_nil_iff]
  constructor
  · intro h e he
    have hid : e.transactionId ∈ (db.ledgerEntries.map (·.transactionId)).dedup :=
      List.mem_dedup.mpr (List.mem_map_of_mem he)
    simpa using h _ (List.mem_map_of_mem hid)
  · intro h u hu
    obtain ⟨id, hid, rfl⟩ := List.mem_map.mp hu
    obtain ⟨e, he, rfl⟩ := List.mem_map.mp (List.mem_dedup.mp hid)
    simpa using h e he

theorem orphanedEntries_pos_iff :
    0 < db.orphanedEntries ↔
      ¬ ∀ e ∈ db.ledgerEntries, e.transactionId ∈ db.transactions.map (·.id) := by
  rw [Database.orphanedEntries, List.countP_pos_iff]
  simp only [decide_eq_true_eq, not_forall, exists_prop]

theorem orphanedAccounts_pos_iff :
    0 < db.orphanedAccounts ↔
      ¬ ∀ e ∈ db.ledgerEntries, e.accountId ∈ db.accounts.map (·.id) := by
  rw [Database.orphanedAccounts, List.countP_pos_iff]
  simp only [decide_eq_true_eq, not_forall, exists_prop]

/-- As many distinct keys as transactions are there when the keys are distinct. -/
theorem length_eq_distinctKeys_iff :
    db.transactions.length = db.distinctKeys ↔ (db.transactions.map (·.idempotencyKey)).Nodup := by
  -- without repetitions nothing is lost
  have hsub := List.dedup_sublist (db.transactions.map (·.idempotencyKey))
  rw [Database.distinctKeys, ← List.dedup_eq_self]
  constructor
  · intro h
    exact hsub.eq_of_length (by rw [List.length_map]; exact h.symm)
  · intro h
    rw [h, List.length_map]

end Queries

/-- The verdict in the audit's own figures. -/
theorem status_eq_pass_iff (db : Database) :
    (verifyLedger db).status = .pass ↔
      db.globalSum.NumEq decimalZero ∧ db.unbalanced = [] ∧
        ¬ (0 < db.orphanedEntries ∨ 0 < db.orphanedAccounts) ∧
        db.transactions.length = db.distinctKeys ∧
        db.ledgerEntries.length = db.transactions.length * 2 := by
  have hstatus : (verifyLedger db).status = if ¬ db.globalSum.NumEq decimalZero ∨
      db.unbalanced ≠ [] ∨ (0 < db.orphanedEntries ∨ 0 < db.orphanedAccounts) ∨
      db.transactions.length ≠ db.distinctKeys ∨
      db.ledgerEntries.length ≠ db.transactions.length * 2 then .fail else .pass := rfl
  rw [hstatus]
  split
  case isTrue h => exact iff_of_false nofun (by tauto)
  case isFalse h => exact iff_of_true rfl (by tauto)

/-- **The audit passes exactly when its aggregates are right.** -/
theorem verifyLedger_eq_pass_iff (db : Database) :
    (verifyLedger db).status = .pass ↔ AuditFacts db := by
  rw [status_eq_pass_iff]
  simp only [not_or, not_not, globalSum_numEq_zero_iff, unbalanced_eq_nil_iff,
    orphanedEntries_pos_iff, orphanedAccounts_pos_iff, length_eq_distinctKeys_iff]
  exact ⟨fun ⟨h1, h2, ⟨h3, h4⟩, h5, h6⟩ => ⟨h1, h2, h3, h4, h5, h6⟩,
    fun h => ⟨h.1, h.2, ⟨h.3, h.4⟩, h.5, h.6⟩⟩

/-- The audit names a discrepancy exactly when it fails. -/
theorem discrepancies_eq_nil_iff (db : Database) :
    (verifyLedger db).discrepancies = [] ↔ (verifyLedger db).status = .pass := by
  rw [status_eq_pass_iff]
  simp only [verifyLedger, List.append_eq_nil_iff, List.map_eq_nil_iff, ite_eq_right_iff,
    ite_eq_left_iff, List.cons_ne_nil, imp_false, ne_eq, not_not, and_assoc]

end LedgerApi
