import LedgerApi.Service

/-! # What a request posts

The specification of `create_transaction` on one state of the database. `Database.posting` says
which accounts a request debits and credits, and whether it opens the clearing account; `Settles`
collects what the request needs, and `postingWrites` what it then writes.

A request that settles is accepted and writes exactly that (`Settles.eval_createTransaction`). The
stages in between are those of `lookedUp`, `recorded`, `entered`, `chained` and `announced`. -/

namespace LedgerApi

open Sessions

/-- The clearing account of a request: the one there is, or the one it creates. -/
def Database.clearingAccount (db : Database) (gen : Generated) : Account :=
  (db.accountByName externalClearingName).getD (newClearingAccount gen)

/-- The clearing account if the request has to create it. -/
def Database.openedAccounts (db : Database) (gen : Generated) : List Account :=
  if (db.accountByName externalClearingName).isSome then [] else [newClearingAccount gen]

/-- The accounts of a request. -/
structure Posting where
  /-- The accounts it opens. -/
  opened : List Account
  /-- The account it takes the amount from. -/
  debit : UUID
  /-- The account it gives the amount to. -/
  credit : UUID

/-- What a request posts, if its account fields fit its type. -/
def Database.posting (db : Database) (data : TransactionCreate) (gen : Generated) :
    Option Posting :=
  match data.type with
  | .deposit => data.accountId.map fun id =>
      ⟨db.openedAccounts gen, (db.clearingAccount gen).id, id⟩
  | .withdrawal => data.accountId.map fun id =>
      ⟨db.openedAccounts gen, id, (db.clearingAccount gen).id⟩
  | .transfer => do
      let source ← data.fromAccountId
      let target ← data.toAccountId
      if source = target then none else some ⟨[], source, target⟩

/-- The balance of an account, in cents. -/
def Database.balance (db : Database) (accountId : UUID) : ℤ := (db.amounts accountId).sum

variable (H : HexHash)

/-- The transaction object of a request, linked to the tip of the chain. -/
def linkedTransaction (db : Database) (data : TransactionCreate) (gen : Generated) :
    Transaction Decimal :=
  chainAfter H db.chain.getLast? (newTransaction H data gen)

/-- The row of a request. -/
def postedRow (db : Database) (data : TransactionCreate) (gen : Generated) : Transaction ℤ :=
  (linkedTransaction H db data gen).flush

/-- Everything a request writes. -/
def postingWrites (db : Database) (data : TransactionCreate) (gen : Generated) (post : Posting) :
    Writes where
  accounts := post.opened
  transactions := [postedRow H db data gen]
  ledgerEntries := newEntries data gen post.debit post.credit
  outboxEvents := [writeTransactionEvent gen (linkedTransaction H db data gen)]
  published := []
  rechained := []
  missed := [data.idempotencyKey]

/-- A request settles: its accounts exist, the debited one can pay, and the keys of the rows it
writes are new, its idempotency key among them. -/
structure Settles (db : Database) (data : TransactionCreate) (gen : Generated) (post : Posting) :
    Prop where
  posting : db.posting data gen = some post
  fresh : Fresh db (postingWrites H db data gen post)
  debit_mem : post.debit ∈ (db.accounts ++ post.opened).map (·.id)
  credit_mem : post.credit ∈ (db.accounts ++ post.opened).map (·.id)
  funds : data.type ≠ .deposit → ¬ readAmount (db.balance post.debit) < data.amount

/-! ## What a session has written, stage by stage -/

/-- When it has looked up its key and opened the clearing account, if it had to. -/
def lookedUp (data : TransactionCreate) (opened : List Account) : Writes :=
  ⟨opened, [], [], [], [], [], [data.idempotencyKey]⟩

/-- When it has inserted its transaction. -/
def recorded (data : TransactionCreate) (gen : Generated) (post : Posting) : Writes :=
  { lookedUp data post.opened with transactions := [(newTransaction H data gen).flush] }

/-- When it has inserted its entries. -/
def entered (data : TransactionCreate) (gen : Generated) (post : Posting) : Writes :=
  { recorded H data gen post with
    ledgerEntries := newEntries data gen post.debit post.credit }

/-- When it has linked its transaction after `prev`. -/
def chained (prev : Option (Transaction ℤ)) (data : TransactionCreate) (gen : Generated)
    (post : Posting) : Writes :=
  { entered H data gen post with
    transactions := [(chainAfter H prev (newTransaction H data gen)).flush] }

/-- When it commits. -/
def announced (prev : Option (Transaction ℤ)) (data : TransactionCreate) (gen : Generated)
    (post : Posting) : Writes :=
  { chained H prev data gen post with
    outboxEvents := [writeTransactionEvent gen (chainAfter H prev (newTransaction H data gen))] }

section Stages

variable {H} {data : TransactionCreate} {gen : Generated} {post : Posting}
  {prev : Option (Transaction ℤ)}

/-- Each stage has the keys of the one before and those that the statement in between adds. -/
theorem perm_lookedUp :
    (lookedUp data [newClearingAccount gen]).rows.uniqueKeys.Perm
      ((lookedUp data []).rows.uniqueKeys ++
        (Stmt.insertAccount (newClearingAccount gen)).uniqueKeys) :=
  .refl _

theorem perm_recorded :
    (recorded H data gen post).rows.uniqueKeys.Perm
      ((lookedUp data post.opened).rows.uniqueKeys ++
        (Stmt.insertTransaction (newTransaction H data gen).flush).uniqueKeys) := by
  simp [recorded, lookedUp, Writes.rows, Database.uniqueKeys, Stmt.uniqueKeys]

theorem perm_entered :
    (entered H data gen post).rows.uniqueKeys.Perm
      ((recorded H data gen post).rows.uniqueKeys ++
        (Stmt.insertLedgerEntries (newEntries data gen post.debit post.credit)).uniqueKeys) := by
  simp [entered, recorded, lookedUp, Writes.rows, Database.uniqueKeys, Stmt.uniqueKeys]

theorem perm_chained :
    (chained H prev data gen post).rows.uniqueKeys.Perm
      ((entered H data gen post).rows.uniqueKeys ++
        (Stmt.updateChainColumns (chainAfter H prev (newTransaction H data gen)).id
          (chainAfter H prev (newTransaction H data gen)).prevHash
          (chainAfter H prev (newTransaction H data gen)).chainHash
          (chainAfter H prev (newTransaction H data gen)).chainSeq).uniqueKeys) := by
  -- the new number stands among the keys of its row, before those of the entries
  refine List.perm_iff_count.mpr fun k => ?_
  simp [chained, entered, recorded, lookedUp, Writes.rows, Database.uniqueKeys, Stmt.uniqueKeys,
    Transaction.uniqueKeys, chainAfter, newTransaction, Transaction.flush, List.count_cons]
  omega

theorem perm_announced :
    (announced H prev data gen post).rows.uniqueKeys.Perm
      ((chained H prev data gen post).rows.uniqueKeys ++
        (Stmt.insertOutboxEvent (writeTransactionEvent gen
          (chainAfter H prev (newTransaction H data gen)))).uniqueKeys) := by
  simp [announced, chained, entered, recorded, lookedUp, Writes.rows, Database.uniqueKeys,
    Stmt.uniqueKeys]

/-- An unlinked transaction does not change the chain. -/
theorem chain_entered (db : Database) : (db.view (entered H data gen post)).chain = db.chain :=
  Database.chain_view rfl (by simp [entered, recorded, newTransaction, Transaction.flush])

end Stages

/-! ## The functions one by one -/

section Evaluation

variable {db : Database} {w : Writes}

/-- A statement that violates no key takes effect, and the program goes on. -/
theorem eval_execute_bind {α : Type} {stmt : Stmt} {f : stmt.Reply → Prog sql α} {r : stmt.Reply}
    {w' : Writes} (hfree : violation db w stmt = none) (h : perform db w stmt = .ok (r, w')) :
    postgres.eval (execute stmt >>= f) db w = postgres.eval (f r) db w' :=
  Store.eval_bind_ok _ (postgres.eval_exec_ok ((exec_of_free hfree).trans h))

/-- The clearing account is found or created. -/
theorem eval_getOrCreateClearingAccount (gen : Generated) (hw : w.accounts = [])
    (hfree : db.accountByName externalClearingName = none →
      violation db w (.insertAccount (newClearingAccount gen)) = none) :
    postgres.eval (getOrCreateClearingAccount gen) db w =
      ⟨.ok (db.clearingAccount gen), db, { w with accounts := db.openedAccounts gen }, []⟩ := by
  have hview : (db.view w).accountByName externalClearingName =
      db.accountByName externalClearingName := by
    rw [Database.accountByName, Database.view_accounts, hw, List.append_nil]
    rfl
  have hselect : postgres.eval selectClearingAccount db w =
      ⟨.ok (db.accountByName externalClearingName), db, w, []⟩ :=
    postgres.eval_exec_ok (by rw [← hview]; rfl)
  rw [getOrCreateClearingAccount, Store.eval_bind_ok _ hselect]
  cases hfound : db.accountByName externalClearingName with
  | some account =>
      simp only [Database.clearingAccount, Database.openedAccounts, hfound, Option.getD_some,
        Option.isSome_some, if_true, Prog.pure_eq, Store.eval_ret]
      rw [← hw]
  | none =>
      dsimp only
      -- alone, the second lookup finds what the first did
      rw [eval_execute_bind rfl rfl, Store.eval_bind_ok _ hselect, hfound]
      dsimp only
      rw [eval_execute_bind (hfree hfound) rfl]
      simp only [Database.clearingAccount, Database.openedAccounts, hfound, Option.getD_none,
        Option.isSome_none, Prog.pure_eq, Store.eval_ret, hw, List.nil_append]
      rfl

/-- Accounts that exist are locked. -/
theorem eval_lockEach {ids : List UUID} (h : ∀ id ∈ ids, id ∈ (db.view w).accounts.map (·.id)) :
    ∃ accounts, postgres.eval (lockEach ids) db w = ⟨.ok accounts, db, w, []⟩ := by
  induction ids with
  | nil => exact ⟨[], rfl⟩
  | cons id ids ih =>
      obtain ⟨account, hfound⟩ := Option.isSome_iff_exists.mp
        (Database.accountById_isSome_iff.mpr (h id (by simp)))
      obtain ⟨accounts, hrest⟩ := ih fun id' hid' => h id' (List.mem_cons_of_mem _ hid')
      refine ⟨account :: accounts, ?_⟩
      rw [lockEach, eval_execute_bind rfl rfl, hfound]
      dsimp only
      rw [Store.eval_bind_ok _ hrest]
      rfl

/-- `lockAccounts` locks accounts that exist, in whatever order they come. -/
theorem eval_lockAccounts {ids : List UUID}
    (h : ∀ id ∈ ids, id ∈ (db.view w).accounts.map (·.id)) :
    ∃ accounts, postgres.eval (lockAccounts ids) db w = ⟨.ok accounts, db, w, []⟩ :=
  eval_lockEach fun id hid => h id ((List.mem_insertionSort _).mp hid)

/-- The new chain columns turn the inserted row into the linked one. -/
theorem set_flush (H : HexHash) (prev : Option (Transaction ℤ)) (txn : Transaction Decimal) :
    Rechained.set ⟨(chainAfter H prev txn).id, (chainAfter H prev txn).prevHash,
        (chainAfter H prev txn).chainHash, (chainAfter H prev txn).chainSeq⟩ txn.flush =
      (chainAfter H prev txn).flush := by
  simp [Rechained.set, chainAfter, Transaction.flush]

/-- The update of the chain columns reaches the inserted row and, since its id is new, no other. -/
theorem perform_updateChainColumns {H : HexHash} {db : Database} (prev : Option (Transaction ℤ))
    {data : TransactionCreate} {gen : Generated} {w : Writes}
    (hw : w.transactions = [(newTransaction H data gen).flush])
    (hid : gen.transactionId ∉ db.transactions.map (·.id)) :
    perform db w (.updateChainColumns (chainAfter H prev (newTransaction H data gen)).id
        (chainAfter H prev (newTransaction H data gen)).prevHash
        (chainAfter H prev (newTransaction H data gen)).chainHash
        (chainAfter H prev (newTransaction H data gen)).chainSeq) =
      .ok ((), { w with
        transactions := [(chainAfter H prev (newTransaction H data gen)).flush] }) := by
  have hmem : (chainAfter H prev (newTransaction H data gen)).id ∈
      (db.view w).transactions.map (·.id) := by
    rw [Database.view, List.map_append, hw]
    exact List.mem_append_right _ (List.mem_singleton_self _)
  have hid' : (chainAfter H prev (newTransaction H data gen)).id ∉ db.transactions.map (·.id) := hid
  simp only [perform, if_pos hmem, if_neg hid', hw, List.map_singleton, set_flush]

/-- The overdraft check compares the value of the sum, whatever the form that the sum comes in. -/
theorem coalesceSum_lt_iff (amounts : List ℤ) (amount : Decimal) :
    coalesceSum amounts < amount ↔ readAmount amounts.sum < amount := by
  rw [Decimal.lt_iff_toRat_lt, Decimal.lt_iff_toRat_lt,
    Decimal.toRat_of_exactAt (exactAt_coalesceSum amounts)]
  rfl

end Evaluation

/-! ## A request that settles -/

section Settling

variable {H} {db : Database} {data : TransactionCreate} {gen : Generated} {post : Posting}

/-- The keys of the rows of a request. -/
theorem uniqueKeys_postingWrites :
    (postingWrites H db data gen post).rows.uniqueKeys =
      post.opened.flatMap Account.uniqueKeys ++
        (.transactionsPkey gen.transactionId :: .transactionsIdempotencyKey data.idempotencyKey ::
          (linkedTransaction H db data gen).chainSeq.toList.map .transactionsChainSeq) ++
        [.ledgerEntriesPkey gen.firstEntryId, .ledgerEntriesPkey gen.secondEntryId] ++
        [.outboxEventsPkey gen.eventId] := by
  simp [Writes.rows, Database.uniqueKeys, postingWrites, postedRow, Transaction.flush,
    Transaction.uniqueKeys, newEntries, LedgerEntry.uniqueKeys, OutboxEvent.uniqueKeys,
    writeTransactionEvent, linkedTransaction, chainAfter, newTransaction]

/-- The accounts of a request, type by type. -/
inductive Posts (db : Database) (data : TransactionCreate) (gen : Generated) : Posting → Prop
  | deposit {id : UUID} (htype : data.type = .deposit) (haccount : data.accountId = some id) :
      Posts db data gen ⟨db.openedAccounts gen, (db.clearingAccount gen).id, id⟩
  | withdrawal {id : UUID} (htype : data.type = .withdrawal) (haccount : data.accountId = some id) :
      Posts db data gen ⟨db.openedAccounts gen, id, (db.clearingAccount gen).id⟩
  | transfer {source target : UUID} (htype : data.type = .transfer)
      (hsource : data.fromAccountId = some source) (htarget : data.toAccountId = some target)
      (hne : source ≠ target) : Posts db data gen ⟨[], source, target⟩

/-- There are no others. -/
theorem posts_of_posting (h : db.posting data gen = some post) : Posts db data gen post := by
  unfold Database.posting at h
  cases htype : data.type with
  | deposit =>
      simp only [htype] at h
      obtain ⟨id, haccount, rfl⟩ := Option.map_eq_some_iff.mp h
      exact .deposit htype haccount
  | withdrawal =>
      simp only [htype] at h
      obtain ⟨id, haccount, rfl⟩ := Option.map_eq_some_iff.mp h
      exact .withdrawal htype haccount
  | transfer =>
      simp only [htype] at h
      obtain ⟨source, hsource, h⟩ := Option.bind_eq_some_iff.mp h
      obtain ⟨target, htarget, h⟩ := Option.bind_eq_some_iff.mp h
      split at h
      case isTrue => cases h
      case isFalse hne =>
        obtain rfl := Option.some.inj h
        exact .transfer htype hsource htarget hne

/-- The accounts a request opens are the clearing account or none. -/
theorem opened_of_posting (h : db.posting data gen = some post) :
    post.opened = [] ∨ (post.opened = [newClearingAccount gen] ∧
      db.accountByName externalClearingName = none) := by
  have hopened : db.openedAccounts gen = [] ∨ (db.openedAccounts gen = [newClearingAccount gen] ∧
      db.accountByName externalClearingName = none) := by
    unfold Database.openedAccounts
    cases db.accountByName externalClearingName <;> simp
  cases posts_of_posting h with
  | deposit => exact hopened
  | withdrawal => exact hopened
  | transfer => exact Or.inl rfl

/-- The keys of the clearing account are no keys of other rows. -/
theorem mem_uniqueKeys_opened (h : db.posting data gen = some post) {k : UniqueKey}
    (hk : k ∈ post.opened.flatMap Account.uniqueKeys) :
    k = .accountsPkey gen.accountId ∨ k = .accountsName externalClearingName := by
  rcases opened_of_posting h with hnil | ⟨hopened, -⟩
  · simp [hnil] at hk
  · simpa [hopened, Account.uniqueKeys, newClearingAccount] using hk

/-- The entries of a request refer to its transaction, and to its accounts if these exist. -/
theorem references_recorded (hdebit : post.debit ∈ (db.accounts ++ post.opened).map (·.id))
    (hcredit : post.credit ∈ (db.accounts ++ post.opened).map (·.id)) :
    ∀ e ∈ newEntries data gen post.debit post.credit,
      e.transactionId ∈ (db.view (recorded H data gen post)).transactions.map (·.id) ∧
        e.accountId ∈ (db.view (recorded H data gen post)).accounts.map (·.id) := by
  intro e he
  have hrow : gen.transactionId ∈
      (db.view (recorded H data gen post)).transactions.map (·.id) := by
    rw [Database.view_transactions rfl, List.map_append]
    exact List.mem_append_right _ (List.mem_singleton_self _)
  simp only [newEntries, List.mem_cons, List.not_mem_nil, or_false] at he
  rcases he with rfl | rfl
  · exact ⟨hrow, hdebit⟩
  · exact ⟨hrow, hcredit⟩

namespace Settles

variable (h : Settles H db data gen post)
include h

/-- At every stage the rows are fresh, since those of the last one are. -/
theorem fresh_announced : Fresh db (announced H db.chain.getLast? data gen post) := h.fresh

theorem fresh_chained : Fresh db (chained H db.chain.getLast? data gen post) :=
  (h.fresh_announced.of_perm rfl perm_announced).1

theorem fresh_entered : Fresh db (entered H data gen post) :=
  (h.fresh_chained.of_perm rfl perm_chained).1

theorem fresh_recorded : Fresh db (recorded H data gen post) :=
  (h.fresh_entered.of_perm rfl perm_entered).1

theorem fresh_lookedUp : Fresh db (lookedUp data post.opened) :=
  (h.fresh_recorded.of_perm rfl perm_recorded).1

/-- The debited account can pay what is stored. -/
theorem cents_le (htype : data.type ≠ .deposit) : data.cents ≤ db.balance post.debit :=
  data.cents_le_of_not_lt (h.funds htype)

/-- The id of the transaction is new. -/
theorem transactionId_not_mem : gen.transactionId ∉ db.transactions.map (·.id) :=
  h.fresh.transaction_not_mem (List.mem_singleton_self (postedRow H db data gen))

/-- The transaction is inserted. -/
theorem eval_addTransaction {debit credit : UUID} :
    postgres.eval (addTransaction H data gen debit credit) db (lookedUp data post.opened) =
      ⟨.ok (newTransaction H data gen, newEntries data gen debit credit), db,
        recorded H data gen post, []⟩ := by
  rw [addTransaction, eval_execute_bind (h.fresh_recorded.of_perm rfl perm_recorded).2 rfl]
  rfl

/-- The clearing account is there, before or after. -/
theorem eval_clearing_bind (hopened : post.opened = db.openedAccounts gen) {α : Type}
    (f : Account → Prog sql α) :
    postgres.eval (getOrCreateClearingAccount gen >>= f) db (lookedUp data []) =
      postgres.eval (f (db.clearingAccount gen)) db (lookedUp data post.opened) := by
  have hfree : db.accountByName externalClearingName = none →
      violation db (lookedUp data []) (.insertAccount (newClearingAccount gen)) = none := by
    intro hnone
    have hnew : post.opened = [newClearingAccount gen] := by
      rw [hopened, Database.openedAccounts, hnone]
      rfl
    exact ((hnew ▸ h.fresh_lookedUp).of_perm rfl perm_lookedUp).2
  rw [Store.eval_bind_ok _ (eval_getOrCreateClearingAccount gen rfl hfree), hopened]
  rfl

/-- The accounts of the request can be locked. -/
theorem eval_lockAccounts_bind {ids : List UUID}
    (hids : ∀ id ∈ ids, id = post.debit ∨ id = post.credit) {α : Type} (x : Prog sql α) :
    postgres.eval (lockAccounts ids >>= fun _ => x) db
        (lookedUp data post.opened) =
      postgres.eval x db (lookedUp data post.opened) := by
  have hmem : ∀ id ∈ ids, id ∈ ((db.view
      (lookedUp data post.opened)).accounts).map (·.id) := by
    intro id hid
    rcases hids id hid with rfl | rfl
    · exact h.debit_mem
    · exact h.credit_mem
  obtain ⟨accounts, hlocks⟩ := eval_lockAccounts hmem
  rw [Store.eval_bind_ok _ hlocks]

/-- The debited account can pay. -/
theorem eval_computeBalance_bind (htype : data.type ≠ .deposit) {α : Type}
    (f : Decimal → Prog sql α) :
    ∃ balance, ¬ balance < data.amount ∧
      postgres.eval (computeBalance post.debit >>= f) db (lookedUp data post.opened) =
        postgres.eval (f balance) db (lookedUp data post.opened) := by
  refine ⟨coalesceSum (db.amounts post.debit), ?_, ?_⟩
  · rw [coalesceSum_lt_iff]
    exact h.funds htype
  · rw [computeBalance, eval_execute_bind rfl rfl, Database.amounts_view rfl]

/-- The branch of the request succeeds. -/
theorem eval_recordTransaction :
    postgres.eval (recordTransaction H data gen) db (lookedUp data []) =
      ⟨.ok (newTransaction H data gen, newEntries data gen post.debit post.credit), db,
        recorded H data gen post, []⟩ := by
  unfold recordTransaction
  cases posts_of_posting h.posting with
  | deposit htype haccount =>
      simp only [htype, deposit, haccount]
      rw [h.eval_clearing_bind rfl, h.eval_lockAccounts_bind (by simp), h.eval_addTransaction]
  | withdrawal htype haccount =>
      simp only [htype, withdrawal, haccount]
      rw [h.eval_clearing_bind rfl, h.eval_lockAccounts_bind (by simp)]
      obtain ⟨balance, hbalance, heval⟩ := h.eval_computeBalance_bind (by rw [htype]; decide) _
      rw [heval, if_neg hbalance, h.eval_addTransaction]
  | transfer htype hsource htarget hne =>
      simp only [htype, transfer, hsource, htarget, if_neg hne]
      rw [h.eval_lockAccounts_bind (by simp)]
      obtain ⟨balance, hbalance, heval⟩ := h.eval_computeBalance_bind (by rw [htype]; decide) _
      rw [heval, if_neg hbalance, h.eval_addTransaction]

/-- The entries refer to the new transaction and to accounts that exist. -/
theorem eval_insertLedgerEntries_bind {α : Type} (f : Unit → Prog sql α) :
    postgres.eval
        (execute (.insertLedgerEntries (newEntries data gen post.debit post.credit)) >>= f) db
        (recorded H data gen post) =
      postgres.eval (f ()) db (entered H data gen post) := by
  refine eval_execute_bind (h.fresh_entered.of_perm rfl perm_entered).2 ?_
  rw [perform, if_pos (references_recorded h.debit_mem h.credit_mem)]
  rfl

/-- The committed row is read back. -/
theorem find?_postedRow :
    (db.view (postingWrites H db data gen post)).transactions.find? (·.id = gen.transactionId) =
      some (postedRow H db data gen) := by
  -- the id is new, so it is found among the rows of the commit
  have hnone : db.transactions.find? (·.id = gen.transactionId) = none :=
    List.find?_eq_none.mpr fun row hrow hid => h.transactionId_not_mem
      (of_decide_eq_true hid ▸ List.mem_map_of_mem hrow)
  rw [Database.view_transactions rfl, List.find?_append, hnone]
  simp [postingWrites, postedRow, linkedTransaction, chainAfter, newTransaction, Transaction.flush]

/-- The transaction is linked to the tip of the committed chain. -/
theorem eval_linkTransaction :
    postgres.eval (linkTransaction H (newEntries data gen post.debit post.credit)
        (newTransaction H data gen)) db (recorded H data gen post) =
      ⟨.ok (linkedTransaction H db data gen), db, entered H data gen post, []⟩ := by
  rw [linkTransaction, eval_execute_bind rfl rfl, h.eval_insertLedgerEntries_bind,
    eval_execute_bind rfl rfl, chain_entered]
  rfl

/-- Link, event, commit and refresh succeed. -/
theorem eval_finishTransaction :
    postgres.eval (finishTransaction H gen (newTransaction H data gen)
        (newEntries data gen post.debit post.credit)) db (recorded H data gen post) =
      ⟨.ok (postedRow H db data gen).load, db.view (postingWrites H db data gen post), .blank,
        []⟩ := by
  rw [finishTransaction, Store.eval_bind_ok _ h.eval_linkTransaction]
  have hchain := (h.fresh_chained.of_perm rfl perm_chained).2
  have hevent := (h.fresh_announced.of_perm rfl perm_announced).2
  have hid := h.transactionId_not_mem
  refine (eval_execute_bind hchain (perform_updateChainColumns _ rfl hid)).trans ?_
  refine (eval_execute_bind hevent rfl).trans ?_
  show postgres.eval (execute (.refreshTransaction gen.transactionId) >>= _)
    (db.view (postingWrites H db data gen post)) .blank = _
  rw [eval_execute_bind rfl (by rw [perform, Database.view_blank, h.find?_postedRow])]
  rfl

/-- **A request that settles is accepted** and writes what it posts. -/
theorem eval_createTransaction :
    postgres.eval (createTransaction H data gen) db .blank =
      ⟨.ok (postedRow H db data gen).load, db.view (postingWrites H db data gen post), .blank,
        []⟩ := by
  -- the key is new, so the lookup is in vain
  have hmiss : (db.view .blank).transactionByKey data.idempotencyKey = none := by
    rw [Database.view_blank, Database.transactionByKey_eq_none_iff]
    exact h.fresh.not_mem _ (by rw [uniqueKeys_postingWrites]; simp)
  rw [createTransaction, eval_execute_bind rfl rfl, hmiss]
  show postgres.eval (recordTransaction H data gen >>= _) db (lookedUp data []) = _
  rw [Store.eval_bind_ok _ h.eval_recordTransaction]
  exact h.eval_finishTransaction

end Settles

end Settling

end LedgerApi
