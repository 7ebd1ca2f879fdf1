import LedgerApi.AuditSoundness
import LedgerApi.Revisions

/-! # The life of a deployment

A deployment starts with an empty database and is then migrated up and down, and between migrations
the application runs on it, as soon as its schema has all the columns (`Deployed`). The books stay
balanced through all of this, whatever the revision, and wherever the application can run both
audits pass (`deployment_audited`). A migration that is taken back right away leaves the tables as
they were, but for the digests that 004 has rebuilt (`downgrade_upgrade`). -/

namespace LedgerApi

open Sessions System HashChain

variable {H : HexHash} {db db' : Database} {drawn : Drawn} {s s' : Schema}

/-! ## Balanced books -/

/-- The entries of a transaction. -/
def InitialTables.entriesOf (tables : InitialTables) (transactionId : UUID) : List LedgerEntry :=
  tables.ledgerEntries.filter (·.transactionId = transactionId)

/-- The balance of an account, in cents. -/
def InitialTables.balance (tables : InitialTables) (accountId : UUID) : ℤ :=
  ((tables.ledgerEntries.filter (·.accountId = accountId)).map (·.amount)).sum

/-- **Balanced books**: what holds of the tables that every revision has. -/
structure Balanced (H : HexHash) (tables : InitialTables) : Prop where
  accountIds : (tables.accounts.map (·.id)).Nodup
  accountNames : (tables.accounts.map (·.name)).Nodup
  transactionIds : (tables.transactions.map (·.id)).Nodup
  idempotencyKeys : (tables.transactions.map (·.idempotencyKey)).Nodup
  entryIds : (tables.ledgerEntries.map (·.id)).Nodup
  request_hash : ∀ t ∈ tables.transactions, ∃ text, t.requestHash = H.hexdigest text
  amount_pos : ∀ t ∈ tables.transactions, 0 < t.amount
  /-- A transaction has its debit and its credit. -/
  entries : ∀ t ∈ tables.transactions,
    (tables.entriesOf t.id).map (·.amount) = [-t.amount, t.amount]
  transaction_refs : ∀ e ∈ tables.ledgerEntries, e.transactionId ∈ tables.transactions.map (·.id)
  account_refs : ∀ e ∈ tables.ledgerEntries, e.accountId ∈ tables.accounts.map (·.id)
  /-- No account but the clearing account is overdrawn. -/
  funds : ∀ a ∈ tables.accounts, a.name ≠ externalClearingName → 0 ≤ tables.balance a.id

/-- The tables and columns that every revision has. -/
def Database.books (db : Database) : InitialTables :=
  ⟨db.accounts, db.transactions.map (·.initial), db.ledgerEntries⟩

/-- Books without transactions are balanced. -/
theorem balanced_of_accounts {accounts : List Account} (hids : (accounts.map (·.id)).Nodup)
    (hnames : (accounts.map (·.name)).Nodup) : Balanced H ⟨accounts, [], []⟩ where
  accountIds := hids
  accountNames := hnames
  transactionIds := List.nodup_nil
  idempotencyKeys := List.nodup_nil
  entryIds := List.nodup_nil
  request_hash _ ht := absurd ht List.not_mem_nil
  amount_pos _ ht := absurd ht List.not_mem_nil
  entries _ ht := absurd ht List.not_mem_nil
  transaction_refs _ he := absurd he List.not_mem_nil
  account_refs _ he := absurd he List.not_mem_nil
  funds _ _ _ := le_refl 0

/-- The order of the transactions does not matter. -/
theorem Balanced.of_perm {accounts : List Account}
    {transactions transactions' : List InitialTransaction} {entries : List LedgerEntry}
    (h : Balanced H ⟨accounts, transactions, entries⟩)
    (hperm : transactions.Perm transactions') : Balanced H ⟨accounts, transactions', entries⟩ where
  accountIds := h.accountIds
  accountNames := h.accountNames
  transactionIds := ((hperm.map _).nodup_iff).mp h.transactionIds
  idempotencyKeys := ((hperm.map _).nodup_iff).mp h.idempotencyKeys
  entryIds := h.entryIds
  request_hash t ht := h.request_hash t (hperm.mem_iff.mpr ht)
  amount_pos t ht := h.amount_pos t (hperm.mem_iff.mpr ht)
  entries t ht := h.entries t (hperm.mem_iff.mpr ht)
  transaction_refs e he := (hperm.map _).mem_iff.mp (h.transaction_refs e he)
  account_refs := h.account_refs
  funds := h.funds

/-- The accounts may change, as long as those that entries refer to stay. -/
theorem Balanced.of_accounts {accounts accounts' : List Account}
    {transactions : List InitialTransaction} {entries : List LedgerEntry}
    (h : Balanced H ⟨accounts, transactions, entries⟩) (hids : (accounts'.map (·.id)).Nodup)
    (hnames : (accounts'.map (·.name)).Nodup)
    (hrefs : ∀ e ∈ entries, e.accountId ∈ accounts'.map (·.id))
    (hfrom : ∀ a ∈ accounts', a ∈ accounts ∨ ∀ e ∈ entries, e.accountId ≠ a.id) :
    Balanced H ⟨accounts', transactions, entries⟩ where
  accountIds := hids
  accountNames := hnames
  transactionIds := h.transactionIds
  idempotencyKeys := h.idempotencyKeys
  entryIds := h.entryIds
  request_hash := h.request_hash
  amount_pos := h.amount_pos
  entries := h.entries
  transaction_refs := h.transaction_refs
  account_refs := hrefs
  funds a ha hname := by
    rcases hfrom a ha with ha | hnone
    · exact h.funds a ha hname
    · -- an account that no entry refers to has nothing and owes nothing
      have hnil : entries.filter (·.accountId = a.id) = [] :=
        List.filter_eq_nil_iff.mpr fun e he heq => hnone e he (of_decide_eq_true heq)
      show 0 ≤ ((entries.filter (·.accountId = a.id)).map (·.amount)).sum
      rw [hnil]
      exact le_refl 0

/-- The books of consistent tables are balanced. -/
theorem Consistent.balanced (h : Consistent H db) : Balanced H db.books where
  accountIds := Database.nodup_accountIds h.keys
  accountNames := Database.nodup_accountNames h.keys
  transactionIds := by
    rw [Database.books, List.map_map]
    exact Database.nodup_transactionIds h.keys
  idempotencyKeys := by
    rw [Database.books, List.map_map]
    exact Database.nodup_idempotencyKeys h.keys
  entryIds := Database.nodup_entryIds h.keys
  request_hash := List.forall_mem_map.mpr h.request_hash
  amount_pos := List.forall_mem_map.mpr h.amount_pos
  entries := List.forall_mem_map.mpr h.entries
  transaction_refs e he := by
    rw [Database.books, List.map_map]
    exact h.transaction_refs e he
  account_refs := h.account_refs
  funds := h.funds

/-- The table that has the index of a key. -/
def UniqueKey.table : UniqueKey → ℕ
  | accountsPkey _ => 0
  | accountsName _ => 0
  | transactionsPkey _ => 1
  | transactionsIdempotencyKey _ => 1
  | transactionsChainSeq _ => 1
  | ledgerEntriesPkey _ => 2
  | outboxEventsPkey _ => 3

theorem table_account (a : Account) : ∀ k ∈ a.uniqueKeys, k.table = 0 := by
  simp [Account.uniqueKeys, UniqueKey.table]

theorem table_transaction (t : Transaction ℤ) : ∀ k ∈ t.uniqueKeys, k.table = 1 := by
  cases hseq : t.chainSeq <;> simp [Transaction.uniqueKeys, hseq, UniqueKey.table]

theorem table_ledgerEntry (e : LedgerEntry) : ∀ k ∈ e.uniqueKeys, k.table = 2 := by
  simp [LedgerEntry.uniqueKeys, UniqueKey.table]

theorem table_outboxEvent (e : OutboxEvent) : ∀ k ∈ e.uniqueKeys, k.table = 3 := by
  simp [OutboxEvent.uniqueKeys, UniqueKey.table]

/-- The keys of all rows of a table. -/
theorem table_of_mem {Row : Type} {keys : Row → List UniqueKey} {n : ℕ} {rows : List Row}
    (h : ∀ row, ∀ k ∈ keys row, k.table = n) : ∀ k ∈ rows.flatMap keys, k.table = n := by
  intro k hk
  obtain ⟨row, -, hrow⟩ := List.mem_flatMap.mp hk
  exact h row k hrow

/-- Keys that are distinct column by column are distinct. -/
theorem Balanced.nodup_uniqueKeys (h : Balanced H db.books)
    (hevents : (db.outboxEvents.map (·.id)).Nodup)
    (hseq : (db.transactions.map (·.chainSeq)).Nodup) : db.uniqueKeys.Nodup := by
  have haccounts : (db.accounts.flatMap Account.uniqueKeys).Nodup := by
    refine List.nodup_flatMap.mpr ⟨fun a _ => by simp [Account.uniqueKeys], ?_⟩
    refine ((List.pairwise_map.mp h.accountIds).and (List.pairwise_map.mp h.accountNames)).imp ?_
    rintro a b ⟨hid, hname⟩
    simp [Function.onFun, List.disjoint_left, Account.uniqueKeys, hid, hname]
  have htransactions : (db.transactions.flatMap Transaction.uniqueKeys).Nodup := by
    have hids := h.transactionIds
    have hkeys := h.idempotencyKeys
    rw [Database.books, List.map_map] at hids hkeys
    refine List.nodup_flatMap.mpr ⟨fun t _ => ?_, ?_⟩
    · cases hchain : t.chainSeq <;> simp [Transaction.uniqueKeys, hchain]
    · refine (((List.pairwise_map.mp hids).and (List.pairwise_map.mp hkeys)).and
        (List.pairwise_map.mp hseq)).imp ?_
      rintro t u ⟨⟨hid, hkey⟩, hchain⟩
      have hid : t.id ≠ u.id := hid
      have hkey : t.idempotencyKey ≠ u.idempotencyKey := hkey
      cases ht : t.chainSeq <;> cases hu : u.chainSeq <;> rw [ht, hu] at hchain <;>
        simp_all [Function.onFun, List.disjoint_left, Transaction.uniqueKeys]
  have hentries : (db.ledgerEntries.flatMap LedgerEntry.uniqueKeys).Nodup := by
    refine List.nodup_flatMap.mpr ⟨fun e _ => List.nodup_singleton _, ?_⟩
    refine (List.pairwise_map.mp h.entryIds).imp fun {e f} hid => ?_
    simp [Function.onFun, LedgerEntry.uniqueKeys, hid.symm]
  have hoevents : (db.outboxEvents.flatMap OutboxEvent.uniqueKeys).Nodup := by
    refine List.nodup_flatMap.mpr ⟨fun e _ => List.nodup_singleton _, ?_⟩
    refine (List.pairwise_map.mp hevents).imp fun {e f} hid => ?_
    simp [Function.onFun, OutboxEvent.uniqueKeys, hid.symm]
  -- keys of different tables differ
  have happend : ∀ {A B : List UniqueKey} (n : ℕ), A.Nodup → B.Nodup → (∀ k ∈ A, k.table < n) →
      (∀ k ∈ B, k.table = n) → (A ++ B).Nodup := by
    intro A B n hA hB hlt heq
    refine List.nodup_append.mpr ⟨hA, hB, fun a ha b hb hab => ?_⟩
    have htable := hlt a ha
    rw [hab, heq b hb] at htable
    exact Nat.lt_irrefl n htable
  have hA : ∀ k ∈ db.accounts.flatMap Account.uniqueKeys, k.table = 0 :=
    table_of_mem table_account
  have hT : ∀ k ∈ db.transactions.flatMap Transaction.uniqueKeys, k.table = 1 :=
    table_of_mem table_transaction
  have hE : ∀ k ∈ db.ledgerEntries.flatMap LedgerEntry.uniqueKeys, k.table = 2 :=
    table_of_mem table_ledgerEntry
  have hO : ∀ k ∈ db.outboxEvents.flatMap OutboxEvent.uniqueKeys, k.table = 3 :=
    table_of_mem table_outboxEvent
  have hlt : ∀ {A : List UniqueKey} {m n : ℕ}, (∀ k ∈ A, k.table = m) → m < n →
      ∀ k ∈ A, k.table < n := fun hA hmn k hk => (hA k hk).trans_lt hmn
  refine happend 3 (happend 2 (happend 1 haccounts htransactions ?_ hT) hentries ?_ hE)
    hoevents ?_ hO
  · exact hlt hA (by decide)
  · exact List.forall_mem_append.mpr ⟨hlt hA (by decide), hlt hT (by decide)⟩
  · exact List.forall_mem_append.mpr ⟨List.forall_mem_append.mpr
      ⟨hlt hA (by decide), hlt hT (by decide)⟩, hlt hE (by decide)⟩

/-! ## The order of the rows -/

/-- The tables with the transactions in the order of their chain. -/
def Database.inChainOrder (db : Database) : Database := { db with transactions := db.chain }

/-- The tables of a revision that the application can run on: balanced books and a sound chain,
wherever the rows stand. -/
structure SoundTables (H : HexHash) (db : Database) : Prop where
  balanced : Balanced H db.books
  events : (db.outboxEvents.map (·.id)).Nodup
  chain : ChainSound H db

/-- In the order of their chain they are consistent. -/
theorem SoundTables.consistent (h : SoundTables H db) : Consistent H db.inChainOrder := by
  have hperm := h.chain.complete
  have hbalanced : Balanced H db.inChainOrder.books := h.balanced.of_perm (hperm.map _)
  have hids : db.inChainOrder.books.transactions.map (·.id) = db.chain.map (·.id) := by
    rw [Database.books, List.map_map]
    rfl
  constructor
  case keys => exact hbalanced.nodup_uniqueKeys h.events h.chain.numbered.nodup
  case chain_seq => exact h.chain.numbered
  case linked => exact h.chain.linked
  case request_hash => exact fun t ht => hbalanced.request_hash t.initial (List.mem_map_of_mem ht)
  case amount_pos => exact fun t ht => hbalanced.amount_pos t.initial (List.mem_map_of_mem ht)
  case entries => exact fun t ht => hbalanced.entries t.initial (List.mem_map_of_mem ht)
  case transaction_refs =>
    intro e he
    have hmem := hbalanced.transaction_refs e he
    rwa [hids] at hmem
  case account_refs => exact hbalanced.account_refs
  case funds => exact hbalanced.funds

/-- Consistent tables, with the rows in any order. -/
theorem SoundTables.of_consistent (h : Consistent H db') (haccounts : db'.accounts = db.accounts)
    (hperm : db'.transactions.Perm db.transactions)
    (hentries : db'.ledgerEntries = db.ledgerEntries)
    (hevents : db'.outboxEvents = db.outboxEvents) (hchain : ChainSound H db) :
    SoundTables H db where
  balanced := by
    have hbalanced := h.balanced
    rw [Database.books, haccounts, hentries] at hbalanced
    exact hbalanced.of_perm (hperm.map _)
  events := hevents ▸ Database.nodup_eventIds h.keys
  chain := hchain

section ChainOrder

variable (h : ChainSound H db)
include h

theorem ChainSound.chain_inChainOrder : db.inChainOrder.chain = db.chain :=
  Database.chain_eq_of_perm (List.Perm.refl _) h.numbered

/-- Rows that are new are new in any order. -/
theorem ChainSound.fresh_inChainOrder {written : Writes} (hfresh : Fresh db written) :
    Fresh db.inChainOrder written := by
  have hkeys : db.uniqueKeys.Perm db.inChainOrder.uniqueKeys :=
    (((h.complete.flatMap_right _).append_left _).append_right _).append_right _
  refine ⟨hfresh.rechained, hfresh.nodup, fun k hk hmem => ?_⟩
  exact hfresh.not_mem k hk (hkeys.mem_iff.mpr hmem)

/-- **What commits does not depend on the order of the rows.** -/
theorem ChainSound.commits_inChainOrder {call : Call} {written : Writes}
    (hcall : Commits H db call written) : Commits H db.inChainOrder call written := by
  cases hcall with
  | postAccount hfresh => exact .postAccount (h.fresh_inChainOrder hfresh)
  | @createTransaction data gen post hs =>
      have hwrites : postingWrites H db data gen post =
          postingWrites H db.inChainOrder data gen post := by
        simp only [postingWrites, postedRow, linkedTransaction, h.chain_inChainOrder]
      have hfresh := h.fresh_inChainOrder hs.fresh
      rw [hwrites] at hfresh ⊢
      exact .createTransaction ⟨hs.posting, hfresh, hs.debit_mem, hs.credit_mem, hs.funds⟩

end ChainOrder

/-- **The application keeps its tables sound**, however its requests are interleaved. -/
theorem SoundTables.of_api (h : SoundTables H db)
    {w : World sql Database Writes Resource Request Response}
    (hw : (api H).Reachable (World.init db) w) : SoundTables H w.shared.store := by
  refine api_store_invariant hw h (fun db call written h hcall => ?_) fun db marks h => ?_
  · have hcommit := h.consistent.commit (h.chain.commits_inChainOrder hcall)
    have hperm : (db.inChainOrder.view written).transactions.Perm
        (db.view written).transactions := by
      rw [Database.view_transactions hcall.fresh.rechained,
        Database.view_transactions hcall.fresh.rechained]
      exact h.chain.complete.symm.append_right _
    exact .of_consistent hcommit rfl hperm rfl rfl (h.chain.commit hcall)
  · exact .of_consistent (h.consistent.mark marks) rfl (h.chain.complete.symm.append_right _) rfl
      rfl (h.chain.mark marks)

/-- Both audits pass on sound tables. -/
theorem SoundTables.audits_pass (h : SoundTables H db) :
    (verifyLedger db).status = .pass ∧ ChainVerifies H db := by
  refine ⟨(verifyLedger_eq_pass_iff db).mpr ?_, h.chain.verifies⟩
  have hfacts := h.consistent.auditFacts
  have hperm := h.chain.complete
  exact ⟨hfacts.global_sum, hfacts.balanced,
    fun e he => (hperm.map _).mem_iff.mpr (hfacts.transaction_refs e he), hfacts.account_refs,
    ((hperm.map _).nodup_iff).mpr hfacts.keys, hperm.length_eq ▸ hfacts.entry_count⟩

/-! ## Migrations -/

namespace Schema

/-- The tables and columns that every revision has. -/
def books : Schema → InitialTables
  | base => ⟨[], [], []⟩
  | revision001 tables => tables
  | revision002 tables => tables.toInitialTables
  | revision003 tables => (Revision003.downgrade tables).toInitialTables
  | revision004 db => db.books
  | revision005 db => db.books

/-- The outbox, from the revision on that has one. -/
def outboxEvents : Schema → List OutboxEvent
  | base => []
  | revision001 _ => []
  | revision002 tables => tables.outboxEvents
  | revision003 tables => tables.outboxEvents
  | revision004 db => db.outboxEvents
  | revision005 db => db.outboxEvents

/-- The tables that the application can run on: they have all the columns of `app/models.py`. -/
def database : Schema → Option Database
  | revision004 db => some db
  | revision005 db => some db
  | _ => none

/-- The schema with other rows in the same tables. -/
def withDatabase (db : Database) : Schema → Schema
  | revision004 _ => revision004 db
  | revision005 _ => revision005 db
  | s => s

/-- **The invariant of a deployment**: balanced books, distinct events, and a sound chain where
there is one. -/
structure Sound (H : HexHash) (s : Schema) : Prop where
  balanced : Balanced H s.books
  events : (s.outboxEvents.map (·.id)).Nodup
  chain : ∀ db ∈ s.database, ChainSound H db

theorem Sound.tables (h : s.Sound H) (hdb : s.database = some db) : SoundTables H db := by
  have hchain := h.chain db hdb
  obtain ⟨hbalanced, hevents, -⟩ := h
  cases s with
  | revision004 tables =>
      obtain rfl := Option.some.inj hdb
      exact ⟨hbalanced, hevents, hchain⟩
  | revision005 tables =>
      obtain rfl := Option.some.inj hdb
      exact ⟨hbalanced, hevents, hchain⟩
  | _ => cases hdb

/-- Other sound rows in the same tables. -/
theorem Sound.withDatabase (hdb : s.database = some db) (h : SoundTables H db') :
    (s.withDatabase db').Sound H := by
  have hchain : ∀ t, some db' = some t → ChainSound H t := fun t ht => Option.some.inj ht ▸ h.chain
  cases s with
  | revision004 tables => exact ⟨h.balanced, h.events, hchain⟩
  | revision005 tables => exact ⟨h.balanced, h.events, hchain⟩
  | _ => cases hdb

end Schema

/-- Columns that are added and dropped leave the rows as they were. -/
theorem downgrade003_upgrade003 (tables : OutboxTables) :
    Revision003.downgrade (Revision003.upgrade tables) = tables := by
  rw [Revision003.downgrade, Revision003.upgrade, List.map_map]
  show OutboxTables.mk ⟨tables.accounts, tables.transactions.map id, _⟩ _ = tables
  rw [List.map_id]

/-- The rows that `downgrade` of 004 leaves have the columns they had. -/
theorem books_downgrade004 (db : Database) :
    (Revision003.downgrade (Revision004.downgrade db)).toInitialTables = db.books := by
  rw [Revision003.downgrade, Revision004.downgrade, Database.books, List.map_map]
  rfl

/-- **What migration 004 leaves**: the same books and events, with a sound chain. -/
theorem upgrade004 {tables : HashedTables}
    (hids : (tables.transactions.map (·.id)).Nodup) (h : Revision004.upgrade H tables = some db) :
    db.books = (Revision003.downgrade tables).toInitialTables ∧
      db.outboxEvents = tables.outboxEvents ∧ ChainSound H db := by
  obtain ⟨rows, hrows, rfl⟩ := Option.map_eq_some_iff.mp h
  have hcolumn : ((tables.transactions.map (·.addChainSeq)).map Transaction.id).Nodup := by
    rwa [List.map_map]
  obtain ⟨hinitial, -⟩ := upgrade_spec hcolumn hrows
  obtain ⟨rows', hrows', -, hsound⟩ := @exists_upgrade H ⟨tables.accounts,
    tables.transactions.map (·.addChainSeq), tables.ledgerEntries, tables.outboxEvents⟩ hcolumn
  obtain rfl := Option.some.inj (hrows.symm.trans hrows')
  refine ⟨?_, rfl, hsound⟩
  rw [Database.books, hinitial, List.map_map]
  rfl

/-- What an insertion does. -/
theorem eq_of_insertSystemAccount {id : UUID} {name : String} {now : Timestamp}
    (h : db.insertSystemAccount id name now = some db') :
    id ∉ db.accounts.map (·.id) ∧ name ∉ db.accounts.map (·.name) ∧
      db' = { db with accounts := db.accounts ++ [⟨id, name, true, now⟩] } := by
  unfold Database.insertSystemAccount at h
  split at h
  case isTrue => cases h
  case isFalse hfree =>
    obtain ⟨hid, hname⟩ := not_or.mp hfree
    exact ⟨hid, hname, (Option.some.inj h).symm⟩

/-- Other accounts, with those that entries refer to. -/
theorem SoundTables.of_accounts (h : SoundTables H db) {accounts : List Account}
    (hids : (accounts.map (·.id)).Nodup) (hnames : (accounts.map (·.name)).Nodup)
    (hrefs : ∀ e ∈ db.ledgerEntries, e.accountId ∈ accounts.map (·.id))
    (hfrom : ∀ a ∈ accounts, a ∈ db.accounts ∨ ∀ e ∈ db.ledgerEntries, e.accountId ≠ a.id) :
    SoundTables H { db with accounts := accounts } :=
  ⟨h.balanced.of_accounts hids hnames hrefs hfrom, h.events, h.chain.complete, h.chain.numbered,
    h.chain.linked⟩

/-- A system account is inserted into sound tables. -/
theorem SoundTables.insertSystemAccount (h : SoundTables H db) {id : UUID} {name : String}
    {now : Timestamp} (hdb : db.insertSystemAccount id name now = some db') :
    SoundTables H db' := by
  obtain ⟨hid, hname, rfl⟩ := eq_of_insertSystemAccount hdb
  have hbalanced := h.balanced
  refine h.of_accounts ?_ ?_ ?_ ?_
  · rw [List.map_append]
    refine List.nodup_append.mpr ⟨hbalanced.accountIds, List.nodup_singleton _, ?_⟩
    rintro a ha b hb rfl
    obtain rfl : a = id := List.mem_singleton.mp hb
    exact hid ha
  · rw [List.map_append]
    refine List.nodup_append.mpr ⟨hbalanced.accountNames, List.nodup_singleton _, ?_⟩
    rintro a ha b hb rfl
    obtain rfl : a = name := List.mem_singleton.mp hb
    exact hname ha
  · intro e he
    rw [List.map_append]
    exact List.mem_append_left _ (hbalanced.account_refs e he)
  · intro a ha
    rcases List.mem_append.mp ha with ha | ha
    · exact Or.inl ha
    · -- entries refer to accounts that were there before
      obtain rfl := List.mem_singleton.mp ha
      refine Or.inr fun e he heq => hid ?_
      have hmem := hbalanced.account_refs e he
      rwa [heq] at hmem

/-- The system accounts are deleted, which no entry refers to. -/
theorem SoundTables.downgrade005 (h : SoundTables H db)
    (hdb : Revision005.downgrade db = some db') : SoundTables H db' := by
  unfold Revision005.downgrade at hdb
  dsimp only at hdb
  split at hdb
  case isTrue => cases hdb
  case isFalse hrefs =>
    obtain rfl := Option.some.inj hdb
    have hbalanced := h.balanced
    refine h.of_accounts ?_ ?_ ?_ ?_
    · exact hbalanced.accountIds.sublist (List.filter_sublist.map _)
    · exact hbalanced.accountNames.sublist (List.filter_sublist.map _)
    · intro e he
      obtain ⟨a, ha, hid⟩ := List.mem_map.mp (hbalanced.account_refs e he)
      refine List.mem_map.mpr ⟨a, List.mem_filter.mpr ⟨ha, decide_eq_true fun hdeleted => ?_⟩, hid⟩
      exact hrefs ⟨e, he, hid ▸ hdeleted⟩
    · exact fun a ha => Or.inl (List.mem_of_mem_filter ha)

namespace Schema

/-- The tables of the application, in the invariant. -/
theorem Sound.of_tables (hdb : s.database = some db) (h : SoundTables H db) : s.Sound H := by
  cases s with
  | revision004 tables =>
      obtain rfl := Option.some.inj hdb
      exact ⟨h.balanced, h.events, fun t ht => Option.some.inj ht ▸ h.chain⟩
  | revision005 tables =>
      obtain rfl := Option.some.inj hdb
      exact ⟨h.balanced, h.events, fun t ht => Option.some.inj ht ▸ h.chain⟩
  | _ => cases hdb

/-- The tables of an earlier revision, in the invariant. -/
theorem Sound.of_books (hbalanced : Balanced H s.books)
    (hevents : (s.outboxEvents.map (·.id)).Nodup) (hnone : s.database = none) : s.Sound H :=
  ⟨hbalanced, hevents, fun db hdb => by rw [hnone] at hdb; cases hdb⟩

theorem sound_base : base.Sound H :=
  .of_books (balanced_of_accounts List.nodup_nil List.nodup_nil) List.nodup_nil rfl

/-- **Every migration keeps the invariant.** -/
theorem Sound.upgrade (h : s.Sound H) (hs : s.upgrade H drawn = some s') : s'.Sound H := by
  cases s with
  | base =>
      obtain rfl := Option.some.inj hs
      exact .of_books (balanced_of_accounts (List.nodup_singleton _) (List.nodup_singleton _))
        List.nodup_nil rfl
  | revision001 tables =>
      obtain rfl := Option.some.inj hs
      exact .of_books h.balanced List.nodup_nil rfl
  | revision002 tables =>
      obtain rfl := Option.some.inj hs
      refine .of_books ?_ h.events rfl
      rw [books, downgrade003_upgrade003]
      exact h.balanced
  | revision003 tables =>
      obtain ⟨db, hdb, rfl⟩ := Option.map_eq_some_iff.mp hs
      have hids := h.balanced.transactionIds
      rw [books, Revision003.downgrade, List.map_map] at hids
      obtain ⟨hbooks, hevents, hchain⟩ := upgrade004 hids hdb
      exact .of_tables rfl ⟨hbooks ▸ h.balanced, hevents ▸ h.events, hchain⟩
  | revision004 db =>
      obtain ⟨db', hdb', rfl⟩ := Option.map_eq_some_iff.mp hs
      obtain ⟨db₁, hdb₁, hdb'⟩ := Option.bind_eq_some_iff.mp hdb'
      have hfirst := (h.tables rfl).insertSystemAccount hdb₁
      exact .of_tables rfl (hfirst.insertSystemAccount hdb')
  | revision005 db => cases hs

/-- And so does taking it back. -/
theorem Sound.downgrade (h : s.Sound H) (hs : s.downgrade = some s') : s'.Sound H := by
  cases s with
  | base => cases hs
  | revision001 tables =>
      obtain rfl := Option.some.inj hs
      exact sound_base
  | revision002 tables =>
      obtain rfl := Option.some.inj hs
      exact .of_books h.balanced List.nodup_nil rfl
  | revision003 tables =>
      obtain rfl := Option.some.inj hs
      exact .of_books h.balanced h.events rfl
  | revision004 db =>
      obtain rfl := Option.some.inj hs
      refine .of_books ?_ h.events rfl
      rw [books, books_downgrade004]
      exact h.balanced
  | revision005 db =>
      obtain ⟨db', hdb', rfl⟩ := Option.map_eq_some_iff.mp hs
      exact .of_tables rfl ((h.tables rfl).downgrade005 hdb')

end Schema

/-! ## Deployments -/

/-- What happens to a deployment: it is migrated one revision up or down, or the application runs.
-/
inductive Schema.Step (H : HexHash) : Schema → Schema → Prop
  | upgrade {s s' : Schema} {drawn : Drawn} (h : s.upgrade H drawn = some s') : Step H s s'
  | downgrade {s s' : Schema} (h : s.downgrade = some s') : Step H s s'
  | run {s : Schema} {db : Database} {w : World sql Database Writes Resource Request Response}
      (hdb : s.database = some db) (hw : (api H).Reachable (World.init db) w) :
      Step H s (s.withDatabase w.shared.store)

/-- The states of a deployment that starts with an empty database. -/
def Deployed (H : HexHash) : Schema → Prop := Relation.ReflTransGen (Schema.Step H) .base

/-- Every step keeps the invariant. -/
theorem Schema.Sound.step (h : s.Sound H) (hstep : Schema.Step H s s') : s'.Sound H := by
  cases hstep with
  | upgrade hs => exact h.upgrade hs
  | downgrade hs => exact h.downgrade hs
  | run hdb hw => exact .withDatabase hdb ((h.tables hdb).of_api hw)

theorem Deployed.sound (h : Deployed H s) : s.Sound H := by
  induction h with
  | refl => exact Schema.sound_base
  | tail _ hstep ih => exact ih.step hstep

theorem Deployed.tables (h : Deployed H s) (hdb : s.database = some db) : SoundTables H db :=
  h.sound.tables hdb

/-- Several migrations in one transaction. -/
theorem Deployed.upgrades (h : Deployed H s) {n : ℕ} (hs : s.upgrades H drawn n = some s') :
    Deployed H s' := by
  induction n generalizing s with
  | zero => exact Option.some.inj hs ▸ h
  | succ n ih =>
      obtain ⟨t, ht, hs⟩ := Option.bind_eq_some_iff.mp hs
      exact ih (h.tail (.upgrade ht)) hs

/-- **Deployments stay audited**: in whatever order a deployment is migrated up and down and the
application runs on it, its books are balanced at every revision, and both audits pass wherever the
application can run. -/
theorem deployment_audited (h : Deployed H s) :
    Balanced H s.books ∧ ∀ db, s.database = some db →
      (verifyLedger db).status = .pass ∧ ChainVerifies H db :=
  ⟨h.sound.balanced, fun _ hdb => (h.tables hdb).audits_pass⟩

/-! ## A deployment -/

theorem validLength_alice : ValidLength "alice" := by decide

/-- Alice is a new customer and makes two deposits: the one that was begun first commits last. -/
def deployedRun : Option (World sql Database Writes Resource Request Response) :=
  (api sha256).run (fun _ _ => True) (migratedDatabase 1 0)
    [.call (.postAccount ⟨"alice", validLength_alice⟩ 2 0),
      .call (.createTransaction sampleDeposit (sampleGenerated 1)),
      .call (.createTransaction laterDeposit (sampleGenerated 2))]
    (List.replicate 3 0 ++ [1] ++ List.replicate 14 2 ++ List.replicate 13 1)

/-- The tables of the run, one migration back. -/
def downgradedRun : Option Database :=
  deployedRun.bind fun w => Revision005.downgrade w.shared.store

theorem downgradedRun_outcome :
    downgradedRun.map (fun db => db.chain.map (·.createdAt)) = some [2, 1] := by
  decide +kernel

/-- They are those of a deployment. -/
theorem deployed_downgradedRun (h : downgradedRun = some db) :
    Deployed sha256 (.revision004 db) := by
  obtain ⟨w, hw, hdb⟩ := Option.bind_eq_some_iff.mp h
  have hbase : Schema.upgrades sha256 ⟨1, 0⟩ 5 .base =
      some (.revision005 (migratedDatabase 1 0)) := upgrades_base sha256 (by decide) (by decide)
  have hnew : Deployed sha256 (.revision005 (migratedDatabase 1 0)) := .upgrades .refl hbase
  have hrun : Deployed sha256 (.revision005 w.shared.store) :=
    hnew.tail (.run rfl (Reaches.of_run hw).reachable)
  exact hrun.tail (.downgrade (congrArg (Option.map Schema.revision004) hdb))

/-- Both audits pass on them. -/
theorem deployment_audited_downgradedRun :
    ∃ db, downgradedRun = some db ∧ db.chain.map (·.createdAt) = [2, 1] ∧
      Balanced sha256 db.books ∧ ∀ db', some db = some db' →
        (verifyLedger db').status = .pass ∧ ChainVerifies sha256 db' := by
  obtain ⟨db, hdb, houtcome⟩ := Option.map_eq_some_iff.mp downgradedRun_outcome
  exact ⟨db, hdb, houtcome, deployment_audited (deployed_downgradedRun hdb)⟩

/-! ## Migrations that are taken back -/

/-- Migration 004, taken back and applied again, gives the tables that were there. -/
def Restores (H : HexHash) (drawn : Drawn) (db : Database) : Prop :=
  ∃ t, (Schema.revision004 db).downgrade = some t ∧ t.upgrade H drawn = some (.revision004 db)

/-- **Rebuilding the chain**: a deployment that goes back before migration 004 and migrates again
has the tables it had exactly if its transactions were chained in the order of `created_at`, which
is that in which they were begun, and `id`; so never if one of them was begun before another and
chained after it. -/
theorem rebuilt_chain_iff (h : Deployed H (.revision004 db)) :
    (Restores H drawn db ↔ db.chain.Pairwise MigrationLe) ∧
      (Overtaken db → ¬ Restores H drawn db) := by
  suffices hiff : Restores H drawn db ↔ db.chain.Pairwise MigrationLe from
    ⟨hiff, fun hovertaken hrestores => hovertaken.not_pairwise (hiff.mp hrestores)⟩
  have htables := h.tables rfl
  have hids := htables.balanced.transactionIds
  rw [Database.books, List.map_map] at hids
  rw [← reanchor_eq_iff htables.chain hids]
  constructor
  · rintro ⟨t, ht, hup⟩
    obtain rfl := Option.some.inj ht
    obtain ⟨db', hdb', heq⟩ := Option.map_eq_some_iff.mp hup
    obtain rfl := Schema.revision004.inj heq
    exact hdb'
  · exact fun hup => ⟨_, rfl, congrArg (Option.map Schema.revision004) hup⟩

theorem downgradedRun_overtaken :
    downgradedRun.map (fun db => decide (Overtaken db)) = some true := by
  decide +kernel

/-- In the run the transaction that was begun first commits last. -/
theorem rebuilt_chain_iff_downgradedRun :
    ∃ db, downgradedRun = some db ∧ Overtaken db ∧ ¬ Restores sha256 ⟨1, 3⟩ db ∧
      ¬ db.chain.Pairwise MigrationLe := by
  obtain ⟨db, hdb, houtcome⟩ := Option.map_eq_some_iff.mp downgradedRun_overtaken
  have hovertaken := of_decide_eq_true houtcome
  have hchanged : ¬ Restores sha256 ⟨1, 3⟩ db :=
    (rebuilt_chain_iff (deployed_downgradedRun hdb)).2 hovertaken
  refine ⟨db, hdb, hovertaken, hchanged, fun hsorted => hchanged ?_⟩
  exact (rebuilt_chain_iff (deployed_downgradedRun hdb)).1.mpr hsorted

/-- The system accounts that 005 inserts are those that it deletes. -/
theorem downgrade005_upgrade005 {now : Timestamp}
    (hrefs : ∀ e ∈ db.ledgerEntries, e.accountId ∈ db.accounts.map (·.id))
    (h : Revision005.upgrade now db = some db') : Revision005.downgrade db' = some db := by
  obtain ⟨db₁, h₁, h₂⟩ := Option.bind_eq_some_iff.mp h
  obtain ⟨hsuspense, -, rfl⟩ := eq_of_insertSystemAccount h₁
  obtain ⟨hclearing, -, rfl⟩ := eq_of_insertSystemAccount h₂
  have hclearing : settlementClearingId ∉ db.accounts.map (·.id) := fun hmem => by
    refine hclearing ?_
    rw [List.map_append]
    exact List.mem_append_left _ hmem
  have hfree : ∀ id ∈ db.accounts.map (·.id), id ∉ [paymentSuspenseId, settlementClearingId] := by
    intro id hid hmem
    rcases List.mem_pair.mp hmem with rfl | rfl
    · exact hsuspense hid
    · exact hclearing hid
  -- no entry refers to them, and no other account is deleted
  have hnone : ¬ ∃ e ∈ db.ledgerEntries,
      e.accountId ∈ [paymentSuspenseId, settlementClearingId] := fun ⟨e, he, hmem⟩ =>
    hfree _ (hrefs e he) hmem
  have hkept : db.accounts.filter (·.id ∉ [paymentSuspenseId, settlementClearingId]) =
      db.accounts :=
    List.filter_eq_self.mpr fun a ha => decide_eq_true (hfree _ (List.mem_map_of_mem ha))
  refine (if_neg hnone).trans (congrArg some ?_)
  show Database.mk (List.filter _ ((db.accounts ++ [_]) ++ [_])) _ _ _ = db
  rw [List.filter_append, List.filter_append, hkept]
  simp

/-- **Migrations are taken back**: a downgrade right after an upgrade leaves the tables as they
were; after migration 004 the digests in them are those of the chain that it has rebuilt, and
everything else is as it was. -/
theorem downgrade_upgrade (h : Deployed H s) (hs : s.upgrade H drawn = some s') :
    ∃ t, s'.downgrade = some t ∧ ((∀ tables, s ≠ .revision003 tables) → t = s) ∧
      ∀ tables, s = .revision003 tables → ∃ tables', t = .revision003 tables' ∧
        Revision003.downgrade tables' = Revision003.downgrade tables ∧
        tables'.transactions.Perm ((tables.rebuilt H).map (·.dropChainSeq)) := by
  cases s with
  | base =>
      obtain rfl := Option.some.inj hs
      exact ⟨.base, rfl, fun _ => rfl, nofun⟩
  | revision001 tables =>
      obtain rfl := Option.some.inj hs
      exact ⟨.revision001 tables, rfl, fun _ => rfl, nofun⟩
  | revision002 tables =>
      obtain rfl := Option.some.inj hs
      exact ⟨_, rfl, fun _ => congrArg Schema.revision002 (downgrade003_upgrade003 tables), nofun⟩
  | revision003 tables =>
      obtain ⟨db, hdb, rfl⟩ := Option.map_eq_some_iff.mp hs
      have hids := h.sound.balanced.transactionIds
      rw [Schema.books, Revision003.downgrade, List.map_map] at hids
      obtain ⟨hbooks, hevents, -⟩ := upgrade004 hids hdb
      refine ⟨_, rfl, fun hnot => absurd rfl (hnot tables), ?_⟩
      rintro _ ⟨⟩
      refine ⟨_, rfl, ?_, (upgrade004_perm hids hdb).map _⟩
      rw [← books_downgrade004] at hbooks
      exact congrArg₂ OutboxTables.mk hbooks hevents
  | revision004 db =>
      obtain ⟨db', hdb', rfl⟩ := Option.map_eq_some_iff.mp hs
      have hdown := downgrade005_upgrade005 h.sound.balanced.account_refs hdb'
      exact ⟨_, congrArg (Option.map Schema.revision004) hdown, fun _ => rfl, nofun⟩
  | revision005 db => cases hs

/-- Migration 004 succeeds. -/
theorem Deployed.exists_upgrade003 {tables : HashedTables} (h : Deployed H (.revision003 tables))
    (drawn : Drawn) : ∃ t, (Schema.revision003 tables).upgrade H drawn = some t := by
  have hids := h.sound.balanced.transactionIds
  rw [Schema.books, Revision003.downgrade, List.map_map] at hids
  obtain ⟨rows, hrows, -⟩ := @exists_upgrade H ⟨tables.accounts,
    tables.transactions.map (·.addChainSeq), tables.ledgerEntries, tables.outboxEvents⟩
    (by rwa [List.map_map])
  have hup : Revision004.upgrade H tables =
      some ⟨tables.accounts, rows, tables.ledgerEntries, tables.outboxEvents⟩ :=
    congrArg (Option.map _) hrows
  exact ⟨_, congrArg (Option.map Schema.revision004) hup⟩

/-- Not all of the rows that migration 004 makes of the run's are those that it had. -/
theorem downgradedRun_rebuilt :
    downgradedRun.map (fun db => decide (∀ row ∈ (Revision004.downgrade db).rebuilt sha256,
      row.dropChainSeq ∈ (Revision004.downgrade db).transactions)) = some false := by
  decide +kernel

/-- In the run migration 004 is taken back, and applied and taken back once more it changes
digests. -/
theorem downgrade_upgrade_downgradedRun :
    ∃ db t tables', downgradedRun = some db ∧
      (Schema.revision003 (Revision004.downgrade db)).upgrade sha256 ⟨1, 3⟩ = some t ∧
      t.downgrade = some (.revision003 tables') ∧
      tables' ≠ Revision004.downgrade db ∧
      Revision003.downgrade tables' = Revision003.downgrade (Revision004.downgrade db) := by
  obtain ⟨db, hdb, houtcome⟩ := Option.map_eq_some_iff.mp downgradedRun_rebuilt
  have hback : Deployed sha256 (.revision003 (Revision004.downgrade db)) :=
    (deployed_downgradedRun hdb).tail (.downgrade rfl)
  obtain ⟨t, ht⟩ := hback.exists_upgrade003 ⟨1, 3⟩
  obtain ⟨_, hdown, -, hrebuilt⟩ := downgrade_upgrade hback ht
  obtain ⟨tables', rfl, hkept, hperm⟩ := hrebuilt _ rfl
  refine ⟨db, t, tables', hdb, ht, hdown, ?_, hkept⟩
  rintro rfl
  refine of_decide_eq_false houtcome fun row hrow => ?_
  exact hperm.mem_iff.mpr (List.mem_map_of_mem hrow)

/-- An insertion fails where the id or the name is taken. -/
theorem insertSystemAccount_eq_none_iff {id : UUID} {name : String} {now : Timestamp} :
    db.insertSystemAccount id name now = none ↔
      ∃ a ∈ db.accounts, a.id = id ∨ a.name = name := by
  unfold Database.insertSystemAccount
  split
  case isTrue htaken =>
    refine iff_of_true rfl ?_
    rcases htaken with hid | hname
    · obtain ⟨a, ha, rfl⟩ := List.mem_map.mp hid
      exact ⟨a, ha, Or.inl rfl⟩
    · obtain ⟨a, ha, rfl⟩ := List.mem_map.mp hname
      exact ⟨a, ha, Or.inr rfl⟩
  case isFalse hfree =>
    refine iff_of_false (Option.some_ne_none _) ?_
    rintro ⟨a, ha, rfl | rfl⟩
    · exact hfree (Or.inl (List.mem_map_of_mem ha))
    · exact hfree (Or.inr (List.mem_map_of_mem ha))

/-- Both insertions of 005. -/
theorem upgrade005_eq_none_iff {now : Timestamp} :
    Revision005.upgrade now db = none ↔
      ∃ a ∈ db.accounts, a.id ∈ [paymentSuspenseId, settlementClearingId] ∨
        a.name ∈ ["Payment Suspense", "Settlement Clearing"] := by
  unfold Revision005.upgrade
  simp only [List.mem_pair]
  cases hfirst : db.insertSystemAccount paymentSuspenseId "Payment Suspense" now with
  | none =>
      obtain ⟨a, ha, htaken⟩ := insertSystemAccount_eq_none_iff.mp hfirst
      exact iff_of_true rfl ⟨a, ha, htaken.imp Or.inl Or.inl⟩
  | some db₁ =>
      obtain ⟨hid, hname, rfl⟩ := eq_of_insertSystemAccount hfirst
      rw [Option.bind_some, insertSystemAccount_eq_none_iff]
      constructor
      · rintro ⟨a, ha, htaken⟩
        rcases List.mem_append.mp ha with ha | ha
        · exact ⟨a, ha, htaken.imp Or.inr Or.inr⟩
        · -- the two accounts differ in both
          obtain rfl := List.mem_singleton.mp ha
          have hids : paymentSuspenseId ≠ settlementClearingId := by decide
          have hnames : ("Payment Suspense" : String) ≠ "Settlement Clearing" := by decide
          exact absurd htaken (not_or.mpr ⟨hids, hnames⟩)
      · rintro ⟨a, ha, (heq | heq) | (heq | heq)⟩
        · exact absurd (heq ▸ List.mem_map_of_mem ha) hid
        · exact ⟨a, List.mem_append_left _ ha, Or.inl heq⟩
        · exact absurd (heq ▸ List.mem_map_of_mem ha) hname
        · exact ⟨a, List.mem_append_left _ ha, Or.inr heq⟩

/-- **Migrations succeed**, but for 005 where an account has an id or a name of a system account. -/
theorem upgrade_eq_none_iff (h : Deployed H s) :
    s.upgrade H drawn = none ↔ (∃ db, s = .revision005 db) ∨ ∃ db, s = .revision004 db ∧
      ∃ a ∈ db.accounts, a.id ∈ [paymentSuspenseId, settlementClearingId] ∨
        a.name ∈ ["Payment Suspense", "Settlement Clearing"] := by
  cases s with
  | base => simp [Schema.upgrade]
  | revision001 tables => simp [Schema.upgrade]
  | revision002 tables => simp [Schema.upgrade]
  | revision003 tables =>
      obtain ⟨t, ht⟩ := h.exists_upgrade003 drawn
      simp [ht]
  | revision004 db =>
      rw [Schema.upgrade, Option.map_eq_none_iff, upgrade005_eq_none_iff]
      simp
  | revision005 db => simp [Schema.upgrade]

theorem validLength_paymentSuspense : ValidLength "Payment Suspense" := by decide

/-- A customer opens an account with a name that 005 is going to insert. -/
def takenNameRun : Option (World sql Database Writes Resource Request Response) :=
  (api sha256).run (fun _ _ => True) ⟨[⟨1, externalClearingName, true, 0⟩], [], [], []⟩
    [.call (.postAccount ⟨"Payment Suspense", validLength_paymentSuspense⟩ 2 0)]
    (List.replicate 3 0)

theorem takenNameRun_outcome :
    takenNameRun.map (fun w => w.shared.store.accounts.map (·.name)) =
      some [externalClearingName, "Payment Suspense"] := by
  decide +kernel

/-- Migration 005 fails after it. -/
theorem upgrade_eq_none_iff_takenNameRun :
    ∃ w, takenNameRun = some w ∧
      (Schema.revision004 w.shared.store).upgrade sha256 ⟨1, 3⟩ = none := by
  obtain ⟨w, hw, hnames⟩ := Option.map_eq_some_iff.mp takenNameRun_outcome
  have hbase : Schema.upgrades sha256 ⟨1, 0⟩ 4 .base =
      some (.revision004 ⟨[⟨1, externalClearingName, true, 0⟩], [], [], []⟩) := rfl
  have hnew : Deployed sha256 (.revision004 ⟨[⟨1, externalClearingName, true, 0⟩], [], [], []⟩) :=
    .upgrades .refl hbase
  have hrun : Deployed sha256 (.revision004 w.shared.store) :=
    hnew.tail (.run rfl (Reaches.of_run hw).reachable)
  have hname : "Payment Suspense" ∈ w.shared.store.accounts.map (·.name) := by
    rw [hnames]
    simp
  obtain ⟨a, ha, hname⟩ := List.mem_map.mp hname
  exact ⟨w, hw, (upgrade_eq_none_iff hrun).mpr
    (.inr ⟨_, rfl, a, ha, .inr (hname ▸ List.mem_cons_self)⟩)⟩

end LedgerApi
