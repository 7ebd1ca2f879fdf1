import Mathlib.Data.Prod.Lex
import LedgerApi.Migration

/-! # The revisions of the schema

The five migrations of `migrations/versions`, with the tables that each revision has. A `Schema` is
a database at one of the revisions; `Schema.upgrade` and `Schema.downgrade` are the steps between
them, which fail where the server would refuse a statement. Upgrading an empty database five times
gives the tables that the application starts with (`upgrades_base`).

Migration 004 rebuilds the hash chain in the order of `created_at` and `id`. Run again on the rows
of the application, after a downgrade, it gives the same rows exactly if they are chained in that
order (`reanchor_eq_iff`). -/

namespace LedgerApi

open Sessions System HashChain

/-! ## Tables -/

/-- A row of `transactions` as migration 001 creates the table. -/
structure InitialTransaction where
  id : UUID
  idempotencyKey : String
  type : TransactionType
  /-- In cents. -/
  amount : ℤ
  requestHash : String
  reference : Option String
  createdAt : Timestamp
  deriving DecidableEq, Repr

/-- A row of `transactions` with the columns of migration 003. -/
structure HashedTransaction extends InitialTransaction where
  prevHash : Option String
  chainHash : Option String
  deriving DecidableEq, Repr

/-- The tables of revision 001. -/
structure InitialTables where
  accounts : List Account
  transactions : List InitialTransaction
  ledgerEntries : List LedgerEntry
  deriving DecidableEq, Repr

/-- The tables of revision 002. -/
structure OutboxTables extends InitialTables where
  outboxEvents : List OutboxEvent
  deriving DecidableEq, Repr

/-- The tables of revision 003. -/
structure HashedTables where
  accounts : List Account
  transactions : List HashedTransaction
  ledgerEntries : List LedgerEntry
  outboxEvents : List OutboxEvent
  deriving DecidableEq, Repr

/-- What the server draws for a migration: `gen_random_uuid()` and `now()`. -/
structure Drawn where
  clearingId : UUID
  now : Timestamp

/-! ## Migrations -/

namespace Revision001

/-- `upgrade` of `001_initial.py` -/
def upgrade (drawn : Drawn) : InitialTables :=
  ⟨[⟨drawn.clearingId, externalClearingName, true, drawn.now⟩], [], []⟩

end Revision001

namespace Revision002

/-- `upgrade` of `002_outbox.py` -/
def upgrade (tables : InitialTables) : OutboxTables := ⟨tables, []⟩

/-- `downgrade` of `002_outbox.py` -/
def downgrade (tables : OutboxTables) : InitialTables := tables.toInitialTables

end Revision002

namespace Revision003

/-- `upgrade` of `003_hash_chain.py`: the new columns are NULL. -/
def upgrade (tables : OutboxTables) : HashedTables where
  accounts := tables.accounts
  transactions := tables.transactions.map fun row => ⟨row, none, none⟩
  ledgerEntries := tables.ledgerEntries
  outboxEvents := tables.outboxEvents

/-- `downgrade` of `003_hash_chain.py` -/
def downgrade (tables : HashedTables) : OutboxTables where
  accounts := tables.accounts
  transactions := tables.transactions.map (·.toInitialTransaction)
  ledgerEntries := tables.ledgerEntries
  outboxEvents := tables.outboxEvents

end Revision003

/-- A row without its number. -/
def Transaction.dropChainSeq (row : Transaction ℤ) : HashedTransaction where
  id := row.id
  idempotencyKey := row.idempotencyKey
  type := row.type
  amount := row.amount
  requestHash := row.requestHash
  reference := row.reference
  createdAt := row.createdAt
  prevHash := row.prevHash
  chainHash := row.chainHash

/-- A row with a number that is NULL. -/
def HashedTransaction.addChainSeq (row : HashedTransaction) : Transaction ℤ where
  id := row.id
  idempotencyKey := row.idempotencyKey
  type := row.type
  amount := row.amount
  requestHash := row.requestHash
  prevHash := row.prevHash
  chainHash := row.chainHash
  chainSeq := none
  reference := row.reference
  createdAt := row.createdAt

namespace Revision004

/-- `upgrade` of `004_chain_sequence.py` -/
def upgrade (H : HexHash) (tables : HashedTables) : Option Database :=
  (LedgerApi.upgrade H (tables.transactions.map (·.addChainSeq))).map fun rows =>
    ⟨tables.accounts, rows, tables.ledgerEntries, tables.outboxEvents⟩

/-- `downgrade` of `004_chain_sequence.py` -/
def downgrade (db : Database) : HashedTables where
  accounts := db.accounts
  transactions := db.transactions.map (·.dropChainSeq)
  ledgerEntries := db.ledgerEntries
  outboxEvents := db.outboxEvents

end Revision004

/-- `PAYMENT_SUSPENSE_ID` -/
def paymentSuspenseId : UUID := 0xa0000000000040008000000000000001

/-- `SETTLEMENT_CLEARING_ID` -/
def settlementClearingId : UUID := 0xa0000000000040008000000000000002

/-- `INSERT INTO accounts (id, name, is_system)`, unless the id or the name is taken. -/
def Database.insertSystemAccount (db : Database) (id : UUID) (name : String) (now : Timestamp) :
    Option Database :=
  if id ∈ db.accounts.map (·.id) ∨ name ∈ db.accounts.map (·.name) then none
  else some { db with accounts := db.accounts ++ [⟨id, name, true, now⟩] }

namespace Revision005

/-- `upgrade` of `005_payment_accounts.py` -/
def upgrade (now : Timestamp) (db : Database) : Option Database :=
  (db.insertSystemAccount paymentSuspenseId "Payment Suspense" now).bind fun db =>
    db.insertSystemAccount settlementClearingId "Settlement Clearing" now

/-- `downgrade` of `005_payment_accounts.py`, unless an entry refers to an account it deletes. -/
def downgrade (db : Database) : Option Database :=
  let deleted := [paymentSuspenseId, settlementClearingId]
  if ∃ e ∈ db.ledgerEntries, e.accountId ∈ deleted then none
  else some { db with accounts := db.accounts.filter (·.id ∉ deleted) }

end Revision005

/-! ## Steps between revisions -/

/-- A database at a revision. -/
inductive Schema
  | base
  | revision001 (tables : InitialTables)
  | revision002 (tables : OutboxTables)
  | revision003 (tables : HashedTables)
  | revision004 (db : Database)
  | revision005 (db : Database)
  deriving DecidableEq, Repr

namespace Schema

variable (H : HexHash)

/-- `alembic upgrade +1` -/
def upgrade (drawn : Drawn) : Schema → Option Schema
  | base => some (revision001 (Revision001.upgrade drawn))
  | revision001 tables => some (revision002 (Revision002.upgrade tables))
  | revision002 tables => some (revision003 (Revision003.upgrade tables))
  | revision003 tables => (Revision004.upgrade H tables).map revision004
  | revision004 db => (Revision005.upgrade drawn.now db).map revision005
  | revision005 _ => none

/-- `alembic downgrade -1` -/
def downgrade : Schema → Option Schema
  | base => none
  -- all tables are dropped
  | revision001 _ => some base
  | revision002 tables => some (revision001 (Revision002.downgrade tables))
  | revision003 tables => some (revision002 (Revision003.downgrade tables))
  | revision004 db => some (revision003 (Revision004.downgrade db))
  | revision005 db => (Revision005.downgrade db).map revision004

/-- `alembic upgrade +n`: several migrations in one transaction. -/
def upgrades (drawn : Drawn) : ℕ → Schema → Option Schema
  | 0, s => some s
  | n + 1, s => (s.upgrade H drawn).bind (upgrades drawn n)

end Schema

/-- An account whose id and name are free is inserted. -/
theorem insertSystemAccount_eq_some (db : Database) (id : UUID) (name : String)
    (hid : id ∉ db.accounts.map (·.id)) (hname : name ∉ db.accounts.map (·.name))
    (now : Timestamp) :
    db.insertSystemAccount id name now =
      some { db with accounts := db.accounts ++ [⟨id, name, true, now⟩] } :=
  if_neg (not_or.mpr ⟨hid, hname⟩)

/-- **A new deployment**: five migrations make the tables that the application starts with. -/
theorem upgrades_base (H : HexHash) {drawn : Drawn} (h₁ : drawn.clearingId ≠ paymentSuspenseId)
    (h₂ : drawn.clearingId ≠ settlementClearingId) :
    Schema.upgrades H drawn 5 .base =
      some (.revision005 (migratedDatabase drawn.clearingId drawn.now)) := by
  obtain ⟨clearingId, now⟩ := drawn
  have hids : settlementClearingId ≠ paymentSuspenseId := by decide
  have hnames : "Payment Suspense" ≠ externalClearingName ∧
      "Settlement Clearing" ≠ externalClearingName ∧
      ("Settlement Clearing" : String) ≠ "Payment Suspense" := by decide
  have hfirst := insertSystemAccount_eq_some
    ⟨[⟨clearingId, externalClearingName, true, now⟩], [], [], []⟩ paymentSuspenseId
    "Payment Suspense" (by simpa using h₁.symm) (by simpa using hnames.1) now
  have hsecond := insertSystemAccount_eq_some
    ⟨[⟨clearingId, externalClearingName, true, now⟩,
      ⟨paymentSuspenseId, "Payment Suspense", true, now⟩], [], [], []⟩ settlementClearingId
    "Settlement Clearing" (by simpa using ⟨h₂.symm, hids⟩) (by simpa using hnames.2) now
  have hlast : Revision005.upgrade now
      ⟨[⟨clearingId, externalClearingName, true, now⟩], [], [], []⟩ =
        some (migratedDatabase clearingId now) := by
    rw [Revision005.upgrade, hfirst, Option.bind_some]
    exact hsecond
  show ((Revision005.upgrade now
    ⟨[⟨clearingId, externalClearingName, true, now⟩], [], [], []⟩).map Schema.revision005).bind
      some = _
  rw [hlast]
  rfl

/-! ## What migration 004 changes -/

variable {H : HexHash} {db : Database}

/-- The columns that every revision has. -/
def Transaction.initial (row : Transaction ℤ) : InitialTransaction :=
  row.dropChainSeq.toInitialTransaction

/-- Dropping the column and adding it again empties it. -/
theorem map_addChainSeq_dropChainSeq (rows : List (Transaction ℤ)) :
    (rows.map (·.dropChainSeq)).map (·.addChainSeq) = addChainSeq rows := by
  rw [List.map_map]
  rfl

/-- A new column leaves the others. -/
theorem map_initial_addChainSeq (rows : List (Transaction ℤ)) :
    (addChainSeq rows).map (·.initial) = rows.map (·.initial) := by
  rw [addChainSeq, List.map_map]
  rfl

/-- Rows with the same columns have the same ids. -/
theorem map_id_of_map_initial {rows rows' : List (Transaction ℤ)}
    (h : rows.map (·.initial) = rows'.map (·.initial)) : rows.map (·.id) = rows'.map (·.id) := by
  have hids := congrArg (List.map InitialTransaction.id) h
  rwa [List.map_map, List.map_map] at hids

theorem map_id_addChainSeq (rows : List (Transaction ℤ)) :
    (addChainSeq rows).map (·.id) = rows.map (·.id) :=
  map_id_of_map_initial (map_initial_addChainSeq rows)

/-- An update of the chain columns leaves the others. -/
theorem map_initial_setChain (id : UUID) (seq : ℤ) (prev curr : String)
    (table : List (Transaction ℤ)) :
    (setChain id seq prev curr table).map (·.initial) = table.map (·.initial) := by
  rw [setChain, List.map_map]
  refine List.map_congr_left fun row _ => ?_
  show Transaction.initial (if row.id = id then _ else row) = row.initial
  split <;> rfl

/-- So does the loop. -/
theorem map_initial_rebuild (seq : ℕ) (prevHash : String) (rows table : List (Transaction ℤ)) :
    (rebuild H seq prevHash rows table).map (·.initial) = table.map (·.initial) := by
  induction rows generalizing seq prevHash table with
  | nil => rfl
  | cons row rows ih => rw [rebuild, ih, map_initial_setChain]

/-- **Migration 004 rebuilds the chain and nothing else**: the rows have the columns they had, and
linked in the order of `created_at` and `id` they are the chain. -/
theorem upgrade_spec {table rows : List (Transaction ℤ)} (hids : (table.map (·.id)).Nodup)
    (h : upgrade H table = some rows) :
    rows.map (·.initial) = table.map (·.initial) ∧
      rows.Perm (build (chainScheme H) (rechained H) 1 (some genesisHash)
        ((addChainSeq table).insertionSort MigrationLe)) := by
  simp only [upgrade] at h
  split at h
  case isFalse => cases h
  case isTrue =>
    obtain rfl := Option.some.inj h
    rw [← map_id_addChainSeq] at hids
    rw [← map_initial_addChainSeq table]
    generalize addChainSeq table = table at hids ⊢
    have hsorted : table.Perm (table.insertionSort MigrationLe) :=
      (List.perm_insertionSort _ _).symm
    have hids' : (([] ++ table.insertionSort MigrationLe).map Transaction.id).Nodup :=
      (hsorted.map _).nodup_iff.mp hids
    exact ⟨map_initial_rebuild 1 genesisHash _ table, rebuild_perm 1 genesisHash hids' hsorted⟩

/-- The rows that migration 004 makes of the tables of revision 003, in the order of the chain. -/
def HashedTables.rebuilt (H : HexHash) (tables : HashedTables) : List (Transaction ℤ) :=
  build (chainScheme H) (rechained H) 1 (some genesisHash)
    ((tables.transactions.map (·.addChainSeq)).insertionSort MigrationLe)

/-- They are the rows of the next revision. -/
theorem upgrade004_perm {tables : HashedTables} (hids : (tables.transactions.map (·.id)).Nodup)
    (h : Revision004.upgrade H tables = some db) :
    db.transactions.Perm (tables.rebuilt H) := by
  obtain ⟨rows, hrows, rfl⟩ := Option.map_eq_some_iff.mp h
  have hcolumn : ((tables.transactions.map (·.addChainSeq)).map Transaction.id).Nodup := by
    rwa [List.map_map]
  have hperm := (upgrade_spec hcolumn hrows).2
  -- the columns are NULL already
  rwa [addChainSeq, List.map_map] at hperm

/-! ## Rebuilding the chain of the application -/

/-- What migration 004 sorts by. -/
def migrationKey (row : Transaction ℤ) : Lex (ℤ × UUID) := toLex (row.createdAt, row.id)

theorem migrationLe_iff {s t : Transaction ℤ} :
    MigrationLe s t ↔ migrationKey s ≤ migrationKey t :=
  (Prod.Lex.toLex_le_toLex (x := (s.createdAt, s.id)) (y := (t.createdAt, t.id))).symm

instance : Std.Total MigrationLe :=
  ⟨fun s t => by simpa only [migrationLe_iff] using le_total (migrationKey s) (migrationKey t)⟩

instance : IsTrans (Transaction ℤ) MigrationLe :=
  ⟨fun _ _ _ hst htu => migrationLe_iff.mpr
    (le_trans (migrationLe_iff.mp hst) (migrationLe_iff.mp htu))⟩

/-- Rows that come neither before nor after each other have one id. -/
theorem id_eq_of_migrationLe {s t : Transaction ℤ} (hst : MigrationLe s t) (hts : MigrationLe t s) :
    s.id = t.id := by
  have hkey := le_antisymm (migrationLe_iff.mp hst) (migrationLe_iff.mp hts)
  exact congrArg (fun key : Lex (ℤ × UUID) => (ofLex key).2) hkey

/-- A numbered row is linked as it was. -/
theorem rechained_self {n : ℕ} {row : Transaction ℤ}
    (hhash : (chainScheme H).rehash row = (chainScheme H).stored row)
    (hseq : row.chainSeq = some (n : ℤ)) :
    rechained H n row.prevHash { row with chainSeq := none } = row := by
  have hhash : some (computeChainHash H row.load row.prevHash) = row.chainHash := hhash
  have hlinked : rechained H n row.prevHash { row with chainSeq := none } =
      { row with
        chainSeq := some (n : ℤ)
        chainHash := some (computeChainHash H row.load row.prevHash) } := rfl
  rw [hlinked, hhash, ← hseq]

/-- The order of rows is that of the columns that every revision has. -/
theorem pairwise_migrationLe_congr {rows rows' : List (Transaction ℤ)}
    (h : rows.map (·.initial) = rows'.map (·.initial)) :
    rows.Pairwise MigrationLe ↔ rows'.Pairwise MigrationLe := by
  let Le (s t : InitialTransaction) : Prop :=
    s.createdAt < t.createdAt ∨ s.createdAt = t.createdAt ∧ s.id ≤ t.id
  have hmap : ∀ rows : List (Transaction ℤ),
      (rows.map (·.initial)).Pairwise Le ↔ rows.Pairwise MigrationLe := fun rows =>
    List.pairwise_map
  rw [← hmap, ← hmap, h]

/-- Rows that are chained in the order of `created_at` and `id` are sorted into their chain. -/
theorem sort_addChainSeq (h : ChainSound H db) (hids : (db.transactions.map (·.id)).Nodup)
    (hsorted : db.chain.Pairwise MigrationLe) :
    (addChainSeq (addChainSeq db.transactions)).insertionSort MigrationLe =
      addChainSeq db.chain := by
  have hchain : ((addChainSeq db.chain).map (·.id)).Nodup := by
    rw [map_id_addChainSeq]
    exact ((h.complete.map _).nodup_iff).mp hids
  have hperm : ((addChainSeq (addChainSeq db.transactions)).insertionSort MigrationLe).Perm
      (addChainSeq db.chain) := by
    refine (List.perm_insertionSort _ _).trans ?_
    have htwice : addChainSeq (addChainSeq db.transactions) = addChainSeq db.transactions := by
      simp only [addChainSeq, List.map_map]
      rfl
    rw [htwice]
    exact h.complete.map _
  refine List.Perm.eq_of_pairwise ?_ (List.pairwise_insertionSort MigrationLe _)
    ((pairwise_migrationLe_congr (map_initial_addChainSeq _)).mpr hsorted) hperm
  intro s t hs ht hst hts
  exact List.inj_on_of_nodup_map hchain (hperm.mem_iff.mp hs) ht (id_eq_of_migrationLe hst hts)

/-- A transaction that was begun before another one stands after it in the chain. -/
def Overtaken (db : Database) : Prop :=
  ∃ s ∈ db.chain, ∃ t ∈ db.chain, s.createdAt < t.createdAt ∧ ¬ s.ChainLe t

instance (db : Database) : Decidable (Overtaken db) :=
  inferInstanceAs (Decidable (∃ s ∈ db.chain, ∃ t ∈ db.chain, _))

/-- Then the chain is not in the order in which the transactions were begun. -/
theorem Overtaken.not_pairwise (h : Overtaken db) : ¬ db.chain.Pairwise MigrationLe := by
  intro hsorted
  obtain ⟨s, hs, t, ht, hbegun, hnot⟩ := h
  have hchain : db.chain.Pairwise Transaction.ChainLe := List.pairwise_insertionSort _ _
  obtain ⟨i, hi, rfl⟩ := List.getElem_of_mem hs
  obtain ⟨j, hj, rfl⟩ := List.getElem_of_mem ht
  rcases Nat.lt_trichotomy i j with hlt | rfl | hgt
  · exact hnot (List.pairwise_iff_getElem.mp hchain i j hi hj hlt)
  · exact absurd hbegun (lt_irrefl _)
  · rcases List.pairwise_iff_getElem.mp hsorted j i hj hi hgt with hlt | ⟨heq, -⟩
    · exact absurd hbegun hlt.asymm
    · exact absurd heq hbegun.ne'

/-- **Running migration 004 again**, after its downgrade, gives back the same tables exactly if the
application has chained its transactions in the order of `created_at` and `id`. -/
theorem reanchor_eq_iff (h : ChainSound H db) (hids : (db.transactions.map (·.id)).Nodup) :
    Revision004.upgrade H (Revision004.downgrade db) = some db ↔
      db.chain.Pairwise MigrationLe := by
  have hcolumn := map_id_addChainSeq db.transactions
  rw [Revision004.upgrade, Revision004.downgrade, map_addChainSeq_dropChainSeq]
  constructor
  · intro hdb
    obtain ⟨rows, hrows, hdb⟩ := Option.map_eq_some_iff.mp hdb
    obtain rfl : rows = db.transactions := congrArg Database.transactions hdb
    -- the chain is what linking the sorted rows gives
    obtain ⟨-, hperm⟩ := upgrade_spec (by rwa [hcolumn]) hrows
    rw [Database.chain_eq_of_perm hperm (numbered_build _)]
    have hrechained : ∀ n g row, (rechained H n g row).initial = row.initial := fun _ _ _ => rfl
    have hkept := map_build_of_eq (S := chainScheme H) hrechained 1 (some genesisHash)
      ((addChainSeq (addChainSeq db.transactions)).insertionSort MigrationLe)
    exact (pairwise_migrationLe_congr hkept).mpr (List.pairwise_insertionSort MigrationLe _)
  · intro hsorted
    obtain ⟨rows, hrows, -⟩ := @exists_upgrade H
      { db with transactions := addChainSeq db.transactions } (by rwa [hcolumn])
    obtain ⟨hinitial, hperm⟩ := upgrade_spec (by rwa [hcolumn]) hrows
    have hnumber : db.chain.map (·.chainSeq) =
        (List.range db.chain.length).map fun i : ℕ => some (((1 + i : ℕ) : ℤ)) := by
      refine h.numbered.trans (List.map_congr_left fun i _ => ?_)
      rw [Nat.cast_add, Nat.cast_one, Int.add_comm]
    rw [sort_addChainSeq h hids hsorted, addChainSeq, h.linked.build_eq
      (f := fun n : ℕ => some (n : ℤ)) (fun n row hhash hseq => rechained_self hhash hseq)
      hnumber] at hperm
    have hperm := hperm.trans h.complete.symm
    have hkeys : rows.map (·.id) = db.transactions.map (·.id) :=
      (map_id_of_map_initial hinitial).trans hcolumn
    have hsame : rows = db.transactions :=
      Grouping.eq_of_perm_of_map_eq hperm hkeys ((hperm.map _).nodup_iff.mpr hids)
    rw [hrows, hsame]
    rfl

end LedgerApi
