import LedgerApi.Audit
import LedgerApi.Balances

/-! # What the audit finds

The audit against the facts it reports on. It raises no false alarm (`Reachable.audited`). What it
misses are errors that cancel out in its aggregates: it counts all entries where it speaks of those
of each transaction, so that it is sound exactly for tables without a surplus entry
(`audit_sound_iff`), and neither it nor the chain looks at the amounts of balanced entries, so that
an edit of the entries is found exactly when it leaves a fault in their aggregates
(`entry_edit_found_iff`). -/

namespace LedgerApi

open Sessions

variable {H : HexHash} {db : Database}

/-! ## Completeness -/

/-- The double-entry facts of a ledger. -/
structure DoubleEntry (db : Database) : Prop where
  /-- Each transaction has two entries, of minus its amount and of its amount. -/
  entries : ∀ t ∈ db.transactions, (db.entriesOf t.id).map (·.amount) = [-t.amount, t.amount]
  transaction_refs : ∀ e ∈ db.ledgerEntries, e.transactionId ∈ db.transactions.map (·.id)
  account_refs : ∀ e ∈ db.ledgerEntries, e.accountId ∈ db.accounts.map (·.id)
  keys : (db.transactions.map (·.idempotencyKey)).Nodup
  sum : (db.ledgerEntries.map (·.amount)).sum = 0

/-- The aggregates of a consistent database are right. -/
theorem Consistent.auditFacts (h : Consistent H db) : AuditFacts db where
  global_sum := h.sum_entries
  balanced e he := by
    obtain ⟨t, ht, hid⟩ := List.mem_map.mp (h.transaction_refs e he)
    rw [← hid]
    exact h.sum_entriesOf ht
  transaction_refs := h.transaction_refs
  account_refs := h.account_refs
  keys := Database.nodup_idempotencyKeys h.keys
  entry_count := h.entry_count

/-- **No false alarm**: every reachable database is in double entry, and the audit passes it without
a discrepancy. -/
theorem Reachable.audited (h : Reachable H db) :
    DoubleEntry db ∧ (verifyLedger db).status = .pass ∧ (verifyLedger db).discrepancies = [] := by
  have hc := h.consistent
  have hpass := (verifyLedger_eq_pass_iff db).mpr hc.auditFacts
  exact ⟨⟨hc.entries, hc.transaction_refs, hc.account_refs, Database.nodup_idempotencyKeys hc.keys,
    hc.sum_entries⟩, hpass, (discrepancies_eq_nil_iff db).mpr hpass⟩

/-- The database after a deposit and a withdrawal, with the relay run in between. -/
def sampleLedger : Database :=
  (serve sha256 (serve sha256 (serve sha256 sampleDatabase
    (.call (.createTransaction sampleDeposit (sampleGenerated 1)))).2
    (.outboxPublish 50 (fun _ => true) (fun _ => 7))).2
    (.call (.createTransaction (sampleWithdrawal "withdrawal-1" validLength_withdrawalKey)
      (sampleGenerated 2)))).2

theorem reachable_sampleLedger : Reachable sha256 sampleLedger :=
  .serve (.serve (.serve (.initial initial_sampleDatabase) _) _) _

/-- The transactions of that database. -/
def sampleRows : List (Transaction ℤ) := [
  ⟨12, "deposit-1", .deposit, 1000,
    "512805c1698e4c4f916ad221f65926a3fac365ce0383ee23ee14f5fd47662e8f", some genesisHash,
    some "3f4edfff0548a69b0fb9ead35db599f801f289a5bc5032a18b5c411759f04e8b", some 1, none, 1⟩,
  ⟨22, "withdrawal-1", .withdrawal, 750,
    "3c802ae9280c13dc2f6d5667e74547ae1107015bebf3c80cfb1ec13a67468b37",
    some "3f4edfff0548a69b0fb9ead35db599f801f289a5bc5032a18b5c411759f04e8b",
    some "7a67e8dd88343b0e5418a8f39acfeffacd3d5d1b030a61efa9e90105a59b59ac", some 2, none, 2⟩]

theorem sampleLedger_chain : sampleLedger.chain = sampleRows := by decide +kernel

/-- The audit of a ledger with two transactions. -/
theorem audited_sampleLedger :
    sampleLedger.transactions.length = 2 ∧ DoubleEntry sampleLedger ∧
      (verifyLedger sampleLedger).status = .pass ∧
      (verifyLedger sampleLedger).discrepancies = [] :=
  ⟨by decide +kernel, reachable_sampleLedger.audited⟩

/-! ## Soundness -/

/-- The facts of each row that the audit reports on. -/
structure WellFormed (db : Database) : Prop where
  two_entries : ∀ t ∈ db.transactions, (db.entriesOf t.id).length = 2
  balanced : ∀ t ∈ db.transactions, db.entrySum t.id = 0
  transaction_refs : ∀ e ∈ db.ledgerEntries, e.transactionId ∈ db.transactions.map (·.id)
  account_refs : ∀ e ∈ db.ledgerEntries, e.accountId ∈ db.accounts.map (·.id)
  keys : (db.transactions.map (·.idempotencyKey)).Nodup

/-- The entries show a fault in one of the aggregates: a transaction whose entries do not cancel
out, a reference to a row that is missing, or a number of entries that is wrong in total. -/
def EntryFault (db : Database) : Prop :=
  (∃ e ∈ db.ledgerEntries, db.entrySum e.transactionId ≠ 0) ∨
    (∃ e ∈ db.ledgerEntries, e.transactionId ∉ db.transactions.map (·.id) ∨
      e.accountId ∉ db.accounts.map (·.id)) ∨
    db.ledgerEntries.length ≠ db.transactions.length * 2

instance (db : Database) : Decidable (EntryFault db) := inferInstanceAs (Decidable (_ ∨ _))

/-- The tables show a fault in one of the aggregates: one of the entries, or a key in use twice. -/
def AggregateFault (db : Database) : Prop :=
  EntryFault db ∨ ¬ (db.transactions.map (·.idempotencyKey)).Nodup

instance (db : Database) : Decidable (AggregateFault db) := inferInstanceAs (Decidable (_ ∨ _))

/-- Groups that cancel out make a total that does, so the first of the audit's sums follows from the
second. -/
theorem auditFacts_iff (db : Database) : AuditFacts db ↔ ¬ AggregateFault db := by
  unfold AggregateFault EntryFault
  push Not
  constructor
  · exact fun h => ⟨⟨h.balanced, fun e he => ⟨h.transaction_refs e he, h.account_refs e he⟩,
      h.entry_count⟩, h.keys⟩
  · rintro ⟨⟨hbalanced, hrefs, hcount⟩, hkeys⟩
    exact ⟨Grouping.sum_eq_zero (fun e : LedgerEntry => e.transactionId) hbalanced, hbalanced,
      fun e he => (hrefs e he).1, fun e he => (hrefs e he).2, hkeys, hcount⟩

/-- With right aggregates and no surplus entry every transaction has its two entries. -/
theorem AuditFacts.wellFormed (h : AuditFacts db)
    (hle : ∀ t ∈ db.transactions, (db.entriesOf t.id).length ≤ 2) : WellFormed db := by
  have hgroups := Grouping.length_group_eq (db.transactions.map (·.id)) Nat.two_pos
    h.transaction_refs (fun id hid => by
      obtain ⟨t, ht, rfl⟩ := List.mem_map.mp hid
      exact hle t ht) (by rw [List.length_map, h.entry_count])
  have htwo : ∀ t ∈ db.transactions, (db.entriesOf t.id).length = 2 := fun t ht =>
    hgroups.2 t.id (List.mem_map_of_mem ht)
  refine ⟨htwo, fun t ht => ?_, h.transaction_refs, h.account_refs, h.keys⟩
  obtain ⟨e, he⟩ := List.exists_mem_of_length_pos (by rw [htwo t ht]; exact Nat.two_pos)
  obtain ⟨hmem, hid⟩ := List.mem_filter.mp he
  rw [← of_decide_eq_true hid]
  exact h.balanced e hmem

/-- **When a pass of the audit can be trusted**: exactly when no transaction has more than two
entries, or one of the aggregates shows a fault anyway. -/
theorem audit_sound_iff (db : Database) :
    ((verifyLedger db).status = .pass → WellFormed db) ↔
      (∀ t ∈ db.transactions, (db.entriesOf t.id).length ≤ 2) ∨ AggregateFault db := by
  rw [verifyLedger_eq_pass_iff]
  constructor
  · intro h
    by_cases hfault : AggregateFault db
    · exact Or.inr hfault
    · exact Or.inl fun t ht => ((h ((auditFacts_iff db).mpr hfault)).two_entries t ht).le
  · rintro (hle | hfault) hfacts
    · exact hfacts.wellFormed hle
    · exact absurd hfault ((auditFacts_iff db).mp hfacts)

/-- Two transactions of which one has all four entries. -/
def crossedDatabase : Database where
  accounts := [⟨1, externalClearingName, true, 0⟩, ⟨2, "alice", false, 0⟩]
  transactions := [
    ⟨11, "deposit-1", .deposit, 1000, "a", none, none, some 1, none, 0⟩,
    ⟨12, "deposit-2", .deposit, 1000, "b", none, none, some 2, none, 0⟩]
  ledgerEntries := [⟨21, 11, 1, -1000⟩, ⟨22, 11, 2, 1000⟩, ⟨23, 11, 1, -1000⟩, ⟨24, 11, 2, 1000⟩]
  outboxEvents := []

/-- The audit passes tables in which one transaction has four entries and another has none. -/
theorem audit_passes_crossedDatabase :
    ¬ ((verifyLedger crossedDatabase).status = .pass → WellFormed crossedDatabase) := by
  have hpass : (verifyLedger crossedDatabase).status = .pass := by decide +kernel
  intro h
  have htwo := (h hpass).two_entries
  revert htwo
  decide +kernel

/-! ## Edits of the entries -/

/-- The database with other rows in `ledger_entries`. -/
def Database.withEntries (db : Database) (entries : List LedgerEntry) : Database :=
  { db with ledgerEntries := entries }

/-- With these entries in the table some account has another balance. -/
def ChangesBalance (db : Database) (entries : List LedgerEntry) : Prop :=
  ∃ a ∈ db.accounts, (db.withEntries entries).balance a.id ≠ db.balance a.id

instance (db : Database) (entries : List LedgerEntry) : Decidable (ChangesBalance db entries) :=
  inferInstanceAs (Decidable (∃ a ∈ db.accounts, _))

/-- One of the two verifications fails. -/
def FailsVerification (H : HexHash) (db : Database) : Prop :=
  (verifyLedger db).status = .fail ∨ (verifyHashChain H db).status = .fail

/-- The chain does not cover the entries. -/
theorem verifyHashChain_withEntries (db : Database) (entries : List LedgerEntry) :
    verifyHashChain H (db.withEntries entries) = verifyHashChain H db := rfl

/-- A table with other entries has the keys it had. -/
theorem aggregateFault_withEntries (hkeys : (db.transactions.map (·.idempotencyKey)).Nodup)
    (entries : List LedgerEntry) :
    AggregateFault (db.withEntries entries) ↔ EntryFault (db.withEntries entries) :=
  or_iff_left (not_not_intro hkeys)

/-- An edit of the entries of a reachable database is found when it leaves a fault in their
aggregates, and not otherwise. -/
theorem Reachable.edit_found_iff (h : Reachable H db) (entries : List LedgerEntry) :
    FailsVerification H (db.withEntries entries) ↔ EntryFault (db.withEntries entries) := by
  have hchain : (verifyHashChain H (db.withEntries entries)).status = .pass := by
    rw [verifyHashChain_withEntries]
    exact h.consistent.verifies.1
  have hpass := verifyLedger_eq_pass_iff (db.withEntries entries)
  rw [auditFacts_iff,
    aggregateFault_withEntries (Database.nodup_idempotencyKeys h.consistent.keys)] at hpass
  rw [FailsVerification, hchain]
  -- the chain passes either way, so the verdict is the audit's
  cases hstatus : (verifyLedger (db.withEntries entries)).status with
  | pass => exact iff_of_false (by simp) (hpass.mp hstatus)
  | fail =>
      refine iff_of_true (Or.inl rfl) ?_
      by_contra hfault
      rw [hpass.mpr hfault] at hstatus
      cases hstatus

/-- **When an edit of the entries that changes a balance is found**: exactly when it leaves a
transaction that does not cancel out, a missing reference or a wrong number of entries. -/
theorem entry_edit_found_iff (h : Reachable H db) (entries : List LedgerEntry) :
    ChangesBalance db entries →
      (FailsVerification H (db.withEntries entries) ↔ EntryFault (db.withEntries entries)) :=
  fun _ => h.edit_found_iff entries

/-- The entries of the ledger with the deposit of ten reduced to one, on both sides. -/
def reducedEntries : List LedgerEntry :=
  [⟨13, 12, 1, -100⟩, ⟨14, 12, 2, 100⟩, ⟨23, 22, 2, -750⟩, ⟨24, 22, 1, 750⟩]

/-- The entries of the ledger with the customer's side of the deposit raised to nineteen. -/
def raisedEntries : List LedgerEntry :=
  [⟨13, 12, 1, -1000⟩, ⟨14, 12, 2, 1900⟩, ⟨23, 22, 2, -750⟩, ⟨24, 22, 1, 750⟩]

/-- Of two edits that change the customer's balance, the one on one side is found, the one on both
sides is not. -/
theorem entry_edit_found_sampleLedger :
    (ChangesBalance sampleLedger raisedEntries ∧
        FailsVerification sha256 (sampleLedger.withEntries raisedEntries)) ∧
      ChangesBalance sampleLedger reducedEntries ∧
        ¬ FailsVerification sha256 (sampleLedger.withEntries reducedEntries) := by
  have hraised : ChangesBalance sampleLedger raisedEntries := by decide +kernel
  have hreduced : ChangesBalance sampleLedger reducedEntries := by decide +kernel
  refine ⟨⟨hraised, ?_⟩, hreduced, ?_⟩
  · rw [entry_edit_found_iff reachable_sampleLedger raisedEntries hraised]
    decide +kernel
  · rw [entry_edit_found_iff reachable_sampleLedger reducedEntries hreduced]
    decide +kernel

/-- **A balanced edit is missed**: the customer of a reachable ledger loses nine tenths of a
deposit, no two payloads of its chain collide, and both verifications pass. -/
theorem entry_edit_missed :
    Reachable sha256 sampleLedger ∧ sha256.CollisionFree (payloads sampleLedger.chain) ∧
      ¬ (ChangesBalance sampleLedger reducedEntries →
        FailsVerification sha256 (sampleLedger.withEntries reducedEntries)) := by
  refine ⟨reachable_sampleLedger, ?_, ?_⟩
  · refine reachable_sampleLedger.consistent.collisionFree_of_nodup ?_
    rw [sampleLedger_chain]
    decide
  · rw [reachable_sampleLedger.edit_found_iff]
    decide +kernel

end LedgerApi
