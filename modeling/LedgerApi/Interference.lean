import LedgerApi.History
import LedgerApi.Library.LockOrder

/-! # The contract of the write path

What the sessions of the ledger count on while others commit. Another session's commit appends rows
(`Interference`): none with a unique key that is locked here, no entry on an account whose row is
locked here, no transaction while the chain lock is held here. So each fact a session has read stays
true under the lock that protects it:

* a key it has added is new (`Owned`), under the index lock;
* a balance it has summed (`balance_view`), under the row lock of the account;
* the tip it has linked to (`chain_view_of_lock`), under the chain lock.

An account or a transaction that was found stays found, since nothing is ever removed. The lookup of
the idempotency key alone is protected by nothing. Where `serial` is set, the contract asks of every
commit that no other running session has looked up its key in vain; then that lookup stays true too.

`lockOrder` is the order in which the write path takes its locks. -/

namespace LedgerApi

open Sessions

/-- A rank above those of the account rows. -/
def lastRank : ℕ := 3 + 2 ^ 128

/-- The order of the locks: clearing lock, the clearing account's keys, account rows by id, the
transaction's keys, chain lock. What is locked under the chain lock needs no order, as nobody else
locks such things meanwhile. -/
def lockOrder : LockOrder Resource where
  rank
    | .advisory key => if key = clearingLockKey then 0 else lastRank + 2
    | .index (.accountsPkey _) => 1
    | .index (.accountsName _) => 2
    | .accountRow id => 3 + id.val
    | .index (.transactionsPkey _) => lastRank
    | .index (.transactionsIdempotencyKey _) => lastRank + 1
    | _ => lastRank + 3
  -- what is inserted or updated under the chain lock
  guard
    | .transactionRow _ => some (.advisory chainLockKey)
    | .index (.transactionsChainSeq _) => some (.advisory chainLockKey)
    | .index (.ledgerEntriesPkey _) => some (.advisory chainLockKey)
    | .index (.outboxEventsPkey _) => some (.advisory chainLockKey)
    | _ => none

theorem three_lt_lastRank : 3 < lastRank := by decide

theorem rank_accountRow_lt (id : UUID) : lockOrder.rank (.accountRow id) < lastRank :=
  Nat.add_lt_add_left id.isLt 3

/-- Writes that other sessions may commit beside a session with writes `p` and locks `L`. -/
structure Interference (serial : Bool) (p : Writes) (L : List (Lock Resource)) (w : Writes) :
    Prop where
  /-- Rows are only added. -/
  published : w.published = []
  rechained : w.rechained = []
  /-- Locked keys are not added. -/
  keys : ∀ k ∈ w.rows.uniqueKeys, Lock.excl (.index k) ∉ L
  /-- Locked accounts get no entries. -/
  entries : ∀ e ∈ w.ledgerEntries, Lock.excl (.accountRow e.accountId) ∉ L
  /-- Under the chain lock there are no new transactions. -/
  chain : Lock.excl (.advisory chainLockKey) ∈ L → w.transactions = []
  /-- Keys that were looked up in vain are not added. -/
  missed : serial = true → ∀ t ∈ w.transactions, t.idempotencyKey ∉ p.missed

/-- The contract, for an invariant of the shared state. -/
def ledgerContract (inv : Shared sql Database Call → Prop) (serial : Bool) :
    Contract sql Database Writes Resource Call where
  inv := inv
  rely p L g g' := ∃ w, Interference serial p L w ∧ g'.store = g.store.view w
  beside p q := serial = true → ∀ t ∈ p.transactions, t.idempotencyKey ∉ q.missed
  ready L stmt := lockOrder.Ordered L stmt.footprint

/-- Assertions about the sessions of the ledger. -/
abbrev LedgerAssn := Assn sql Database Writes Resource Call

/-- A session has changed no committed row of the ledger, and the keys of its own rows are distinct,
locked and new. -/
structure Owned (g : Shared sql Database Call) (p : Writes) (L : List (Lock Resource)) : Prop where
  rechained : p.rechained = []
  nodup : p.rows.uniqueKeys.Nodup
  locked : ∀ k ∈ p.rows.uniqueKeys, Lock.excl (.index k) ∈ L
  absent : ∀ k ∈ p.rows.uniqueKeys, k ∉ g.store.uniqueKeys

section Views

variable {serial : Bool} {p w : Writes} {L : List (Lock Resource)} {db : Database}

/-- A locked key that is not there does not appear. -/
theorem Interference.not_mem_view (h : Interference serial p L w) {k : UniqueKey}
    (hlock : Lock.excl (.index k) ∈ L) (hk : k ∉ db.uniqueKeys) : k ∉ (db.view w).uniqueKeys := by
  rw [Database.mem_uniqueKeys_view h.rechained, not_or]
  exact ⟨hk, fun hmem => h.keys k hmem hlock⟩

/-- The entries of an account whose row is locked stay as they are. -/
theorem Interference.amounts_view (h : Interference serial p L w) {id : UUID}
    (hlock : Lock.excl (.accountRow id) ∈ L) : (db.view w).amounts id = db.amounts id := by
  have hnone : w.ledgerEntries.filter (·.accountId = id) = [] := by
    refine List.filter_eq_nil_iff.mpr fun e he heq => h.entries e he ?_
    rwa [of_decide_eq_true heq]
  rw [Database.amounts, Database.view_ledgerEntries, List.filter_append, hnone, List.append_nil,
    Database.amounts]

/-- The balance of an account whose row is locked stays as it is. -/
theorem Interference.balance_view (h : Interference serial p L w) {id : UUID}
    (hlock : Lock.excl (.accountRow id) ∈ L) : (db.view w).balance id = db.balance id := by
  rw [Database.balance, h.amounts_view hlock, Database.balance]

/-- Under the chain lock the chain stays as it is. -/
theorem Interference.chain_view (h : Interference serial p L w)
    (hlock : Lock.excl (.advisory chainLockKey) ∈ L) : (db.view w).chain = db.chain :=
  Database.chain_view h.rechained (by simp [h.chain hlock])

/-- A lookup of a key in vain stays in vain, when keys are not added beside such a lookup. -/
theorem Interference.transactionByKey_view (h : Interference serial p L w) (hserial : serial = true)
    {key : String} (hmissed : key ∈ p.missed) (hnone : db.transactionByKey key = none) :
    (db.view w).transactionByKey key = none := by
  rw [Database.transactionByKey, Database.view_transactions h.rechained, List.find?_append,
    ← Database.transactionByKey, hnone]
  refine List.find?_eq_none.mpr fun t ht heq => h.missed hserial t ht ?_
  rwa [of_decide_eq_true heq]

/-- The accounts a request posts to stay the same, once the clearing account is found or its name
locked. -/
theorem Interference.clearing_view (h : Interference serial p L w)
    (hlock : db.accountByName externalClearingName = none →
      Lock.excl (.index (.accountsName externalClearingName)) ∈ L) :
    (db.view w).accountByName externalClearingName = db.accountByName externalClearingName := by
  cases hfound : db.accountByName externalClearingName with
  -- found, and nothing is ever removed
  | some account => exact Database.accountByName_view hfound
  -- not found, and its name is locked
  | none =>
      rw [Database.accountByName_eq_none_iff] at hfound ⊢
      exact h.not_mem_view (hlock (Database.accountByName_eq_none_iff.mpr hfound)) hfound

end Views

section Stability

variable {inv : Shared sql Database Call → Prop} {serial : Bool}

theorem stable_owned : (ledgerContract inv serial).Stable Owned := by
  rintro g g' p L - - ⟨w, hw, hstore⟩ ⟨hrechained, hnodup, hlocked, habsent⟩
  refine ⟨hrechained, hnodup, hlocked, fun k hk => ?_⟩
  rw [hstore]
  exact hw.not_mem_view (hlocked k hk) (habsent k hk)

/-- A commit of owned rows, made under the chain lock and the row locks of its entries, is an
interference that every other session allows. -/
theorem Owned.interference {g : Shared sql Database Call} {p p' : Writes}
    {L L' : List (Lock Resource)} (h : Owned g p L) (hpublished : p.published = [])
    (hentries : ∀ e ∈ p.ledgerEntries, Lock.excl (.accountRow e.accountId) ∈ L)
    (hchain : p.transactions ≠ [] → Lock.excl (.advisory chainLockKey) ∈ L)
    (hbeside : serial = true → ∀ t ∈ p.transactions, t.idempotencyKey ∉ p'.missed)
    (hcompat : Compatible L L') : Interference serial p' L' p where
  published := hpublished
  rechained := h.rechained
  keys k hk := hcompat.not_mem (h.locked k hk) rfl
  entries e he := hcompat.not_mem (hentries e he) rfl
  chain hlock := by
    by_contra hne
    exact hcompat.not_mem (hchain hne) rfl hlock
  missed := hbeside

end Stability

end LedgerApi
