import LedgerApi.Library.Digest
import LedgerApi.Library.HashChain
import LedgerApi.Postgres

/-! # The hash chain

`app/chain.py`: how a transaction is linked to the tip of the chain, and the walk that verifies the
chain. The walk is `HashChain.Linked` on the table's digests (`verifyHashChain_eq_pass_iff`), and
the text that is hashed determines the fields in it (`chainPayload_inj`). -/

namespace LedgerApi

open Sessions HashChain

/-- `"0" * 64`. -/
def genesisHash : String := String.ofList (List.replicate 64 '0')

theorem length_genesisHash : genesisHash.length = 64 := by
  unfold genesisHash
  rw [String.length_ofList]
  exact List.length_replicate

/-- The genesis value has the form of a digest. -/
theorem isDigest_genesisHash : IsDigest genesisHash := by
  refine ⟨length_genesisHash, fun c hc => ?_⟩
  unfold genesisHash at hc
  rw [String.toList_ofList] at hc
  rw [List.eq_of_mem_replicate hc]
  decide

/-- The number of the advisory lock every writer of the chain takes. -/
def chainLockKey : ℕ := 8891274

variable (H : HexHash)

/-- The text that `compute_chain_hash` hashes. -/
def chainPayload (txn : Transaction Decimal) (prevHash : Option String) : String :=
  -- match the column precision, whatever form the amount has in memory
  let amount := txn.amount.quantize amountExp
  txn.id.str ++ "|" ++ txn.idempotencyKey ++ "|" ++ txn.type.value ++ "|" ++
    amount.str ++ "|" ++ txn.requestHash ++ "|" ++ prevHash.getD "None"

/-- The chain hash of a transaction with a given predecessor hash. -/
def computeChainHash (txn : Transaction Decimal) (prevHash : Option String) : String :=
  H.hexdigest (chainPayload txn prevHash)

/-- What a transaction is given when it is linked after `prev`. -/
def chainAfter (prev : Option (Transaction ℤ)) (txn : Transaction Decimal) : Transaction Decimal :=
  -- the first transaction follows the genesis value and gets the number one
  let prevHash := match prev with
    | some prev => prev.chainHash
    | none => some genesisHash
  let chainSeq := match prev with
    | some prev => prev.chainSeq.map (· + 1)
    | none => some 1
  { txn with chainSeq, prevHash, chainHash := some (computeChainHash H txn prevHash) }

/-- Link a transaction to the tip. `unflushed` are the entries the session has yet to flush, which
the query for the tip does. -/
def linkTransaction (unflushed : List LedgerEntry) (txn : Transaction Decimal) :
    Prog sql (Transaction Decimal) := do
  execute (.advisoryXactLock chainLockKey)
  execute (.insertLedgerEntries unflushed)
  -- the tip cannot move any more: the lock is held until the commit
  let prev ← execute .selectChainTip
  return chainAfter H prev txn

variable {H} in
/-- The number after the tip's is in no row. -/
theorem chainSeq_chainAfter_not_mem {db : Database} {txn : Transaction Decimal} {seq : ℤ}
    (h : (chainAfter H db.chain.getLast? txn).chainSeq = some seq) :
    .transactionsChainSeq seq ∉ db.uniqueKeys := by
  intro hmem
  obtain ⟨t, ht, htseq⟩ : ∃ t ∈ db.transactions, t.chainSeq = some seq := by
    simpa [Database.mem_uniqueKeys, Account.uniqueKeys, Transaction.uniqueKeys,
      LedgerEntry.uniqueKeys, OutboxEvent.uniqueKeys] using hmem
  have hchain : t ∈ db.chain := Database.mem_chain.mpr ⟨ht, by rw [htseq]; rfl⟩
  cases hlast : db.chain.getLast? with
  | none =>
      rw [List.getLast?_eq_none_iff.mp hlast] at hchain
      cases hchain
  | some last =>
      -- the row would come after the tip
      have hle := Database.chainLe_tip hchain hlast
      rw [hlast] at h
      obtain ⟨m, hm, rfl⟩ := Option.map_eq_some_iff.mp h
      rw [Transaction.ChainLe, htseq, hm] at hle
      exact absurd hle (Int.not_le.mpr (Int.lt_succ m))

/-! ## The text that is hashed -/

section Fields

variable {a a' b b' : String}

/-- Two fields joined at the separator, by characters. -/
theorem toList_join (a b : String) : (a ++ "|" ++ b).toList = a.toList ++ '|' :: b.toList := by
  rw [String.toList_append, String.toList_append, List.append_assoc]
  rfl

/-- A last field without the separator can be told from what comes before it. -/
theorem join_inj (h : a ++ "|" ++ b = a' ++ "|" ++ b') (hb : '|' ∉ b.toList)
    (hb' : '|' ∉ b'.toList) : a = a' ∧ b = b' := by
  have hchars := congrArg String.toList h
  rw [toList_join, toList_join] at hchars
  obtain ⟨ha, hb⟩ := Text.append_sep_inj hchars hb hb'
  exact ⟨String.toList_injective ha, String.toList_injective hb⟩

/-- So can one that is at least as long, even from a text that contains the separator. -/
theorem join_bounded_inj (h : a ++ "|" ++ b = a' ++ "|" ++ b') (hb : '|' ∉ b.toList)
    (hb' : b'.length ≤ b.length) : a = a' ∧ b = b' := by
  have hchars := congrArg String.toList h
  rw [toList_join, toList_join] at hchars
  obtain ⟨ha, hb⟩ := Text.append_sep_inj_of_length_le hchars hb
    (by rwa [String.length_toList, String.length_toList])
  exact ⟨String.toList_injective ha, String.toList_injective hb⟩

/-- A first field of fixed length can be told from what comes after it. -/
theorem join_uuid_inj {id id' : UUID} (h : id.str ++ "|" ++ b = id'.str ++ "|" ++ b') :
    id = id' ∧ b = b' := by
  have hchars := congrArg String.toList h
  rw [toList_join, toList_join] at hchars
  obtain ⟨hid, hb⟩ := List.append_inj hchars (id.length_str.trans id'.length_str.symm)
  exact ⟨UUID.str_inj (String.toList_injective hid), String.toList_injective (List.cons.inj hb).2⟩

end Fields

theorem bar_not_mem_quantize (amount : Decimal) :
    '|' ∉ (amount.quantize amountExp).str.toList :=
  Decimal.not_mem_str_scale_two ⟨by decide, by decide, by decide⟩ _

theorem bar_not_mem_value (type : TransactionType) : '|' ∉ type.value.toList := by
  cases type <;> decide

/-- **The fields of the hashed text**: although a key may contain the separator, they can be told
from it, if the two hashes at its end contain none and are at least as long as those they are
compared with. -/
theorem chainPayload_fields {s t : Transaction Decimal} {prev q : Option String}
    (hs : '|' ∉ s.requestHash.toList) (ht : t.requestHash.length ≤ s.requestHash.length)
    (hprev : '|' ∉ (prev.getD "None").toList)
    (hq : (q.getD "None").length ≤ (prev.getD "None").length)
    (h : chainPayload s prev = chainPayload t q) :
    s.id = t.id ∧ s.idempotencyKey = t.idempotencyKey ∧ s.type = t.type ∧
      s.amount.quantize amountExp = t.amount.quantize amountExp ∧
      s.requestHash = t.requestHash ∧ prev.getD "None" = q.getD "None" := by
  -- split off from the right, the key is what is left between the id and the type
  obtain ⟨h, hprevs⟩ := join_bounded_inj h hprev hq
  obtain ⟨h, hhash⟩ := join_bounded_inj h hs ht
  obtain ⟨h, hamount⟩ := join_inj h (bar_not_mem_quantize _) (bar_not_mem_quantize _)
  obtain ⟨h, htype⟩ := join_inj h (bar_not_mem_value _) (bar_not_mem_value _)
  obtain ⟨hid, hkey⟩ := join_uuid_inj h
  exact ⟨hid, hkey, TransactionType.value_inj htype, Decimal.str_inj hamount, hhash, hprevs⟩

theorem quantize_readAmount (cents : ℤ) :
    (readAmount cents).quantize amountExp = readAmount cents :=
  Decimal.quantize_of_exactAt (Decimal.exactAt_self _ _)

/-- A row is hashed with its amount as it is stored. -/
theorem chainPayload_load (row : Transaction ℤ) (prevHash : Option String) :
    chainPayload row.load prevHash =
      row.id.str ++ "|" ++ row.idempotencyKey ++ "|" ++ row.type.value ++ "|" ++
        (readAmount row.amount).str ++ "|" ++ row.requestHash ++ "|" ++ prevHash.getD "None" := by
  show _ ++ ((readAmount row.amount).quantize amountExp).str ++ _ ++ _ ++ _ ++ _ = _
  rw [quantize_readAmount]
  rfl

/-- **The hashed text determines its fields**, when one of the rows names its predecessor by a
digest. -/
theorem chainPayload_inj {s t : Transaction ℤ} {prev : String} {q : Option String}
    (hs : IsDigest s.requestHash) (hprev : IsDigest prev) (ht : t.requestHash.length ≤ 64)
    (hq : ∀ prev' ∈ q, prev'.length ≤ 64)
    (h : chainPayload s.load (some prev) = chainPayload t.load q) :
    s.id = t.id ∧ s.idempotencyKey = t.idempotencyKey ∧ s.type = t.type ∧ s.amount = t.amount ∧
      s.requestHash = t.requestHash ∧ some prev = q := by
  have hbar : '|' ∉ ((some prev).getD "None").toList := hprev.not_mem (by decide)
  have hlength : (q.getD "None").length ≤ ((some prev).getD "None").length := by
    rw [Option.getD_some, hprev.1]
    cases q with
    | none => decide
    | some prev' => exact hq prev' rfl
  have hs' : '|' ∉ s.load.requestHash.toList := hs.not_mem (by decide)
  have ht' : t.load.requestHash.length ≤ s.load.requestHash.length := ht.trans hs.1.ge
  obtain ⟨hid, hkey, htype, hamount, hhash, hprevs⟩ := chainPayload_fields hs' ht' hbar hlength h
  have hcents : readAmount s.amount = readAmount t.amount :=
    (quantize_readAmount _).symm.trans (hamount.trans (quantize_readAmount _))
  refine ⟨hid, hkey, htype, congrArg Decimal.coef hcents, hhash, ?_⟩
  rw [Option.getD_some] at hprevs
  cases q with
  | none =>
      -- a digest is longer than `None`
      rw [hprevs] at hprev
      exact absurd hprev.1 (by decide)
  | some prev' => rw [hprevs, Option.getD_some]

/-- **The chain payload is unambiguous**, for objects with amounts in any decimal form: equal texts
have the same fields and amounts of the same value, if both hashes of one of them are hexadecimal
and those of the other fit their columns. -/
theorem payload_unambiguous {s t : Transaction Decimal} {prev prev' : String} {cents cents' : ℤ}
    (hs : IsHexText s.requestHash) (hprev : IsHexText prev) (ht : t.requestHash.length ≤ 64)
    (hprev' : IsHexText prev') (hcents : s.amount.exactAt amountExp = some cents)
    (hcents' : t.amount.exactAt amountExp = some cents')
    (h : chainPayload s (some prev) = chainPayload t (some prev')) :
    s.id = t.id ∧ s.idempotencyKey = t.idempotencyKey ∧ s.type = t.type ∧
      s.amount.NumEq t.amount ∧ s.requestHash = t.requestHash ∧ prev = prev' := by
  have hbar : '|' ∉ ((some prev).getD "None").toList := hprev.not_mem (by decide)
  have hlength : ((some prev').getD "None").length ≤ ((some prev).getD "None").length :=
    (hprev'.1.trans hprev.1.symm).le
  obtain ⟨hid, hkey, htype, hamount, hhash, hprevs⟩ := chainPayload_fields
    (hs.not_mem (by decide)) (ht.trans hs.1.ge) hbar hlength h
  -- both amounts are hashed in cents, of which they are whole numbers
  rw [Decimal.quantize_of_exactAt hcents, Decimal.quantize_of_exactAt hcents',
    Decimal.mk.injEq] at hamount
  exact ⟨hid, hkey, htype, (Decimal.numEq_iff_of_exactAt hcents hcents').mpr hamount.1, hhash,
    hprevs⟩

/-- A deposit of `1E+1` with separators in its key. -/
def separatedDeposit : Transaction Decimal :=
  ⟨7, "deposit-1|deposit|10.00", .deposit, ⟨1, 1⟩, genesisHash, none, none, none, none, 0⟩

/-- It is hashed like the row it is flushed to, whose amount reads `10.00`. -/
theorem payload_unambiguous_separatedDeposit :
    separatedDeposit.amount ≠ separatedDeposit.flush.load.amount ∧
      separatedDeposit.amount.NumEq separatedDeposit.flush.load.amount := by
  have hgenesis : IsHexText genesisHash := isDigest_genesisHash.isHexText
  have hpayload : chainPayload separatedDeposit (some genesisHash) =
      chainPayload separatedDeposit.flush.load (some genesisHash) := by decide +kernel
  obtain ⟨-, -, -, hamount, -, -⟩ := @payload_unambiguous separatedDeposit
    separatedDeposit.flush.load genesisHash genesisHash 1000 1000 hgenesis hgenesis
    length_genesisHash.le hgenesis rfl rfl hpayload
  exact ⟨by decide, hamount⟩

/-- The texts hashed for the rows of a chain. -/
def payloads (rows : List (Transaction ℤ)) : List String :=
  rows.map fun row => chainPayload row.load row.prevHash

/-! ## Verification -/

/-- The outcome of a verification. -/
inductive Status
  | pass
  | fail
  deriving DecidableEq, Repr

/-- An entry of `broken_links`. -/
inductive BrokenLink
  /-- The row names another predecessor than the row before it. -/
  | prevMismatch (transactionId : String) (expectedPrev actualPrev : Option String)
  /-- The stored hash is not the recomputed one. -/
  | tampered (transactionId : String) (storedHash : Option String) (recomputedHash : String)
  deriving DecidableEq, Repr

/-- The result of `verify_hash_chain`. -/
structure ChainReport where
  status : Status
  chainLength : ℕ
  message : Option String
  brokenLinks : Option (List BrokenLink)
  deriving DecidableEq, Repr

/-- The broken links among rows read in chain order, after a row with hash `expectedPrev`. -/
def brokenLinks : Option String → List (Transaction ℤ) → List BrokenLink
  | _, [] => []
  | expectedPrev, txn :: transactions =>
      -- a row can be broken in both ways, and the walk goes on from the hash it stores
      let recomputed := computeChainHash H txn.load txn.prevHash
      (if txn.prevHash ≠ expectedPrev then
        [BrokenLink.prevMismatch txn.id.str expectedPrev txn.prevHash] else []) ++
      (if some recomputed ≠ txn.chainHash then
        [BrokenLink.tampered txn.id.str txn.chainHash recomputed] else []) ++
      brokenLinks txn.chainHash transactions

/-- `verify_hash_chain`. -/
def verifyHashChain (db : Database) : ChainReport :=
  let transactions := db.chain
  if transactions = [] then ⟨.pass, 0, some "No chained transactions found", none⟩
  else
    let broken := brokenLinks H (some genesisHash) transactions
    ⟨if broken = [] then .pass else .fail, transactions.length, none, some broken⟩

/-- The digests of the rows of `transactions`. -/
def chainScheme : Scheme (Transaction ℤ) (Option String) where
  prev row := row.prevHash
  stored row := row.chainHash
  rehash row := some (computeChainHash H row.load row.prevHash)

/-- No link is broken exactly when the rows are linked. -/
theorem brokenLinks_eq_nil_iff (expectedPrev : Option String) (rows : List (Transaction ℤ)) :
    brokenLinks H expectedPrev rows = [] ↔ Linked (chainScheme H) expectedPrev rows := by
  induction rows generalizing expectedPrev with
  | nil => exact iff_of_true rfl trivial
  | cons row rows ih =>
      rw [brokenLinks, linked_cons, List.append_eq_nil_iff, List.append_eq_nil_iff, ih, and_assoc]
      simp [chainScheme]

/-- **The verifier passes exactly on linked chains.** -/
theorem verifyHashChain_eq_pass_iff (db : Database) :
    (verifyHashChain H db).status = .pass ↔ Linked (chainScheme H) (some genesisHash) db.chain := by
  unfold verifyHashChain
  by_cases hnil : db.chain = []
  · simp [hnil]
  · rw [if_neg hnil, ← brokenLinks_eq_nil_iff]
    dsimp only
    split <;> simp_all

end LedgerApi
