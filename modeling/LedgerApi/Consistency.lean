import LedgerApi.Library.Grouping
import LedgerApi.Runs

/-! # Consistent databases

The invariant of the tables (`Consistent`): distinct keys, transactions numbered and linked in the
order in which they were inserted, two opposite entries for each of them, references that resolve
and accounts that are not overdrawn. Every commit keeps it (`Consistent.commit`), so every reachable
database is consistent (`Reachable.consistent`). -/

namespace LedgerApi

open Sessions HashChain

/-! ## Distinct keys -/

/-- Rows that have a key each, with all keys distinct, have distinct values of the key's column. -/
theorem nodup_map_of_flatMap {Row Column Key : Type*} {rows : List Row} {keys : Row → List Key}
    (column : Row → Column) (key : Column → Key) (hkey : ∀ row, key (column row) ∈ keys row)
    (h : (rows.flatMap keys).Nodup) : (rows.map column).Nodup := by
  refine List.pairwise_map.mpr ((List.nodup_flatMap.mp h).2.imp fun {a b} hdisj heq => ?_)
  exact List.disjoint_left.mp hdisj (hkey a) (heq ▸ hkey b)

namespace Database

variable {db : Database} (h : db.uniqueKeys.Nodup)
include h

theorem nodup_flatMap_uniqueKeys :
    (db.accounts.flatMap Account.uniqueKeys).Nodup ∧
      (db.transactions.flatMap Transaction.uniqueKeys).Nodup := by
  rw [uniqueKeys, List.nodup_append] at h
  obtain ⟨h, -, -⟩ := h
  rw [List.nodup_append] at h
  obtain ⟨h, -, -⟩ := h
  rw [List.nodup_append] at h
  exact ⟨h.1, h.2.1⟩

theorem nodup_accountIds : (db.accounts.map (·.id)).Nodup :=
  nodup_map_of_flatMap _ .accountsPkey (fun a => by simp [Account.uniqueKeys])
    (nodup_flatMap_uniqueKeys h).1

theorem nodup_accountNames : (db.accounts.map (·.name)).Nodup :=
  nodup_map_of_flatMap _ .accountsName (fun a => by simp [Account.uniqueKeys])
    (nodup_flatMap_uniqueKeys h).1

theorem nodup_transactionIds : (db.transactions.map (·.id)).Nodup :=
  nodup_map_of_flatMap _ .transactionsPkey (fun t => by simp [Transaction.uniqueKeys])
    (nodup_flatMap_uniqueKeys h).2

theorem nodup_idempotencyKeys : (db.transactions.map (·.idempotencyKey)).Nodup :=
  nodup_map_of_flatMap _ .transactionsIdempotencyKey (fun t => by simp [Transaction.uniqueKeys])
    (nodup_flatMap_uniqueKeys h).2

theorem nodup_entryIds : (db.ledgerEntries.map (·.id)).Nodup :=
  nodup_map_of_flatMap _ .ledgerEntriesPkey (fun e => by simp [LedgerEntry.uniqueKeys])
    (List.nodup_append.mp (List.nodup_append.mp h).1).2.1

theorem nodup_eventIds : (db.outboxEvents.map (·.id)).Nodup :=
  nodup_map_of_flatMap _ .outboxEventsPkey (fun e => by simp [OutboxEvent.uniqueKeys])
    (List.nodup_append.mp h).2.1

/-- An account is found by its id. -/
theorem accountById_of_mem {a : Account} (ha : a ∈ db.accounts) : db.accountById a.id = some a :=
  Grouping.find?_eq_some (nodup_accountIds h) ha

/-- And by its name. -/
theorem accountByName_of_mem {a : Account} (ha : a ∈ db.accounts) :
    db.accountByName a.name = some a :=
  Grouping.find?_eq_some (nodup_accountNames h) ha

end Database

/-! ## Numbered chains -/

/-- The rows are numbered from one. -/
def Numbered (rows : List (Transaction ℤ)) : Prop :=
  rows.map (·.chainSeq) = (List.range rows.length).map fun i : ℕ => some ((i : ℤ) + 1)

/-- A numbered row has its number. -/
theorem Numbered.exists_eq {rows : List (Transaction ℤ)} (h : Numbered rows) {t : Transaction ℤ}
    (ht : t ∈ rows) : ∃ i : ℕ, t.chainSeq = some ((i : ℤ) + 1) := by
  have hmem : t.chainSeq ∈ rows.map (·.chainSeq) := List.mem_map_of_mem ht
  rw [h] at hmem
  obtain ⟨i, -, hi⟩ := List.mem_map.mp hmem
  exact ⟨i, hi.symm⟩

/-- Numbered rows are in the order of the chain. -/
theorem Numbered.pairwise {rows : List (Transaction ℤ)} (h : Numbered rows) :
    rows.Pairwise Transaction.ChainLe := by
  have hmap : (rows.map (·.chainSeq)).Pairwise fun a b => a.getD 0 ≤ b.getD 0 := by
    rw [h, List.pairwise_map]
    refine List.pairwise_lt_range.imp fun {i j} hij => ?_
    simp only [Option.getD_some]
    omega
  exact (List.pairwise_map.mp hmap).imp fun {a b} hab => hab

/-- No two of them have one number. -/
theorem Numbered.nodup {rows : List (Transaction ℤ)} (h : Numbered rows) :
    (rows.map (·.chainSeq)).Nodup := by
  rw [h]
  refine List.nodup_range.map fun i j hij => ?_
  have hsucc := Option.some.inj hij
  omega

/-- One row more. -/
theorem Numbered.append_singleton {rows : List (Transaction ℤ)} (h : Numbered rows)
    {t : Transaction ℤ} (ht : t.chainSeq = some ((rows.length : ℤ) + 1)) :
    Numbered (rows ++ [t]) := by
  rw [Numbered, List.length_append, List.length_singleton, List.map_append, List.range_succ,
    List.map_append, h, List.map_singleton, List.map_singleton, ht]

/-- **The chain of a table** whose rows can be numbered, wherever they stand in it. -/
theorem Database.chain_eq_of_perm {db : Database} {rows : List (Transaction ℤ)}
    (hperm : db.transactions.Perm rows) (h : Numbered rows) : db.chain = rows := by
  have hsome : ∀ t ∈ db.transactions, t.chainSeq.isSome = true := by
    intro t ht
    obtain ⟨i, hi⟩ := h.exists_eq (hperm.mem_iff.mp ht)
    rw [hi]
    rfl
  have hchain : db.chain.Perm rows := by
    rw [Database.chain, List.filter_eq_self.mpr hsome]
    exact (List.perm_insertionSort _ _).trans hperm
  refine List.Perm.eq_of_pairwise ?_ (List.pairwise_insertionSort Transaction.ChainLe _)
    h.pairwise hchain
  intro s t hs ht hst hts
  -- rows that come neither before nor after each other have one number
  have hs' := hchain.mem_iff.mp hs
  obtain ⟨i, hi⟩ := h.exists_eq hs'
  obtain ⟨j, hj⟩ := h.exists_eq ht
  refine List.inj_on_of_nodup_map h.nodup hs' ht ?_
  rw [Transaction.ChainLe, hi, hj, Option.getD_some, Option.getD_some] at hst hts
  rw [hi, hj, Int.le_antisymm hst hts]

/-- The chain of a ledger: all its transactions, numbered and linked. -/
structure ChainSound (H : HexHash) (db : Database) : Prop where
  complete : db.transactions.Perm db.chain
  numbered : Numbered db.chain
  linked : Linked (chainScheme H) (some genesisHash) db.chain

/-! ## The invariant -/

/-- The entries of a transaction. -/
def Database.entriesOf (db : Database) (transactionId : UUID) : List LedgerEntry :=
  db.ledgerEntries.filter (·.transactionId = transactionId)

/-- The tables of a ledger. -/
structure Consistent (H : HexHash) (db : Database) : Prop where
  keys : db.uniqueKeys.Nodup
  /-- Transactions are numbered from one. -/
  chain_seq : db.transactions.map (·.chainSeq) =
    (List.range db.transactions.length).map fun i : ℕ => some ((i : ℤ) + 1)
  linked : Linked (chainScheme H) (some genesisHash) db.transactions
  request_hash : ∀ t ∈ db.transactions, ∃ text, t.requestHash = H.hexdigest text
  amount_pos : ∀ t ∈ db.transactions, 0 < t.amount
  /-- A transaction has its debit and its credit. -/
  entries : ∀ t ∈ db.transactions, (db.entriesOf t.id).map (·.amount) = [-t.amount, t.amount]
  transaction_refs : ∀ e ∈ db.ledgerEntries, e.transactionId ∈ db.transactions.map (·.id)
  account_refs : ∀ e ∈ db.ledgerEntries, e.accountId ∈ db.accounts.map (·.id)
  /-- No account but the clearing account is overdrawn. -/
  funds : ∀ a ∈ db.accounts, a.name ≠ externalClearingName → 0 ≤ db.balance a.id

variable {H : HexHash} {db : Database} {data : TransactionCreate} {gen : Generated} {post : Posting}
  {call : Call} {w : Writes}

/-- Before the first transaction there is nothing to be inconsistent. -/
theorem Initial.consistent (h : Initial db) : Consistent H db := by
  have hbalance : ∀ id, db.balance id = 0 := fun id => by
    rw [Database.balance, Database.amounts, h.ledgerEntries]
    rfl
  refine ⟨?_, ?_, ?_, ?_, ?_, ?_, ?_, ?_, fun a _ _ => (hbalance a.id).ge⟩
  · rw [Database.uniqueKeys, h.transactions, h.ledgerEntries, h.outboxEvents]
    simp only [List.flatMap_nil, List.append_nil]
    -- accounts alone: their ids and their names are distinct
    refine List.nodup_flatMap.mpr ⟨fun a _ => by simp [Account.uniqueKeys], ?_⟩
    refine ((List.pairwise_map.mp h.nodup_ids).and (List.pairwise_map.mp h.nodup_names)).imp ?_
    rintro a b ⟨hid, hname⟩
    simp [Function.onFun, List.disjoint_left, Account.uniqueKeys, hid, hname]
  all_goals simp [h.transactions, h.ledgerEntries]

/-! ## The chain of a consistent database -/

section Chain

variable (h : Consistent H db)
include h

/-- In a consistent database the chain is the table. -/
theorem Consistent.chain_eq : db.chain = db.transactions :=
  Database.chain_eq_of_perm (List.Perm.refl _) h.chain_seq

theorem Consistent.chainSound : ChainSound H db :=
  ⟨h.chain_eq ▸ List.Perm.refl _, h.chain_eq ▸ h.chain_seq, h.chain_eq ▸ h.linked⟩

end Chain

/-- The number and the digest at the end of the chain. -/
theorem ChainSound.tip_eq (h : ChainSound H db) {prev : Transaction ℤ}
    (hprev : db.chain.getLast? = some prev) :
    prev.chainSeq = some (db.transactions.length : ℤ) ∧
      tip (chainScheme H) (some genesisHash) db.chain = prev.chainHash := by
  obtain ⟨rows, hrows⟩ := List.getLast?_eq_some_iff.mp hprev
  have hseq := h.numbered
  rw [Numbered, hrows, List.map_append, List.length_append, List.length_singleton,
    List.range_succ, List.map_append] at hseq
  have hlast := (List.append_inj' hseq rfl).2
  rw [h.complete.length_eq, hrows, tip_append_singleton, List.length_append]
  refine ⟨?_, rfl⟩
  simpa using hlast

/-- A posted row gets the next number and names the tip. -/
theorem ChainSound.postedRow_eq (h : ChainSound H db) (data : TransactionCreate)
    (gen : Generated) :
    (postedRow H db data gen).chainSeq = some (db.transactions.length + 1 : ℤ) ∧
      (postedRow H db data gen).prevHash = tip (chainScheme H) (some genesisHash) db.chain := by
  show (linkedTransaction H db data gen).chainSeq = _ ∧
    (linkedTransaction H db data gen).prevHash = _
  unfold linkedTransaction
  cases hprev : db.chain.getLast? with
  -- the first transaction: an empty chain ends with the genesis value
  | none =>
      have hnil : db.chain = [] := List.getLast?_eq_none_iff.mp hprev
      have hlength : db.transactions.length = 0 := by
        rw [h.complete.length_eq, hnil, List.length_nil]
      rw [hnil, hlength]
      exact ⟨rfl, rfl⟩
  | some prev =>
      obtain ⟨hseq, htip⟩ := h.tip_eq hprev
      rw [htip]
      refine ⟨?_, rfl⟩
      show prev.chainSeq.map (· + 1) = _
      rw [hseq]
      rfl

/-- The hash of a posted row is the one its stored columns give: the amount reads back as it was
hashed. -/
theorem rehash_postedRow (H : HexHash) (db : Database) (data : TransactionCreate)
    (gen : Generated) :
    (chainScheme H).rehash (postedRow H db data gen) =
      (chainScheme H).stored (postedRow H db data gen) := by
  -- read back in cents, the amount is normalised to what was hashed
  have hamount : (postedRow H db data gen).load.amount.quantize amountExp =
      data.amount.quantize amountExp := by
    show (readAmount (data.amount.toScale 2)).quantize amountExp = _
    rw [data.toScale_amount, quantize_readAmount, data.quantize_amount]
  have hpayload : chainPayload (postedRow H db data gen).load (postedRow H db data gen).prevHash =
      chainPayload (newTransaction H data gen) (linkedTransaction H db data gen).prevHash := by
    simp only [chainPayload, hamount]
    rfl
  show some (computeChainHash H _ _) = some (computeChainHash H _ _)
  rw [computeChainHash, hpayload]
  rfl

/-- Rows that can be numbered and linked make a sound chain. -/
theorem ChainSound.of_perm (rows : List (Transaction ℤ)) (hperm : db.transactions.Perm rows)
    (hnumbered : Numbered rows) (hlinked : Linked (chainScheme H) (some genesisHash) rows) :
    ChainSound H db := by
  have hchain := Database.chain_eq_of_perm hperm hnumbered
  exact ⟨hchain ▸ hperm, hchain ▸ hnumbered, hchain ▸ hlinked⟩

/-- **A posted row continues the chain.** -/
theorem ChainSound.append (h : ChainSound H db) {data : TransactionCreate} {gen : Generated}
    (hrechained : w.rechained = []) (hw : w.transactions = [postedRow H db data gen]) :
    ChainSound H (db.view w) := by
  obtain ⟨hseq, hprev⟩ := h.postedRow_eq data gen
  refine .of_perm (db.chain ++ [postedRow H db data gen]) ?_ ?_ ?_
  · rw [Database.view_transactions hrechained, hw]
    exact h.complete.append_right _
  · refine h.numbered.append_singleton ?_
    rw [hseq, h.complete.length_eq]
  · exact h.linked.append_singleton hprev (rehash_postedRow H db data gen)

/-! ## What a posting changes -/

/-- A commit adds its own entries to a balance. -/
theorem Database.balance_view (db : Database) (w : Writes) (id : UUID) :
    (db.view w).balance id =
      db.balance id + ((w.ledgerEntries.filter (·.accountId = id)).map (·.amount)).sum := by
  rw [balance, amounts, view_ledgerEntries, List.filter_append, List.map_append, List.sum_append,
    balance, amounts]

/-- A posting takes its amount from one account and gives it to one. -/
theorem balance_posting (id : UUID) :
    (db.view (postingWrites H db data gen post)).balance id =
      db.balance id + (if post.debit = id then -data.cents else 0) +
        (if post.credit = id then data.cents else 0) := by
  rw [Database.balance_view]
  simp only [postingWrites, newEntries, data.toScale_amount, data.toScale_neg_amount]
  by_cases hd : post.debit = id <;> by_cases hc : post.credit = id <;>
    simp [hd, hc, add_assoc]

/-- Entries keep their transaction. -/
theorem Database.entriesOf_view (db : Database) (w : Writes) (id : UUID) :
    (db.view w).entriesOf id = db.entriesOf id ++ w.ledgerEntries.filter (·.transactionId = id) :=
  List.filter_append ..

/-- The clearing account of a request is an account after it. -/
theorem Database.clearingAccount_mem (db : Database) (gen : Generated) :
    db.clearingAccount gen ∈ db.accounts ++ db.openedAccounts gen ∧
      (db.clearingAccount gen).name = externalClearingName := by
  unfold clearingAccount openedAccounts
  cases hfound : db.accountByName externalClearingName with
  | none => exact ⟨List.mem_append_right _ (List.mem_singleton_self _), rfl⟩
  | some account =>
      exact ⟨List.mem_append_left _ (List.mem_of_find?_eq_some hfound),
        by simpa using List.find?_some hfound⟩

/-- A deposit is paid by the clearing account. -/
theorem posting_deposit (h : db.posting data gen = some post) (htype : data.type = .deposit) :
    post.debit = (db.clearingAccount gen).id ∧ post.opened = db.openedAccounts gen := by
  cases posts_of_posting h with
  | deposit => exact ⟨rfl, rfl⟩
  | withdrawal hcase => rw [hcase] at htype; cases htype
  | transfer hcase => rw [hcase] at htype; cases htype

/-- The only account that a request opens is the clearing account. -/
theorem Settles.customer_mem (hs : Settles H db data gen post) {a : Account}
    (ha : a ∈ db.accounts ++ post.opened) (hname : a.name ≠ externalClearingName) :
    a ∈ db.accounts := by
  rcases List.mem_append.mp ha with ha | ha
  · exact ha
  · rcases opened_of_posting hs.posting with hnil | ⟨hopened, -⟩
    · rw [hnil] at ha
      cases ha
    · rw [hopened, List.mem_singleton] at ha
      exact absurd (ha ▸ rfl) hname

/-! ## Commits keep the invariant -/

section Posting

variable (h : Consistent H db) (hs : Settles H db data gen post)
include h hs

/-- The transaction of a posting is new, and so no entry refers to it yet. -/
theorem Consistent.entriesOf_posting (id : UUID) :
    (db.view (postingWrites H db data gen post)).entriesOf id =
      if gen.transactionId = id then newEntries data gen post.debit post.credit
      else db.entriesOf id := by
  rw [Database.entriesOf_view]
  by_cases hid : gen.transactionId = id
  · -- an entry that was there refers to a transaction that was there
    have hnone : db.entriesOf id = [] := List.filter_eq_nil_iff.mpr fun e he heq =>
      hs.transactionId_not_mem (hid ▸ of_decide_eq_true heq ▸ h.transaction_refs e he)
    rw [hnone, if_pos hid, List.nil_append]
    simp [postingWrites, newEntries, hid]
  · rw [if_neg hid]
    simp [postingWrites, newEntries, hid]

/-- The transactions there were keep their entries. -/
theorem Consistent.entriesOf_posting_of_mem {t : Transaction ℤ} (ht : t ∈ db.transactions) :
    (db.view (postingWrites H db data gen post)).entriesOf t.id = db.entriesOf t.id := by
  rw [h.entriesOf_posting hs]
  refine if_neg fun hid => hs.transactionId_not_mem ?_
  rw [hid]
  exact List.mem_map_of_mem ht

/-- No account but the clearing account is overdrawn by a posting. -/
theorem Consistent.funds_posting {a : Account}
    (ha : a ∈ (db.view (postingWrites H db data gen post)).accounts)
    (hname : a.name ≠ externalClearingName) :
    0 ≤ (db.view (postingWrites H db data gen post)).balance a.id := by
  have hold := hs.customer_mem ha hname
  have hbalance := h.funds a hold hname
  rw [balance_posting]
  have hcredit : 0 ≤ if post.credit = a.id then data.cents else 0 := by
    split
    · exact data.cents_pos.le
    · exact le_refl 0
  by_cases hdebit : post.debit = a.id
  · have hfunds : data.cents ≤ db.balance post.debit := by
      refine hs.cents_le fun htype => hname ?_
      -- a deposit is paid by the clearing account, so `a` would be it
      obtain ⟨hid, hopened⟩ := posting_deposit hs.posting htype
      obtain ⟨hmem, hclearing⟩ := db.clearingAccount_mem gen
      have hnodup := Database.nodup_accountIds (hs.fresh.nodup_view h.keys)
      rw [← hopened] at hmem
      have heq := List.inj_on_of_nodup_map hnodup ha hmem (hdebit.symm.trans hid)
      rw [heq, hclearing]
    rw [if_pos hdebit]
    rw [hdebit] at hfunds
    omega
  · rw [if_neg hdebit]
    omega

/-- **A posting keeps the invariant.** -/
theorem Consistent.posting : Consistent H (db.view (postingWrites H db data gen post)) := by
  obtain ⟨hseq, hprev⟩ := h.chainSound.postedRow_eq data gen
  rw [h.chain_eq] at hprev
  have hamount : (postedRow H db data gen).amount = data.cents := data.toScale_amount
  have hid : (postedRow H db data gen).id = gen.transactionId := rfl
  have htransactions : (db.view (postingWrites H db data gen post)).transactions =
      db.transactions ++ [postedRow H db data gen] := rfl
  refine ⟨hs.fresh.nodup_view h.keys, ?_, ?_, ?_, ?_, ?_, ?_, ?_, fun a => h.funds_posting hs⟩
  · exact Numbered.append_singleton h.chain_seq hseq
  · -- the new row names the tip and stores its own digest
    exact h.linked.append_singleton hprev (rehash_postedRow H db data gen)
  · intro t ht
    rcases List.mem_append.mp ht with ht | ht
    · exact h.request_hash t ht
    · rw [List.mem_singleton.mp ht]
      exact ⟨canonicalRequest data, rfl⟩
  · intro t ht
    rcases List.mem_append.mp ht with ht | ht
    · exact h.amount_pos t ht
    · rw [List.mem_singleton.mp ht, hamount]
      exact data.cents_pos
  · intro t ht
    rcases List.mem_append.mp ht with ht | ht
    · rw [h.entriesOf_posting_of_mem hs ht]
      exact h.entries t ht
    · rw [List.mem_singleton.mp ht, hid, h.entriesOf_posting hs, if_pos rfl, hamount]
      simp [newEntries, data.toScale_amount, data.toScale_neg_amount]
  · intro e he
    rw [htransactions, List.map_append]
    rcases List.mem_append.mp he with he | he
    · exact List.mem_append_left _ (h.transaction_refs e he)
    · refine List.mem_append_right _ ?_
      simp only [postingWrites, newEntries, List.mem_cons, List.not_mem_nil, or_false] at he
      rcases he with rfl | rfl <;> exact List.mem_singleton_self _
  · intro e he
    rcases List.mem_append.mp he with he | he
    · rw [Database.view_accounts, List.map_append]
      exact List.mem_append_left _ (h.account_refs e he)
    · simp only [postingWrites, newEntries, List.mem_cons, List.not_mem_nil, or_false] at he
      rcases he with rfl | rfl
      · exact hs.debit_mem
      · exact hs.credit_mem

end Posting

/-- An account that does not exist has no balance. -/
theorem Consistent.balance_eq_zero (h : Consistent H db) {id : UUID}
    (hid : id ∉ db.accounts.map (·.id)) : db.balance id = 0 := by
  have hnone : db.amounts id = [] := by
    rw [Database.amounts, List.map_eq_nil_iff, List.filter_eq_nil_iff]
    exact fun e he heq => hid (of_decide_eq_true heq ▸ h.account_refs e he)
  rw [Database.balance, hnone]
  rfl

/-- Without new transactions and entries the invariant depends on the accounts alone: they keep
their ids, and those that are new have no entries. -/
theorem Consistent.congr {db' : Database} (h : Consistent H db) (hkeys : db'.uniqueKeys.Nodup)
    (htransactions : db'.transactions = db.transactions)
    (hentries : db'.ledgerEntries = db.ledgerEntries)
    (hold : db.accounts.map (·.id) ⊆ db'.accounts.map (·.id))
    (hnew : ∀ a ∈ db'.accounts, a ∈ db.accounts ∨ a.id ∉ db.accounts.map (·.id)) :
    Consistent H db' := by
  have hof : ∀ id, db'.entriesOf id = db.entriesOf id := fun id => by
    rw [Database.entriesOf, hentries, Database.entriesOf]
  have hbalance : ∀ id, db'.balance id = db.balance id := fun id => by
    rw [Database.balance, Database.amounts, hentries, Database.balance, Database.amounts]
  refine ⟨hkeys, ?_, ?_, ?_, ?_, ?_, ?_, ?_, fun a ha hname => ?_⟩
  · rw [htransactions]
    exact h.chain_seq
  · rw [htransactions]
    exact h.linked
  · rw [htransactions]
    exact h.request_hash
  · rw [htransactions]
    exact h.amount_pos
  · rw [htransactions]
    exact fun t ht => by rw [hof, h.entries t ht]
  · rw [hentries, htransactions]
    exact h.transaction_refs
  · rw [hentries]
    exact fun e he => hold (h.account_refs e he)
  · rw [hbalance]
    -- an account that is new has no entries
    rcases hnew a ha with ha | hid
    · exact h.funds a ha hname
    · exact (h.balance_eq_zero hid).ge

/-- **Every commit keeps the invariant.** -/
theorem Consistent.commit (h : Consistent H db) (hcall : Commits H db call w) :
    Consistent H (db.view w) := by
  cases hcall with
  | createTransaction hs => exact h.posting hs
  | @postAccount body id now hfresh =>
      have hnew : id ∉ db.accounts.map (·.id) :=
        hfresh.account_not_mem (List.mem_singleton_self (postedAccount body id now))
      refine h.congr (hfresh.nodup_view h.keys) (List.append_nil _) (List.append_nil _) ?_ ?_
      · rw [Database.view_accounts, List.map_append]
        exact List.subset_append_left _ _
      · intro a ha
        rcases List.mem_append.mp ha with ha | ha
        · exact Or.inl ha
        · rw [List.mem_singleton.mp ha]
          exact Or.inr hnew

/-- Commits keep the entries of the transactions there were. -/
theorem Commits.entriesOf_eq (hcall : Commits H db call w) (h : Consistent H db)
    {t : Transaction ℤ} (ht : t ∈ db.transactions) :
    (db.view w).entriesOf t.id = db.entriesOf t.id := by
  cases hcall with
  | postAccount =>
      rw [Database.entriesOf_view]
      exact List.append_nil _
  | createTransaction hs => exact h.entriesOf_posting_of_mem hs ht

/-- Marks keep all entries. -/
theorem Database.entriesOf_view_markWrites (db : Database) (marks : List (UUID × Timestamp))
    (id : UUID) : (db.view (markWrites marks)).entriesOf id = db.entriesOf id := by
  rw [Database.entriesOf_view]
  exact List.append_nil _

/-- Marks keep the invariant. -/
theorem Consistent.mark (h : Consistent H db) (marks : List (UUID × Timestamp)) :
    Consistent H (db.view (markWrites marks)) := by
  refine h.congr (Fresh.nodup_view ⟨rfl, List.nodup_nil, nofun⟩ h.keys)
    (view_markWrites_transactions db marks) (view_markWrites_ledgerEntries db marks) ?_ ?_
  · rw [view_markWrites_accounts]
    exact List.Subset.refl _
  · rw [view_markWrites_accounts]
    exact fun a ha => Or.inl ha

/-- **Every reachable database is consistent.** -/
theorem Reachable.consistent (h : Reachable H db) : Consistent H db :=
  h.invariant (fun _ h => h.consistent) (fun _ _ _ h hcall => h.commit hcall)
    fun _ marks h => h.mark marks

/-- **Rule** for what commits keep where the tables are consistent. -/
theorem Reachable.consistent_invariant {Inv : Database → Prop} (h : Reachable H db)
    (hinit : ∀ db, Initial db → Inv db)
    (hcommit : ∀ db call w, Inv db → Consistent H db → Commits H db call w → Inv (db.view w))
    (hmark : ∀ db marks, Inv db → Inv (db.view (markWrites marks))) : Inv db := by
  have hboth : Consistent H db ∧ Inv db := by
    refine @Reachable.invariant H (fun db => Consistent H db ∧ Inv db) db h ?_ ?_ ?_
    · exact fun db hdb => ⟨hdb.consistent, hinit db hdb⟩
    · exact fun db call w hdb hcall => ⟨hdb.1.commit hcall, hcommit db call w hdb.2 hdb.1 hcall⟩
    · exact fun db marks hdb => ⟨hdb.1.mark marks, hmark db marks hdb.2⟩
  exact hboth.2

/-- **So is every database that interleaved calls reach.** -/
theorem consistent_of_ledger {db₀ : Database}
    {w : World sql Database Writes Resource Call Response} (h₀ : Reachable H db₀)
    (h : (ledger H).Reachable (World.init db₀) w) : Consistent H w.shared.store :=
  (reachable_of_ledger h₀ h).consistent

end LedgerApi
