import LedgerApi.Consistency

/-! # Serializability and the linear chain

What interleaved calls leave behind. The committed calls, taken in the order of `chain_seq`, are
accepted one after the other by the sequential program, which arrives at the same tables
(`serializable`): no interleaving spends money twice. And the chain never forks: its numbers are
`1..n`, no call runs into its unique index, and it verifies (`chain_linear`). -/

namespace LedgerApi

open Sessions System

variable {H : HexHash} {db₀ db : Database} {log : List Call}
  {w : World sql Database Writes Resource Call Response}

/-- The transaction a call inserts. -/
def Call.transactionId : Call → Option UUID
  | postAccount _ _ _ => none
  | createTransaction _ gen => some gen.transactionId

/-- A history appends the transactions of its calls, in their order. -/
theorem History.transactions (h : History H db₀ log db) :
    ∃ rows, db.transactions = db₀.transactions ++ rows ∧
      rows.map (·.id) = log.filterMap Call.transactionId := by
  induction h with
  | nil => exact ⟨[], (List.append_nil _).symm, rfl⟩
  | @snoc log db call w _ hcall ih =>
      obtain ⟨rows, htransactions, hids⟩ := ih
      refine ⟨rows ++ w.transactions, ?_, ?_⟩
      · rw [Database.view_transactions hcall.fresh.rechained, htransactions, List.append_assoc]
      · rw [List.map_append, hids, List.filterMap_append]
        cases hcall with
        | postAccount => rfl
        | createTransaction => rfl

/-- **Serializability**: replaying the committed calls one at a time, in the order of their
`chain_seq`, accepts every one of them and gives every account the balance it has. -/
theorem serializable (h₀ : Reachable H db₀) (h : (ledger H).Reachable (World.init db₀) w) :
    ∃ db rows, replayLog H db₀ w.shared.log = some db ∧
      (∀ id, db.balance id = w.shared.store.balance id) ∧
      w.shared.store.chain = db₀.chain ++ rows ∧
      rows.map (·.id) = w.shared.log.filterMap Call.transactionId := by
  have hhistory := ledger_history h
  obtain ⟨rows, htransactions, hids⟩ := hhistory.transactions
  refine ⟨w.shared.store, rows, hhistory.replay, fun _ => rfl, ?_, hids⟩
  rw [(consistent_of_ledger h₀ h).chain_eq, h₀.consistent.chain_eq, htransactions]

/-! ## A run -/

/-- A clearing account and one customer. -/
def sampleDatabase : Database :=
  ⟨[⟨1, externalClearingName, true, 0⟩, ⟨2, "alice", false, 0⟩], [], [], []⟩

theorem initial_sampleDatabase : Initial sampleDatabase :=
  ⟨by decide, by decide, rfl, rfl, rfl⟩

/-- The values drawn for the `n`-th call of a run. -/
def sampleGenerated (n : ℕ) : Generated :=
  ⟨.ofNat _ (10 * n + 1), .ofNat _ (10 * n + 2), .ofNat _ (10 * n + 3), .ofNat _ (10 * n + 4),
    .ofNat _ (10 * n + 5), n⟩

/-- A deposit of `1E+1` for the customer. -/
def sampleDeposit : TransactionCreate :=
  ⟨"deposit-1", .deposit, ⟨1, 1⟩, some 2, none, none, none, by decide, by decide⟩

theorem validLength_laterKey : ValidLength "deposit-2" := by decide

/-- Another deposit like the first. -/
def laterDeposit : TransactionCreate :=
  { sampleDeposit with idempotencyKey := "deposit-2", valid_key := validLength_laterKey }

theorem validLength_withdrawalKey : ValidLength "withdrawal-1" := by decide

/-- A withdrawal of `7.5` by the customer. -/
def sampleWithdrawal (key : String) (h : ValidLength key) : TransactionCreate :=
  ⟨key, .withdrawal, ⟨75, -1⟩, some 2, none, none, none, h, by decide⟩

/-- Two withdrawals that the balance covers once look up their keys and the clearing account in
turns; the second waits for the first at the row lock and is rejected after it. -/
def sampleRun : Option (World sql Database Writes Resource Call Response) :=
  (ledger sha256).run (fun _ _ => True) sampleDatabase
    [.createTransaction sampleDeposit (sampleGenerated 1),
      .createTransaction (sampleWithdrawal "withdrawal-1" validLength_withdrawalKey)
        (sampleGenerated 2),
      .createTransaction (sampleWithdrawal "withdrawal-2" (by decide)) (sampleGenerated 3)]
    (List.replicate 13 0 ++ [1, 2, 1, 2] ++ List.replicate 12 1 ++ List.replicate 4 2)

/-- The calls that committed in the run, and the balance of the customer. -/
theorem sampleRun_outcome :
    sampleRun.map (fun w => (w.shared.log.filterMap Call.transactionId, w.shared.store.balance 2)) =
      some ([12, 22], 250) := by
  decide +kernel

theorem reachable_sampleRun {w : World sql Database Writes Resource Call Response}
    (h : sampleRun = some w) : (ledger sha256).Reachable (World.init sampleDatabase) w :=
  Reaches.of_run h

/-- Of the two withdrawals of the run, one is committed; its log replays to the same balance. -/
theorem serializable_sampleRun :
    ∃ w : World sql Database Writes Resource Call Response,
      w.shared.log.filterMap Call.transactionId = [12, 22] ∧
      ∃ db rows, replayLog sha256 sampleDatabase w.shared.log = some db ∧
        (∀ id, db.balance id = w.shared.store.balance id) ∧
        w.shared.store.chain = sampleDatabase.chain ++ rows ∧
        rows.map (·.id) = w.shared.log.filterMap Call.transactionId := by
  obtain ⟨w, hw, houtcome⟩ := Option.map_eq_some_iff.mp sampleRun_outcome
  exact ⟨w, congrArg Prod.fst houtcome,
    serializable (.initial initial_sampleDatabase) (reachable_sampleRun hw)⟩

/-! ## The chain -/

/-- A database with a linked chain passes the verification, without a broken link. -/
theorem verifyHashChain_of_linked
    (h : HashChain.Linked (chainScheme H) (some genesisHash) db.chain) :
    (verifyHashChain H db).status = .pass ∧ (verifyHashChain H db).chainLength = db.chain.length ∧
      ∀ links ∈ (verifyHashChain H db).brokenLinks, links = [] := by
  refine ⟨(verifyHashChain_eq_pass_iff H db).mpr h, ?_, ?_⟩
  · unfold verifyHashChain
    by_cases hnil : db.chain = [] <;> simp [hnil]
  · unfold verifyHashChain
    by_cases hnil : db.chain = []
    · simp [hnil]
    · rw [if_neg hnil, (brokenLinks_eq_nil_iff H _ _).mpr h]
      simp

/-- A consistent database passes the verification of its chain. -/
theorem Consistent.verifies (h : Consistent H db) :
    (verifyHashChain H db).status = .pass ∧
      (verifyHashChain H db).chainLength = db.transactions.length ∧
      ∀ links ∈ (verifyHashChain H db).brokenLinks, links = [] := by
  have hchain := h.chain_eq
  have hverify := verifyHashChain_of_linked (hchain ▸ h.linked)
  rwa [hchain] at hverify

/-- Payloads hash to the digests in their rows, so none collide where the digests are distinct. -/
theorem Consistent.collisionFree_of_nodup (h : Consistent H db)
    (hnodup : (db.chain.map (·.chainHash)).Nodup) : H.CollisionFree (payloads db.chain) := by
  intro x hx y hy heq
  obtain ⟨s, hs, rfl⟩ := List.mem_map.mp hx
  obtain ⟨t, ht, rfl⟩ := List.mem_map.mp hy
  have hlinked := h.chain_eq ▸ h.linked
  have hstored : s.chainHash = t.chainHash :=
    (hlinked.rehash_eq hs).symm.trans ((congrArg some heq).trans (hlinked.rehash_eq ht))
  rw [List.inj_on_of_nodup_map hnodup hs ht hstored]

/-- No session raises a violation of the index on `chain_seq`. -/
theorem ne_chainSeq_violation (h : (ledger H).Reachable (World.init db₀) w) {i : ℕ}
    {s : Session sql Writes Resource Call Response} (hs : w.Running i s) {e : Exn}
    (hprog : s.prog = .raise e) (seq : ℤ) : e ≠ .uniqueViolation (.transactionsChainSeq seq) := by
  have hraises := (sound_of_ledger h).raised hs hprog
  cases hcall : s.call with
  | postAccount body id now =>
      rw [hcall] at hraises
      exact hraises seq
  | createTransaction data gen =>
      rw [hcall] at hraises
      -- a conflict, or an error that the annotation tells from this one
      rcases hraises with ⟨rfl, -⟩ | ⟨hseq, -⟩
      · exact nofun
      · exact hseq seq

/-- **The chain is linear** in every committed state of every interleaving: its numbers are `1..n`,
no call hits the unique index on them, and the verification passes with `n` rows and no broken
link. -/
theorem chain_linear (h₀ : Reachable H db₀) (h : (ledger H).Reachable (World.init db₀) w) :
    w.shared.store.transactions.map (·.chainSeq) =
        (List.range w.shared.store.transactions.length).map (fun i : ℕ => some ((i : ℤ) + 1)) ∧
      (∀ i s e seq, w.Running i s → s.prog = .raise e →
        e ≠ .uniqueViolation (.transactionsChainSeq seq)) ∧
      (verifyHashChain H w.shared.store).status = .pass ∧
      (verifyHashChain H w.shared.store).chainLength = w.shared.store.transactions.length ∧
      ∀ links ∈ (verifyHashChain H w.shared.store).brokenLinks, links = [] :=
  have hconsistent := consistent_of_ledger h₀ h
  ⟨hconsistent.chain_seq, fun _ _ _ seq hs hprog => ne_chainSeq_violation h hs hprog seq,
    hconsistent.verifies⟩

/-- The chain of the run has two rows and verifies. -/
theorem chain_linear_sampleRun :
    ∃ w : World sql Database Writes Resource Call Response,
      w.shared.store.balance 2 = 250 ∧
      w.shared.store.transactions.map (·.chainSeq) =
          (List.range w.shared.store.transactions.length).map (fun i : ℕ => some ((i : ℤ) + 1)) ∧
        (∀ i s e seq, w.Running i s → s.prog = .raise e →
          e ≠ .uniqueViolation (.transactionsChainSeq seq)) ∧
        (verifyHashChain sha256 w.shared.store).status = .pass ∧
        (verifyHashChain sha256 w.shared.store).chainLength = w.shared.store.transactions.length ∧
        ∀ links ∈ (verifyHashChain sha256 w.shared.store).brokenLinks, links = [] := by
  obtain ⟨w, hw, houtcome⟩ := Option.map_eq_some_iff.mp sampleRun_outcome
  exact ⟨w, congrArg Prod.snd houtcome,
    chain_linear (.initial initial_sampleDatabase) (reachable_sampleRun hw)⟩

end LedgerApi
