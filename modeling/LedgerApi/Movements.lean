import LedgerApi.Application
import LedgerApi.Reconciliation
import LedgerApi.Retries

/-! # What a transaction moves

A transaction takes its amount from one account and gives it to another (`Moves`): a deposit from
External Clearing to a customer, a withdrawal the other way, a transfer between the two accounts it
names. Every request that is accepted as new does so, but one kind: a deposit that names External
Clearing, the one there is or the one it creates, as the account to pay (`moves_iff`). A withdrawal
cannot name it, since its balance is never positive, and a transfer checks that its accounts
differ. -/

namespace LedgerApi

open Sessions System

variable {H : HexHash} {db db' db₀ : Database} {data : TransactionCreate} {gen : Generated}
  {post : Posting}

/-! ## The accounts of a transaction -/

/-- The id of External Clearing. -/
def Database.clearingId (db : Database) : Option UUID :=
  (db.accountByName externalClearingName).map (·.id)

/-- The account that money is to be taken from. -/
def TransactionCreate.payer (data : TransactionCreate) (db : Database) : Option UUID :=
  match data.type with
  | .deposit => db.clearingId
  | .withdrawal => data.accountId
  | .transfer => data.fromAccountId

/-- The account that it is to be given to. -/
def TransactionCreate.payee (data : TransactionCreate) (db : Database) : Option UUID :=
  match data.type with
  | .deposit => data.accountId
  | .withdrawal => db.clearingId
  | .transfer => data.toAccountId

/-- **Money moves between two accounts**: the transaction has two entries, on two different
accounts, and they and no others gain or lose its amount. -/
def Moves (db db' : Database) (data : TransactionCreate) (transactionId : UUID) : Prop :=
  ∃ payer payee, data.payer db' = some payer ∧ data.payee db' = some payee ∧ payer ≠ payee ∧
    (db'.entriesOf transactionId).map (fun e => (e.accountId, e.amount)) =
      [(payer, -data.cents), (payee, data.cents)] ∧
    db'.balance payer = db.balance payer - data.cents ∧
    db'.balance payee = db.balance payee + data.cents ∧
    ∀ id, id ≠ payer → id ≠ payee → db'.balance id = db.balance id

/-- **A deposit for External Clearing**, the account that pays all deposits. -/
def DepositsToClearing (db : Database) (data : TransactionCreate) (gen : Generated) : Prop :=
  data.type = .deposit ∧ data.accountId = some (db.clearingAccount gen).id

instance (db : Database) (data : TransactionCreate) (gen : Generated) :
    Decidable (DepositsToClearing db data gen) :=
  inferInstanceAs (Decidable (_ ∧ _))

section Posting

variable (h : Consistent H db) (hs : Settles H db data gen post)
include h hs

/-- External Clearing after a deposit or a withdrawal is the account that the request found or
created. -/
theorem Consistent.clearingId_posting (htype : data.type ≠ .transfer) :
    (db.view (postingWrites H db data gen post)).clearingId = some (db.clearingAccount gen).id := by
  obtain ⟨hmem, -, -⟩ := hs.clearing_mem htype
  have hname := (db.clearingAccount_mem gen).2
  have hkeys := (h.posting hs).keys
  rw [Database.clearingId, ← hname, Database.accountByName_of_mem hkeys hmem, Option.map_some]

/-- A request takes from its payer and gives to its payee. -/
theorem Consistent.payer_payee_posting :
    data.payer (db.view (postingWrites H db data gen post)) = some post.debit ∧
      data.payee (db.view (postingWrites H db data gen post)) = some post.credit := by
  rw [TransactionCreate.payer, TransactionCreate.payee]
  cases posts_of_posting hs.posting with
  | deposit htype haccount =>
      rw [htype]
      exact ⟨h.clearingId_posting hs (by rw [htype]; decide), haccount⟩
  | withdrawal htype haccount =>
      rw [htype]
      exact ⟨haccount, h.clearingId_posting hs (by rw [htype]; decide)⟩
  | transfer htype hsource htarget =>
      rw [htype]
      exact ⟨hsource, htarget⟩

/-- **The accounts of a request are the same** only in a deposit for External Clearing. -/
theorem Consistent.debit_eq_credit_iff :
    post.debit = post.credit ↔ DepositsToClearing db data gen := by
  rw [DepositsToClearing]
  cases posts_of_posting hs.posting with
  | deposit htype haccount => simp [htype, haccount, eq_comm]
  | withdrawal htype =>
      -- External Clearing cannot pay
      have htransfer : data.type ≠ .transfer := by simp [htype]
      have hdeposit : data.type ≠ .deposit := by simp [htype]
      obtain ⟨hmem, -, hcredit⟩ := hs.clearing_mem htransfer
      have hdebit := hs.debit_ne_clearing h hdeposit hmem (db.clearingAccount_mem gen).2
      rw [hcredit htype]
      simp [htype, hdebit]
  | transfer htype _ _ hne => simp [htype, hne]

/-- **What a posting moves.** -/
theorem Consistent.moves_posting_iff :
    Moves db (db.view (postingWrites H db data gen post)) data gen.transactionId ↔
      ¬ DepositsToClearing db data gen := by
  obtain ⟨hpayer, hpayee⟩ := h.payer_payee_posting hs
  rw [← h.debit_eq_credit_iff hs]
  constructor
  · rintro ⟨payer, payee, hpayer', hpayee', hne, -⟩ heq
    obtain rfl := Option.some.inj (hpayer.symm.trans hpayer')
    obtain rfl := Option.some.inj (hpayee.symm.trans hpayee')
    exact hne heq
  · intro hne
    refine ⟨post.debit, post.credit, hpayer, hpayee, hne, ?_, ?_, ?_, fun id hdebit hcredit => ?_⟩
    · rw [h.entriesOf_posting hs, if_pos rfl]
      simp [newEntries, data.toScale_amount, data.toScale_neg_amount]
    · rw [balance_posting, if_pos rfl, if_neg (Ne.symm hne)]
      omega
    · rw [balance_posting, if_neg hne, if_pos rfl]
      omega
    · rw [balance_posting, if_neg (Ne.symm hdebit), if_neg (Ne.symm hcredit)]
      omega

end Posting

/-- **Each transaction moves money between two accounts**: in every state, every request that is
accepted as new does exactly when it is no deposit for External Clearing. -/
theorem moves_iff {w : World sql Database Writes Resource Request Response} (h₀ : Initial db₀)
    (h : (api H).Reachable (World.init db₀) w)
    (hnew : w.shared.store.transactionByKey data.idempotencyKey = none) {answer : Response}
    (hserve : serve H w.shared.store (.call (.createTransaction data gen)) = (.ok answer, db')) :
    ∃ txn, answer = .transaction txn ∧ (Moves w.shared.store db' data txn.id ↔
      ¬ DepositsToClearing w.shared.store data gen) := by
  obtain ⟨post, hs, rfl, rfl⟩ := settles_of_serve_ok hnew hserve
  exact ⟨_, rfl, (consistent_of_api (.initial h₀) h).moves_posting_iff hs⟩

/-- A deposit for a customer is accepted, and one for External Clearing as well. -/
theorem sampleDeposits_accepted :
    (serve sha256 sampleDatabase
        (.call (.createTransaction sampleDeposit (sampleGenerated 1)))).1.isOk ∧
      (serve sha256 sampleDatabase
        (.call (.createTransaction clearingDeposit (sampleGenerated 1)))).1.isOk := by
  decide +kernel

/-- What is accepted has an answer. -/
theorem exists_answer {r : Request} (h : (serve H db r).1.isOk) :
    ∃ answer, serve H db r = (.ok answer, (serve H db r).2) := by
  cases hresult : (serve H db r).1 with
  | ok answer => exact ⟨answer, Prod.ext hresult rfl⟩
  | error e =>
      rw [hresult] at h
      cases h

/-- The deposit for a customer moves its amount. -/
theorem moves_sampleDeposit :
    ∃ txn db', serve sha256 sampleDatabase
        (.call (.createTransaction sampleDeposit (sampleGenerated 1))) =
          (.ok (.transaction txn), db') ∧
      Moves sampleDatabase db' sampleDeposit txn.id := by
  obtain ⟨answer, hserve⟩ := exists_answer sampleDeposits_accepted.1
  obtain ⟨txn, rfl, hiff⟩ := moves_iff initial_sampleDatabase .refl (by decide +kernel) hserve
  exact ⟨txn, _, hserve, hiff.mpr (by decide)⟩

/-- **A deposit that moves nothing**: External Clearing pays itself. -/
theorem clearing_deposit_moves_nothing :
    Initial sampleDatabase ∧
      sampleDatabase.transactionByKey clearingDeposit.idempotencyKey = none ∧
      ∃ txn db', serve sha256 sampleDatabase
          (.call (.createTransaction clearingDeposit (sampleGenerated 1))) =
            (.ok (.transaction txn), db') ∧
        ¬ Moves sampleDatabase db' clearingDeposit txn.id := by
  have hnew : sampleDatabase.transactionByKey clearingDeposit.idempotencyKey = none := by decide
  obtain ⟨answer, hserve⟩ := exists_answer sampleDeposits_accepted.2
  obtain ⟨post, hs, hview, rfl⟩ := settles_of_serve_ok hnew hserve
  refine ⟨initial_sampleDatabase, hnew, _, _, hserve, ?_⟩
  rw [hview]
  intro hmoves
  have hiff := (Reachable.initial initial_sampleDatabase).consistent.moves_posting_iff hs
  exact hiff.mp hmoves (by decide)

end LedgerApi
