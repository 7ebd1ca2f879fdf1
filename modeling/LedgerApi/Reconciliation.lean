import LedgerApi.Balances
import LedgerApi.Replays

/-! # Reconciliation with cash

Money enters the system by deposits and leaves it by withdrawals, and the clearing account is their
counterparty: it should owe what has come in and not gone out (`Reconciles`). Nothing in the code
refuses the clearing account as the account of a deposit or as the target of a transfer. Such a
request pays the clearing account (`PaysClearing`), and the books reconcile in every state of a run
exactly when the run accepts none (`reconciles_iff`).

The two halves of the identity say the same, since all balances add up to zero
(`Consistent.clearing_add_others`). -/

namespace LedgerApi

open Sessions

/-! ## The identity -/

/-- The total amount of the committed transactions of a type. -/
def Database.total (db : Database) (type : TransactionType) : ℤ :=
  ((db.transactions.filter (·.type = type)).map (·.amount)).sum

/-- The balance of the clearing account; nothing has been posted to one that is not there. -/
def Database.clearingBalance (db : Database) : ℤ :=
  match db.accountByName externalClearingName with
  | some account => db.balance account.id
  | none => 0

/-- The sum of the balances of all other accounts. -/
def Database.othersBalance (db : Database) : ℤ :=
  ((db.accounts.filter (·.name ≠ externalClearingName)).map fun a => db.balance a.id).sum

/-- The books agree with the cash that has come in and gone out. -/
structure Reconciles (db : Database) : Prop where
  clearing : db.clearingBalance = db.total .withdrawal - db.total .deposit
  others : db.othersBalance = db.total .deposit - db.total .withdrawal

instance (db : Database) : Decidable (Reconciles db) :=
  decidable_of_iff (db.clearingBalance = db.total .withdrawal - db.total .deposit ∧
    db.othersBalance = db.total .deposit - db.total .withdrawal)
    ⟨fun h => ⟨h.1, h.2⟩, fun h => ⟨h.clearing, h.others⟩⟩

variable {H : HexHash} {db : Database} {data : TransactionCreate} {gen : Generated} {post : Posting}

/-- **The clearing account and all others add up to zero.** -/
theorem Consistent.clearing_add_others (h : Consistent H db) :
    db.clearingBalance + db.othersBalance = 0 := by
  have hclearing : ((db.accounts.filter (·.name = externalClearingName)).map
      fun a => db.balance a.id).sum = db.clearingBalance := by
    rw [Grouping.filter_eq_find? (Database.nodup_accountNames h.keys), Database.clearingBalance,
      ← Database.accountByName]
    cases db.accountByName externalClearingName <;> simp
  have hperm := (List.filter_append_perm (·.name = externalClearingName) db.accounts).map
    fun a => db.balance a.id
  have hsum := hperm.sum_eq
  rw [h.sum_balances, List.map_append, List.sum_append, hclearing] at hsum
  simpa [Database.othersBalance] using hsum

/-- So either half of the identity gives the other. -/
theorem Consistent.reconciles_iff_clearing (h : Consistent H db) :
    Reconciles db ↔ db.clearingBalance = db.total .withdrawal - db.total .deposit := by
  have hsum := h.clearing_add_others
  constructor
  · exact fun hr => hr.clearing
  · intro hclearing
    exact ⟨hclearing, by omega⟩

/-! ## What a request changes -/

variable (H) in
/-- A deposit or a transfer that settles and names the clearing account as the account to pay. -/
def PaysClearing (db : Database) : Request → Prop
  | .call (.createTransaction data gen) => data.type ≠ .withdrawal ∧ ∃ post,
      Settles H db data gen post ∧
        ∃ a ∈ db.accounts ++ post.opened, a.name = externalClearingName ∧ a.id = post.credit
  | _ => False

/-- A posting adds its amount to the total of its type. -/
theorem total_posting (type : TransactionType) :
    (db.view (postingWrites H db data gen post)).total type =
      db.total type + if data.type = type then data.cents else 0 := by
  have htype : (postedRow H db data gen).type = data.type := rfl
  have hamount : (postedRow H db data gen).amount = data.cents := data.toScale_amount
  rw [Database.total, Database.view_transactions rfl, List.filter_append, List.map_append,
    List.sum_append, Database.total]
  by_cases h : data.type = type <;> simp [postingWrites, h, htype, hamount]

/-- What the clearing account owes too much or too little. -/
def Database.surplus (db : Database) : ℤ :=
  db.clearingBalance - (db.total .withdrawal - db.total .deposit)

theorem Consistent.reconciles_iff_surplus (h : Consistent H db) :
    Reconciles db ↔ db.surplus = 0 := by
  rw [h.reconciles_iff_clearing, Database.surplus, sub_eq_zero]

/-- The clearing account is found by its name. -/
theorem Consistent.clearingBalance_eq (h : Consistent H db) {a : Account} (ha : a ∈ db.accounts)
    (hname : a.name = externalClearingName) : db.clearingBalance = db.balance a.id := by
  rw [Database.clearingBalance, ← hname, Database.accountByName_of_mem h.keys ha]

/-- Without a clearing account there is no balance to speak of. -/
theorem clearingBalance_eq_zero (h : ∀ a ∈ db.accounts, a.name ≠ externalClearingName) :
    db.clearingBalance = 0 := by
  have hnone : db.accountByName externalClearingName = none :=
    List.find?_eq_none.mpr fun a ha hname => h a ha (of_decide_eq_true hname)
  rw [Database.clearingBalance, hnone]

/-- The clearing account of a deposit or a withdrawal is there when it is posted. -/
theorem Settles.clearing_mem (hs : Settles H db data gen post)
    (htype : data.type ≠ .transfer) :
    db.clearingAccount gen ∈ db.accounts ++ post.opened ∧
      (data.type = .deposit → post.debit = (db.clearingAccount gen).id) ∧
      (data.type = .withdrawal → post.credit = (db.clearingAccount gen).id) := by
  cases posts_of_posting hs.posting with
  | deposit hcase =>
      refine ⟨(db.clearingAccount_mem gen).1, fun _ => rfl, fun hcase' => ?_⟩
      rw [hcase] at hcase'
      cases hcase'
  | withdrawal hcase =>
      refine ⟨(db.clearingAccount_mem gen).1, fun hcase' => ?_, fun _ => rfl⟩
      rw [hcase] at hcase'
      cases hcase'
  | transfer hcase => exact absurd hcase htype

section Posting

variable (h : Consistent H db) (hs : Settles H db data gen post)
include h hs

/-- A posting changes the clearing account like any other. -/
theorem Consistent.clearingBalance_posting {a : Account} (ha : a ∈ db.accounts ++ post.opened)
    (hname : a.name = externalClearingName) :
    (db.view (postingWrites H db data gen post)).clearingBalance =
      db.clearingBalance + (if post.debit = a.id then -data.cents else 0) +
        (if post.credit = a.id then data.cents else 0) := by
  rw [(h.posting hs).clearingBalance_eq ha hname, balance_posting]
  have hbefore : db.clearingBalance = db.balance a.id := by
    rcases List.mem_append.mp ha with ha | ha
    · exact h.clearingBalance_eq ha hname
    · -- an account that is only being opened has no entries, and there was none of its name
      have hnone : .accountsName externalClearingName ∉ db.uniqueKeys := by
        refine hs.fresh.not_mem _ (Database.mem_uniqueKeys.mpr (Or.inl ⟨a, ha, ?_⟩))
        simp [Account.uniqueKeys, hname]
      rw [h.balance_eq_zero (hs.fresh.account_not_mem ha), Database.clearingBalance,
        Database.accountByName_eq_none_iff.mpr hnone]
  rw [hbefore]

/-- Where the clearing account is, one can see whether it is paid. -/
theorem Consistent.paysClearing_iff {a : Account} (ha : a ∈ db.accounts ++ post.opened)
    (hname : a.name = externalClearingName) :
    PaysClearing H db (.call (.createTransaction data gen)) ↔
      data.type ≠ .withdrawal ∧ post.credit = a.id := by
  constructor
  · rintro ⟨htype, post', hs', a', ha', hname', hcredit⟩
    obtain rfl := Option.some.inj (hs'.posting.symm.trans hs.posting)
    -- names are distinct
    have hnames := Database.nodup_accountNames (h.posting hs).keys
    have heq : a' = a := List.inj_on_of_nodup_map hnames ha' ha (hname'.trans hname.symm)
    exact ⟨htype, by rw [← hcredit, heq]⟩
  · rintro ⟨htype, hcredit⟩
    exact ⟨htype, post, hs, a, ha, hname, hcredit.symm⟩

/-- Where the clearing account is, a posting that pays it adds its amount to the surplus. -/
theorem Consistent.surplus_posting_of_mem {a : Account} (ha : a ∈ db.accounts ++ post.opened)
    (hname : a.name = externalClearingName) :
    (db.view (postingWrites H db data gen post)).surplus =
      db.surplus + if data.type ≠ .withdrawal ∧ post.credit = a.id then data.cents else 0 := by
  have hbalance := h.clearingBalance_posting hs ha hname
  -- any clearing account that a request speaks of is this one
  have hnames := Database.nodup_accountNames (h.posting hs).keys
  have hunique : ∀ b ∈ db.accounts ++ post.opened, b.name = externalClearingName → b.id = a.id :=
    fun b hb hbname => congrArg _ (List.inj_on_of_nodup_map hnames hb ha (hbname.trans hname.symm))
  rw [Database.surplus, Database.surplus, total_posting, total_posting, hbalance]
  cases htype : data.type with
  | deposit =>
      obtain ⟨hmem, hdebit, -⟩ := hs.clearing_mem (by rw [htype]; decide)
      have hdebit' : post.debit = a.id :=
        (hdebit htype).trans (hunique _ hmem (db.clearingAccount_mem gen).2)
      by_cases hcredit : post.credit = a.id <;> simp [hdebit', hcredit] <;> omega
  | withdrawal =>
      obtain ⟨hmem, -, hcredit⟩ := hs.clearing_mem (by rw [htype]; decide)
      have hcredit' : post.credit = a.id :=
        (hcredit htype).trans (hunique _ hmem (db.clearingAccount_mem gen).2)
      have hdebit := hs.debit_ne_clearing h (by rw [htype]; decide) ha hname
      simp [hdebit, hcredit']
      omega
  | transfer =>
      have hdebit := hs.debit_ne_clearing h (by rw [htype]; decide) ha hname
      by_cases hcredit : post.credit = a.id <;> simp [hdebit, hcredit]
      omega

omit h in
/-- Where it is not, the posting is a transfer between others. -/
theorem Settles.surplus_posting_of_forall
    (hnone : ∀ a ∈ db.accounts ++ post.opened, a.name ≠ externalClearingName) :
    (db.view (postingWrites H db data gen post)).surplus = db.surplus := by
  have htype : data.type = .transfer := by
    by_contra hne
    exact hnone _ (hs.clearing_mem hne).1 (db.clearingAccount_mem gen).2
  have hbefore : db.clearingBalance = 0 :=
    clearingBalance_eq_zero fun a ha => hnone a (List.mem_append_left _ ha)
  have hafter : (db.view (postingWrites H db data gen post)).clearingBalance = 0 :=
    clearingBalance_eq_zero hnone
  simp [Database.surplus, hbefore, hafter, total_posting, htype]

/-- **What a posting does to the identity**: nothing, unless it pays the clearing account. -/
theorem Consistent.surplus_posting :
    (PaysClearing H db (.call (.createTransaction data gen)) →
      (db.view (postingWrites H db data gen post)).surplus = db.surplus + data.cents) ∧
    (¬ PaysClearing H db (.call (.createTransaction data gen)) →
      (db.view (postingWrites H db data gen post)).surplus = db.surplus) := by
  by_cases hclearing : ∃ a ∈ db.accounts ++ post.opened, a.name = externalClearingName
  case pos =>
    obtain ⟨a, ha, hname⟩ := hclearing
    rw [h.paysClearing_iff hs ha hname, h.surplus_posting_of_mem hs ha hname]
    exact ⟨fun hpays => by rw [if_pos hpays], fun hpays => by rw [if_neg hpays, Int.add_zero]⟩
  case neg =>
    have hnone : ∀ a ∈ db.accounts ++ post.opened, a.name ≠ externalClearingName :=
      fun a ha hname => hclearing ⟨a, ha, hname⟩
    refine ⟨?_, fun _ => hs.surplus_posting_of_forall hnone⟩
    rintro ⟨-, post', hs', a, ha, hname, -⟩
    obtain rfl := Option.some.inj (hs'.posting.symm.trans hs.posting)
    exact absurd hname (hnone a ha)

end Posting

/-- Entries alone move the balance of the clearing account; an account that is opened has none. -/
theorem Consistent.clearingBalance_view (h : Consistent H db) {w : Writes} (hfresh : Fresh db w)
    (hentries : w.ledgerEntries = []) : (db.view w).clearingBalance = db.clearingBalance := by
  have hbalance : ∀ id, (db.view w).balance id = db.balance id := fun id => by
    rw [Database.balance, Database.amounts_view hentries, Database.balance]
  cases hfound : db.accountByName externalClearingName with
  | some a =>
      rw [Database.clearingBalance, Database.accountByName_view hfound, Database.clearingBalance,
        hfound]
      exact hbalance a.id
  | none =>
      have hzero : db.clearingBalance = 0 := by rw [Database.clearingBalance, hfound]
      rw [hzero, Database.clearingBalance]
      cases hafter : (db.view w).accountByName externalClearingName with
      | none => rfl
      | some a =>
          -- an account that is new has no entries
          have hname : a.name = externalClearingName := by simpa using List.find?_some hafter
          have hnew : a ∈ w.accounts := by
            have hmem := List.mem_append.mp (List.mem_of_find?_eq_some hafter)
            refine hmem.resolve_left fun ha => ?_
            exact List.find?_eq_none.mp hfound a ha (decide_eq_true hname)
          exact (hbalance a.id).trans (h.balance_eq_zero (hfresh.account_not_mem hnew))

/-- What posts nothing leaves the identity as it is. -/
theorem Consistent.surplus_view (h : Consistent H db) {w : Writes} (hfresh : Fresh db w)
    (htransactions : w.transactions = []) (hentries : w.ledgerEntries = []) :
    (db.view w).surplus = db.surplus := by
  have htotal : ∀ type, (db.view w).total type = db.total type := fun type => by
    rw [Database.total, Database.view_transactions hfresh.rechained, htransactions,
      List.append_nil, Database.total]
  rw [Database.surplus, h.clearingBalance_view hfresh hentries, htotal, htotal, Database.surplus]

/-! ## Runs -/

/-- **Step lemma**: a request leaves the identity as it is, unless it pays the clearing account. -/
theorem Consistent.surplus_serve (h : Consistent H db) (r : Request) :
    (PaysClearing H db r → db.surplus < (serve H db r).2.surplus) ∧
      (¬ PaysClearing H db r → (serve H db r).2.surplus = db.surplus) := by
  cases r with
  | outboxPublish limit accepts now =>
      obtain ⟨marks, -, hview⟩ := serve_outboxPublish H db limit accepts now
      refine ⟨False.elim, fun _ => ?_⟩
      rw [hview]
      exact h.surplus_view ⟨rfl, List.nodup_nil, nofun⟩ rfl rfl
  | call call =>
      cases call with
      | postAccount data id now =>
          refine ⟨False.elim, fun _ => ?_⟩
          rcases (serve_call H db (.postAccount data id now)).1 with hsame | ⟨w, hcall, hview⟩
          · rw [hsame]
          · rw [hview]
            cases hcall with
            | postAccount hfresh => exact h.surplus_view hfresh rfl rfl
      | createTransaction data gen =>
          constructor
          · intro hpays
            obtain ⟨-, post, hs, -⟩ := id hpays
            obtain ⟨answer, hrun⟩ := (Commits.createTransaction hs).run
            have hview : (serve H db (.call (.createTransaction data gen))).2 =
                db.view (postingWrites H db data gen post) := congrArg Prod.snd hrun
            rw [hview, (h.surplus_posting hs).1 hpays]
            exact Int.lt_add_of_pos_right _ data.cents_pos
          · intro hpays
            rcases (serve_call H db (.createTransaction data gen)).1 with hsame | ⟨w, hcall, hview⟩
            · rw [hsame]
            · rw [hview]
              cases hcall with
              | createTransaction hs => exact (h.surplus_posting hs).2 hpays

/-- Before the first transaction the books reconcile. -/
theorem Initial.surplus_eq_zero (h : Initial db) : db.surplus = 0 := by
  have hbalance : ∀ id, db.balance id = 0 := fun id => by
    rw [Database.balance, Database.amounts, h.ledgerEntries]
    rfl
  have hclearing : db.clearingBalance = 0 := by
    rw [Database.clearingBalance]
    cases db.accountByName externalClearingName with
    | none => rfl
    | some a => exact hbalance a.id
  simp [Database.surplus, hclearing, Database.total, h.transactions]

/-- **Reconciliation with outside cash**: the books reconcile in every state of a run exactly when
no request of the run pays the clearing account by a deposit or a transfer. -/
theorem reconciles_iff {db₀ : Database} (h₀ : Initial db₀) (rs : List Request) :
    (∀ before, before <+: rs → Reconciles (serveAll H db₀ before)) ↔
      ∀ before r, before ++ [r] <+: rs → ¬ PaysClearing H (serveAll H db₀ before) r := by
  have hconsistent : ∀ before, Consistent H (serveAll H db₀ before) := fun before =>
    ((Reachable.initial h₀).serveAll before).consistent
  constructor
  · intro h before r hprefix hpays
    have hbefore := h before ((List.prefix_append before [r]).trans hprefix)
    have hafter := h (before ++ [r]) hprefix
    rw [(hconsistent _).reconciles_iff_surplus] at hbefore hafter
    rw [serveAll_append_singleton] at hafter
    -- the surplus cannot be zero before and after
    have hlt := ((hconsistent before).surplus_serve r).1 hpays
    omega
  · intro h before hprefix
    rw [(hconsistent _).reconciles_iff_surplus]
    induction before using List.reverseRecOn with
    | nil => exact h₀.surplus_eq_zero
    | append_singleton before r ih =>
        rw [serveAll_append_singleton,
          ((hconsistent before).surplus_serve r).2 (h before r hprefix)]
        exact ih ((List.prefix_append before [r]).trans hprefix)

/-- A deposit of ten for the clearing account itself. -/
def clearingDeposit : TransactionCreate :=
  ⟨"deposit-1", .deposit, ⟨1, 1⟩, some 1, none, none, none, sampleDeposit.valid_key,
    sampleDeposit.valid_amount⟩

/-- Ten paid in and seven and a half paid out by a customer reconcile, before, between and after the
two, and neither of them pays the clearing account. -/
theorem reconciles_sampleRequests :
    (serveAll sha256 sampleDatabase sampleRequests).othersBalance = 250 ∧
      (∀ before, before <+: sampleRequests →
        Reconciles (serveAll sha256 sampleDatabase before)) ∧
      ∀ before r, before ++ [r] <+: sampleRequests →
        ¬ PaysClearing sha256 (serveAll sha256 sampleDatabase before) r := by
  have hall : ∀ before ∈ sampleRequests.inits, Reconciles (serveAll sha256 sampleDatabase before) :=
    by decide +kernel
  have hreconciles : ∀ before, before <+: sampleRequests →
      Reconciles (serveAll sha256 sampleDatabase before) := fun before hprefix =>
    hall before ((List.mem_inits _ _).mpr hprefix)
  exact ⟨by decide +kernel, hreconciles,
    (reconciles_iff initial_sampleDatabase sampleRequests).mp hreconciles⟩

/-- **Ten have come in that nobody owes**: the clearing account paid itself. -/
theorem clearing_deposit_unreconciled :
    Initial sampleDatabase ∧
      ¬ Reconciles (serveAll sha256 sampleDatabase
        [.call (.createTransaction clearingDeposit (sampleGenerated 1))]) := by
  refine ⟨initial_sampleDatabase, fun h => ?_⟩
  have hclearing := h.clearing
  revert hclearing
  decide +kernel

end LedgerApi
