import LedgerApi.Serializability

/-! # Balances

Who can owe. The entries of a consistent database add up to zero, so its balances do
(`Consistent.sum_balances`), and as no customer is overdrawn the clearing account is never in credit
(`Consistent.clearing_nonpos`). Nothing in the code refuses the clearing account as the source of a
withdrawal or a transfer; that none is ever accepted follows from its balance
(`Reachable.solvent`). -/

namespace LedgerApi

open Sessions

variable {H : HexHash} {db : Database} {data : TransactionCreate} {gen : Generated} {post : Posting}

/-! ## Sums -/

section Sums

variable (h : Consistent H db)
include h

/-- The entries of each transaction cancel out. -/
theorem Consistent.sum_entriesOf {t : Transaction ℤ} (ht : t ∈ db.transactions) :
    ((db.entriesOf t.id).map (·.amount)).sum = 0 := by
  rw [h.entries t ht]
  simp

/-- All entries add up to zero. -/
theorem Consistent.sum_entries : (db.ledgerEntries.map (·.amount)).sum = 0 := by
  refine Grouping.sum_eq_zero (fun e : LedgerEntry => e.transactionId) fun e he => ?_
  obtain ⟨t, ht, hid⟩ := List.mem_map.mp (h.transaction_refs e he)
  rw [← hid]
  exact h.sum_entriesOf ht

/-- There are two entries for each transaction. -/
theorem Consistent.entry_count : db.ledgerEntries.length = db.transactions.length * 2 := by
  have hlen : ∀ t ∈ db.transactions, (db.entriesOf t.id).length = 2 := fun t ht => by
    simpa using congrArg List.length (h.entries t ht)
  calc db.ledgerEntries.length
      = ((db.transactions.map (·.id)).map fun id => (db.entriesOf id).length).sum :=
        (Grouping.sum_length_groups (Database.nodup_transactionIds h.keys) h.transaction_refs).symm
    _ = (db.transactions.map fun _ => 2).sum := by
        rw [List.map_map]
        exact congrArg List.sum (List.map_congr_left hlen)
    _ = db.transactions.length * 2 := by simp

/-- All balances add up to zero. -/
theorem Consistent.sum_balances : (db.accounts.map fun a => db.balance a.id).sum = 0 := by
  have hgroups := Grouping.sum_groups (f := fun e : LedgerEntry => e.amount)
    (Database.nodup_accountIds h.keys) h.account_refs
  rw [h.sum_entries, List.map_map] at hgroups
  exact hgroups

/-- The clearing account is never in credit. -/
theorem Consistent.clearing_nonpos {a : Account} (ha : a ∈ db.accounts)
    (hname : a.name = externalClearingName) : db.balance a.id ≤ 0 := by
  have hperm := List.perm_cons_erase ha
  have hsum := (hperm.map fun a => db.balance a.id).sum_eq
  rw [h.sum_balances, List.map_cons, List.sum_cons] at hsum
  have hnames := (hperm.map (·.name)).nodup_iff.mp (Database.nodup_accountNames h.keys)
  -- names are distinct, so all other accounts are customers and do not owe
  have hothers : 0 ≤ ((db.accounts.erase a).map fun a => db.balance a.id).sum := by
    refine List.sum_nonneg fun x hx => ?_
    obtain ⟨b, hb, rfl⟩ := List.mem_map.mp hx
    refine h.funds b (List.mem_of_mem_erase hb) fun hb' => ?_
    rw [List.map_cons, List.nodup_cons] at hnames
    exact hnames.1 (hname.trans hb'.symm ▸ List.mem_map_of_mem hb)
  omega

end Sums

/-! ## The source of a request -/

/-- The account a request takes money from by its own account fields. -/
def TransactionCreate.source (data : TransactionCreate) : Option UUID :=
  match data.type with
  | .deposit => none
  | .withdrawal => data.accountId
  | .transfer => data.fromAccountId

/-- A request other than a deposit debits its source. -/
theorem posting_source (h : db.posting data gen = some post) (htype : data.type ≠ .deposit) :
    data.source = some post.debit := by
  unfold TransactionCreate.source
  cases posts_of_posting h with
  | deposit hcase => exact absurd hcase htype
  | withdrawal hcase haccount =>
      rw [hcase]
      exact haccount
  | transfer hcase hsource =>
      rw [hcase]
      exact hsource

/-- A request that settles and is no deposit does not debit the clearing account. -/
theorem Settles.debit_ne_clearing (hs : Settles H db data gen post) (h : Consistent H db)
    (htype : data.type ≠ .deposit) {a : Account} (ha : a ∈ db.accounts ++ post.opened)
    (hname : a.name = externalClearingName) : post.debit ≠ a.id := by
  rintro hdebit
  have hfunds := hs.cents_le htype
  have hpos := data.cents_pos
  have hnonpos : db.balance post.debit ≤ 0 := by
    rcases List.mem_append.mp ha with ha | ha
    · exact hdebit ▸ h.clearing_nonpos ha hname
    · -- a clearing account that is only being opened has no entries
      rw [hdebit, h.balance_eq_zero (hs.fresh.account_not_mem ha)]
  omega

/-- The clearing account only gains from withdrawals and transfers. -/
def ClearingReceives (db : Database) : Prop :=
  ∀ t ∈ db.transactions, t.type ≠ .deposit → ∀ a ∈ db.accounts, a.name = externalClearingName →
    ∀ e ∈ db.entriesOf t.id, e.accountId = a.id → 0 < e.amount

/-- Accounts that are not in the tables have no entries to speak of, so only accounts that were
there matter to the entries that were there. -/
theorem Consistent.mem_of_entry (h : Consistent H db) {w : Writes} (hfresh : Fresh db w)
    {a : Account} (ha : a ∈ db.accounts ++ w.accounts) {e : LedgerEntry} (he : e ∈ db.ledgerEntries)
    (heq : e.accountId = a.id) : a ∈ db.accounts := by
  rcases List.mem_append.mp ha with ha | ha
  · exact ha
  · exact absurd (heq ▸ h.account_refs e he) (hfresh.account_not_mem ha)

/-- Commits keep it so. -/
theorem ClearingReceives.commit {call : Call} {w : Writes} (hr : ClearingReceives db)
    (h : Consistent H db) (hcall : Commits H db call w) : ClearingReceives (db.view w) := by
  intro t ht htype a ha hname e he heq
  by_cases hmem : t ∈ db.transactions
  · -- an account that is new has no entries
    rw [hcall.entriesOf_eq h hmem] at he
    have ha' := h.mem_of_entry hcall.fresh ha (List.mem_of_mem_filter he) heq
    exact hr t hmem htype a ha' hname e he heq
  · cases hcall with
    | postAccount => exact absurd (by simpa [accountWrites] using ht) hmem
    | @createTransaction data gen post hs =>
        -- the new transaction gives to the clearing account, as it cannot take from it
        obtain rfl := List.mem_singleton.mp ((List.mem_append.mp ht).resolve_left hmem)
        have hid : gen.transactionId = (postedRow H db data gen).id := rfl
        rw [h.entriesOf_posting hs, if_pos hid] at he
        simp only [newEntries, List.mem_cons, List.not_mem_nil, or_false] at he
        rcases he with rfl | rfl
        · exact absurd heq (hs.debit_ne_clearing h htype ha hname)
        · exact data.toScale_amount ▸ data.cents_pos

/-- Marks do too. -/
theorem ClearingReceives.mark (hr : ClearingReceives db) (marks : List (UUID × Timestamp)) :
    ClearingReceives (db.view (markWrites marks)) := by
  intro t ht htype a ha hname e he
  rw [view_markWrites_transactions] at ht
  rw [view_markWrites_accounts] at ha
  rw [Database.entriesOf_view_markWrites] at he
  exact hr t ht htype a ha hname e he

/-- In every reachable database the clearing account has only gained from withdrawals and
transfers. -/
theorem Reachable.clearingReceives (h : Reachable H db) : ClearingReceives db :=
  h.consistent_invariant (fun _ hdb t ht => nomatch (hdb.transactions ▸ ht : t ∈ []))
    (fun _ _ _ => ClearingReceives.commit) fun _ marks hr => hr.mark marks

/-- A request whose source is the clearing account changes nothing, and is answered with an error
unless its key has been used. -/
theorem Consistent.serve_clearing_source (h : Consistent H db) {a : Account} (ha : a ∈ db.accounts)
    (hname : a.name = externalClearingName) (hsource : data.source = some a.id) :
    (serve H db (.call (.createTransaction data gen))).2 = db ∧
      (db.transactionByKey data.idempotencyKey = none →
        ∃ e, (serve H db (.call (.createTransaction data gen))).1 = .error e) := by
  obtain ⟨hcommit, g, p, L, hstore, hok, -⟩ := serve_call H db (.createTransaction data gen)
  have hsame : (serve H db (.call (.createTransaction data gen))).2 = db := by
    rcases hcommit with hsame | ⟨w, hcall, -⟩
    · exact hsame
    · cases hcall with
      | createTransaction hs =>
          have htype : data.type ≠ .deposit := fun htype => by
            rw [TransactionCreate.source, htype] at hsource
            cases hsource
          have hdebit := Option.some.inj ((posting_source hs.posting htype).symm.trans hsource)
          exact absurd hdebit (hs.debit_ne_clearing h htype (List.mem_append_left _ ha) hname)
  refine ⟨hsame, fun hunused => ?_⟩
  cases hresult : (serve H db (.call (.createTransaction data gen))).1 with
  | error e => exact ⟨e, rfl⟩
  | ok answer =>
      obtain ⟨txn, -, row, hrow, hkey, -⟩ := hok answer hresult
      rw [hstore, hsame] at hrow
      -- to be answered without a commit, the key must have been found
      exact absurd hkey (by simpa using List.find?_eq_none.mp hunused row hrow)

/-- What is known of the balances of a database. -/
structure Solvent (H : HexHash) (db : Database) : Prop where
  /-- No account but the clearing account is overdrawn. -/
  nonneg : ∀ a ∈ db.accounts, a.name ≠ externalClearingName → 0 ≤ db.balance a.id
  /-- The clearing account is never in credit. -/
  clearing_nonpos : ∀ a ∈ db.accounts, a.name = externalClearingName → db.balance a.id ≤ 0
  /-- No withdrawal or transfer has been taken from the clearing account. -/
  receives : ClearingReceives db
  /-- None is accepted: the request changes nothing, and if its key is new it is answered with an
  error. -/
  rejects : ∀ a ∈ db.accounts, a.name = externalClearingName → ∀ data gen, data.source = some a.id →
    (serve H db (.call (.createTransaction data gen))).2 = db ∧
      (db.transactionByKey data.idempotencyKey = none →
        ∃ e, (serve H db (.call (.createTransaction data gen))).1 = .error e)

/-- **Non-negative balances**, and no money out of the clearing account, in every reachable
database. -/
theorem Reachable.solvent (h : Reachable H db) : Solvent H db :=
  ⟨h.consistent.funds, fun _ ha hname => h.consistent.clearing_nonpos ha hname, h.clearingReceives,
    fun _ ha hname _ _ hsource => h.consistent.serve_clearing_source ha hname hsource⟩

/-- The migrated tables after one deposit that is accepted, which opens no new clearing account. -/
theorem solvent_after_deposit :
    ∃ db, db = (serve sha256 (migratedDatabase 1 0)
        (.call (.createTransaction { sampleDeposit with
          accountId := some 0xa0000000000040008000000000000001 } (sampleGenerated 1)))).2 ∧
      db.transactions.map (·.idempotencyKey) = ["deposit-1"] ∧
      db.balance 0xa0000000000040008000000000000001 = 1000 ∧
      Solvent sha256 db :=
  ⟨_, rfl, by decide +kernel, by decide +kernel, Reachable.solvent
    (.serve (.initial (initial_migratedDatabase 0 ⟨by decide, by decide⟩)) _)⟩

end LedgerApi
