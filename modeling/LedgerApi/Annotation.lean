import LedgerApi.Interference

/-! # The annotated write path

The assertions that stand between the statements of `create_transaction` and `post_account`,
function by function, in the logic of `Contract.Triple`. At the commit of `create_transaction` they
say that the request settles on the database of that moment and has written what it posts, however
many sessions have committed since it began. -/

namespace LedgerApi

open Sessions

section Assertions

variable (serial : Bool) (data : TransactionCreate) (gen : Generated)

/-- A session of `create_transaction` that has looked up its key in vain and has written `w`. -/
structure Stage (w : Writes) (r : ℕ) (g : Shared sql Database Call) (p : Writes)
    (L : List (Lock Resource)) : Prop where
  writes : p = w
  missed : data.idempotencyKey ∈ w.missed
  owned : Owned g p L
  /-- The key is still unused, where commits beside its lookup are excluded. -/
  unused : serial = true → g.store.transactionByKey data.idempotencyKey = none
  /-- All locks come before `r` in the order. -/
  below : ∀ l ∈ L, lockOrder.rank l.resource < r

/-- The clearing account has been found or created. -/
structure Cleared (clearing : Account) (w : Writes) (r : ℕ) (g : Shared sql Database Call)
    (p : Writes) (L : List (Lock Resource)) : Prop extends Stage serial data w r g p L where
  opened : g.store.openedAccounts gen = w.accounts
  clearing : g.store.clearingAccount gen = clearing

/-- The accounts of the request are known. -/
structure Posted (post : Posting) (w : Writes) (r : ℕ) (g : Shared sql Database Call) (p : Writes)
    (L : List (Lock Resource)) : Prop extends Stage serial data w r g p L where
  opened : w.accounts = post.opened
  posting : g.store.posting data gen = some post

/-- The accounts of the request exist and their rows are locked. -/
structure Locked (post : Posting) (w : Writes) (r : ℕ) (g : Shared sql Database Call) (p : Writes)
    (L : List (Lock Resource)) : Prop extends Posted serial data gen post w r g p L where
  debit_lock : Lock.excl (.accountRow post.debit) ∈ L
  credit_lock : Lock.excl (.accountRow post.credit) ∈ L
  debit_mem : post.debit ∈ (g.store.accounts ++ post.opened).map (·.id)
  credit_mem : post.credit ∈ (g.store.accounts ++ post.opened).map (·.id)

/-- The debited account can pay. -/
structure Funded (post : Posting) (w : Writes) (r : ℕ) (g : Shared sql Database Call) (p : Writes)
    (L : List (Lock Resource)) : Prop extends Locked serial data gen post w r g p L where
  funds : data.type ≠ .deposit → ¬ readAmount (g.store.balance post.debit) < data.amount

/-- The chain lock is held. -/
structure Chaining (post : Posting) (w : Writes) (g : Shared sql Database Call) (p : Writes)
    (L : List (Lock Resource)) : Prop
    extends Funded serial data gen post w (lastRank + 4) g p L where
  chain_lock : Lock.excl (.advisory chainLockKey) ∈ L

/-- The tip of the chain is known. -/
structure AtTip (post : Posting) (prev : Option (Transaction ℤ)) (w : Writes)
    (g : Shared sql Database Call) (p : Writes) (L : List (Lock Resource)) : Prop
    extends Chaining serial data gen post w g p L where
  tip : g.store.chain.getLast? = prev

variable (H : HexHash)

/-- What is committed when `create_transaction` returns `txn`: the transaction with the request's
key and hash. -/
def Returns (txn : Transaction Decimal) : LedgerAssn := fun g _ _ =>
  ∃ row ∈ g.store.transactions, row.idempotencyKey = data.idempotencyKey ∧
    row.requestHash = requestHash H data ∧ txn = row.load

/-- Why `create_transaction` raises: its key is in use for another request, or it has looked up its
key in vain and raises no error of the chain and, where commits beside its lookup are excluded, none
of the key. -/
def Raises (e : Exn) : LedgerAssn := fun g p _ =>
  (e = .http 409 "Idempotency key already used with different parameters" ∧
    ∃ row ∈ g.store.transactions, row.idempotencyKey = data.idempotencyKey ∧
      row.requestHash ≠ requestHash H data) ∨
  ((∀ seq, e ≠ .uniqueViolation (.transactionsChainSeq seq)) ∧ data.idempotencyKey ∈ p.missed ∧
    (serial = true → (∀ key, e ≠ .uniqueViolation (.transactionsIdempotencyKey key)) ∧
      g.store.transactionByKey data.idempotencyKey = none))

end Assertions

/-! ## Stability -/

section Stability

variable {inv : Shared sql Database Call → Prop} {serial : Bool} {data : TransactionCreate}
  {gen : Generated} {post : Posting} {w : Writes} {r : ℕ}

/-- The accounts of a request depend on the clearing account, and those of a transfer on nothing. -/
theorem posting_congr {db db' : Database} (h : data.type ≠ .transfer →
    db'.accountByName externalClearingName = db.accountByName externalClearingName) :
    db'.posting data gen = db.posting data gen := by
  unfold Database.posting
  cases htype : data.type with
  | deposit =>
      have := h (by rw [htype]; decide)
      simp only [Database.openedAccounts, Database.clearingAccount, this]
  | withdrawal =>
      have := h (by rw [htype]; decide)
      simp only [Database.openedAccounts, Database.clearingAccount, this]
  | transfer => rfl

/-- A request other than a transfer opens the clearing account if it is not there. -/
theorem opened_eq_openedAccounts {db : Database} (h : db.posting data gen = some post)
    (htype : data.type ≠ .transfer) : post.opened = db.openedAccounts gen := by
  cases posts_of_posting h with
  | deposit => rfl
  | withdrawal => rfl
  | transfer hcase => exact absurd hcase htype

/-- A session that opens the clearing account holds the lock on its name. -/
theorem Owned.name_locked {g : Shared sql Database Call} {p : Writes} {L : List (Lock Resource)}
    (gen : Generated) (h : Owned g p L) (hopened : p.accounts = g.store.openedAccounts gen)
    (hnone : g.store.accountByName externalClearingName = none) :
    Lock.excl (.index (.accountsName externalClearingName)) ∈ L := by
  refine h.locked _ (Database.mem_uniqueKeys.mpr (Or.inl ⟨newClearingAccount gen, ?_, ?_⟩))
  · show _ ∈ p.accounts
    rw [hopened, Database.openedAccounts, hnone]
    exact List.mem_cons_self
  · simp [Account.uniqueKeys, newClearingAccount]

theorem stable_stage : (ledgerContract inv serial).Stable (Stage serial data w r) := by
  rintro g g' p L hg hg' hrely ⟨hwrites, hmissed, howned, hunused, hbelow⟩
  refine ⟨hwrites, hmissed, stable_owned hg hg' hrely howned, fun hserial => ?_, hbelow⟩
  obtain ⟨v, hv, hstore⟩ := hrely
  rw [hstore]
  exact hv.transactionByKey_view hserial (hwrites ▸ hmissed) (hunused hserial)

theorem stable_cleared {clearing : Account} :
    (ledgerContract inv serial).Stable (Cleared serial data gen clearing w r) := by
  rintro g g' p L hg hg' hrely ⟨hstage, hopened, hclearing⟩
  have hstage' := stable_stage hg hg' hrely hstage
  obtain ⟨v, hv, hstore⟩ := hrely
  -- the lookup of the clearing account has found it, or its name is locked
  have hname : (g.store.view v).accountByName externalClearingName =
      g.store.accountByName externalClearingName := hv.clearing_view fun hnone =>
    hstage.owned.name_locked gen (by rw [hstage.writes, hopened]) hnone
  rw [← hstore] at hname
  refine ⟨hstage', ?_, ?_⟩
  · rw [← hopened, Database.openedAccounts, Database.openedAccounts, hname]
  · rw [← hclearing, Database.clearingAccount, Database.clearingAccount, hname]

theorem stable_posted : (ledgerContract inv serial).Stable (Posted serial data gen post w r) := by
  rintro g g' p L hg hg' hrely ⟨hstage, hopened, hposting⟩
  refine ⟨stable_stage hg hg' hrely hstage, hopened, ?_⟩
  obtain ⟨v, hv, hstore⟩ := hrely
  rw [hstore, posting_congr, hposting]
  intro htype
  refine hv.clearing_view fun hnone => hstage.owned.name_locked gen ?_ hnone
  rw [hstage.writes, hopened, opened_eq_openedAccounts hposting htype]

theorem stable_locked : (ledgerContract inv serial).Stable (Locked serial data gen post w r) := by
  rintro g g' p L hg hg' hrely ⟨hposted, hdebit, hcredit, hdebit', hcredit'⟩
  refine ⟨stable_posted hg hg' hrely hposted, hdebit, hcredit, ?_, ?_⟩
  all_goals
    -- accounts that were there still are
    obtain ⟨v, hv, hstore⟩ := hrely
    rw [hstore, Database.view_accounts]
    simp only [List.map_append, List.mem_append] at *
    tauto

theorem stable_funded : (ledgerContract inv serial).Stable (Funded serial data gen post w r) := by
  rintro g g' p L hg hg' hrely ⟨hlocked, hfunds⟩
  refine ⟨stable_locked hg hg' hrely hlocked, fun htype => ?_⟩
  obtain ⟨v, hv, hstore⟩ := hrely
  -- nobody adds an entry to an account whose row is locked here
  rw [hstore, hv.balance_view hlocked.debit_lock]
  exact hfunds htype

theorem stable_chaining : (ledgerContract inv serial).Stable (Chaining serial data gen post w) := by
  rintro g g' p L hg hg' hrely ⟨hfunded, hlock⟩
  exact ⟨stable_funded hg hg' hrely hfunded, hlock⟩

theorem stable_atTip {prev : Option (Transaction ℤ)} :
    (ledgerContract inv serial).Stable (AtTip serial data gen post prev w) := by
  rintro g g' p L hg hg' hrely ⟨hchaining, htip⟩
  refine ⟨stable_chaining hg hg' hrely hchaining, ?_⟩
  obtain ⟨v, hv, hstore⟩ := hrely
  -- nobody adds a transaction while the chain lock is held here
  rw [hstore, hv.chain_view hchaining.chain_lock, htip]

variable {H : HexHash}

theorem stable_returns (txn : Transaction Decimal) :
    (ledgerContract inv serial).Stable (Returns data H txn) := by
  rintro g g' p L - - ⟨v, hv, hstore⟩ ⟨row, hrow, h⟩
  refine ⟨row, ?_, h⟩
  rw [hstore, Database.view_transactions hv.rechained]
  exact List.mem_append_left _ hrow

theorem stable_raises (e : Exn) : (ledgerContract inv serial).Stable (Raises serial data H e) := by
  rintro g g' p L - - ⟨v, hv, hstore⟩ (⟨he, row, hrow, h⟩ | ⟨he, hmissed, hserial⟩)
  · refine Or.inl ⟨he, row, ?_, h⟩
    rw [hstore, Database.view_transactions hv.rechained]
    exact List.mem_append_left _ hrow
  · refine Or.inr ⟨he, hmissed, fun hs => ⟨(hserial hs).1, ?_⟩⟩
    rw [hstore]
    exact hv.transactionByKey_view hs hmissed (hserial hs).2

end Stability

/-! ## Rules for statements -/

section Rules

/-- A statement fails on a unique key or takes effect. -/
theorem triple_execute {κ : Type} {C : Contract sql Database Writes Resource κ} {call : κ}
    {stmt : Stmt} {P : Assn sql Database Writes Resource κ}
    {R : stmt.Reply → Assn sql Database Writes Resource κ}
    {E : Exn → Assn sql Database Writes Resource κ} (hP : C.Stable P) (hR : ∀ r, C.Stable (R r))
    (hready : ∀ g p L, P g p L → C.ready L stmt)
    (hfail : ∀ g p L k, P g p L → violation g.store p stmt = some k → E (.uniqueViolation k) g p [])
    (hperform : ∀ g p L L', P g p L → L ⊆ L' → L' ⊆ L ++ stmt.footprint →
      postgres.requests g.store p stmt ⊆ L' → violation g.store p stmt = none →
        match perform g.store p stmt with
        | .ok (r, p') => R r g p' L'
        | .error e => E e g p []) :
    C.Triple postgres call R E (execute stmt) P := by
  refine Contract.Triple.stmt hP hR (fun g p L _ h => hready g p L h) ?_
  intro g p L L' _ h hL hreq hL'
  cases hviol : violation g.store p stmt with
  | some key =>
      rw [exec_of_violation hviol]
      exact hfail g p L key h hviol
  | none =>
      have hpost := hperform g p L L' h hL hL' hreq hviol
      rw [exec_of_free hviol]
      cases hperf : perform g.store p stmt with
      | ok rp => rw [hperf] at hpost; exact hpost
      | error e => rw [hperf] at hpost; exact hpost

variable {inv : Shared sql Database Call → Prop} {serial : Bool} {call : Call} {stmt : Stmt}
  {R : stmt.Reply → LedgerAssn} {E : Exn → LedgerAssn} {P : LedgerAssn}

/-- A query takes no locks and does not fail. -/
theorem triple_query (hkeys : stmt.uniqueKeys = []) (hfoot : stmt.footprint = [])
    (hP : (ledgerContract inv serial).Stable P) (hR : ∀ r, (ledgerContract inv serial).Stable (R r))
    (hperform : ∀ g p L L', P g p L → L ⊆ L' → L' ⊆ L →
      ∃ r p', perform g.store p stmt = .ok (r, p') ∧ R r g p' L') :
    (ledgerContract inv serial).Triple postgres call R E (execute stmt) P := by
  refine triple_execute hP hR ?_ ?_ ?_
  · intro g p L _
    show lockOrder.Ordered L stmt.footprint
    rw [hfoot]
    trivial
  · intro g p L k _ hviol
    have := firstTaken_mem hviol
    rw [hkeys] at this
    cases this
  · intro g p L L' h hL hL' _ _
    rw [hfoot, List.append_nil] at hL'
    obtain ⟨r, p', hperf, hpost⟩ := hperform g p L L' h hL hL'
    rw [hperf]
    exact hpost

/-- A statement that adds keys holds their locks afterwards, and violates none of them. -/
theorem triple_insert (hrow : ∀ id, stmt ≠ .selectAccountForUpdate id)
    (hP : (ledgerContract inv serial).Stable P) (hR : ∀ r, (ledgerContract inv serial).Stable (R r))
    (hready : ∀ g p L, P g p L → lockOrder.Ordered L stmt.footprint)
    (hfail : ∀ g p L k, P g p L → k ∈ stmt.uniqueKeys →
      violation g.store p stmt = some k → E (.uniqueViolation k) g p [])
    (hperform : ∀ g p L L', P g p L → L ⊆ L' → L' ⊆ L ++ stmt.footprint → stmt.footprint ⊆ L' →
      violation g.store p stmt = none →
        ∃ r p', perform g.store p stmt = .ok (r, p') ∧ R r g p' L') :
    (ledgerContract inv serial).Triple postgres call R E (execute stmt) P := by
  refine triple_execute hP hR hready ?_ ?_
  · exact fun g p L k h hviol => hfail g p L k h (firstTaken_mem hviol) hviol
  · intro g p L L' h hL hL' hreq hviol
    have hengaged : postgres.engaged g.store p stmt = true := by
      simp only [postgres, engaged, hviol, Option.isNone_none, Bool.true_and]
    rw [Store.requests, if_pos hengaged] at hreq
    obtain ⟨r, p', hperf, hpost⟩ := hperform g p L L' h hL hL' hreq hviol
    rw [hperf]
    exact hpost

/-- An advisory lock is held afterwards. -/
theorem triple_advisoryXactLock {key : ℕ} {P' : LedgerAssn}
    (hP : (ledgerContract inv serial).Stable P) (hP' : (ledgerContract inv serial).Stable P')
    (hready : ∀ g p L, P g p L → lockOrder.Admissible L (.excl (.advisory key)))
    (hpost : ∀ g p L L', P g p L → L ⊆ L' → L' ⊆ L ++ [.excl (.advisory key)] →
      .excl (.advisory key) ∈ L' → P' g p L') :
    (ledgerContract inv serial).Triple postgres call (fun _ => P') E
      (execute (.advisoryXactLock key)) P := by
  refine triple_insert nofun hP (fun _ => hP') (fun g p L h => ⟨hready g p L h, trivial⟩) nofun ?_
  intro g p L L' h hL hL' hlocks _
  exact ⟨(), p, rfl, hpost g p L L' h hL hL' (hlocks (by simp [Stmt.footprint]))⟩

end Rules

/-! ## The lookup of the clearing account -/

section Functions

variable {inv : Shared sql Database Call → Prop} {serial : Bool} {H : HexHash} {call : Call}
  {data : TransactionCreate} {gen : Generated} {post : Posting} {w : Writes} {r : ℕ}
  {g : Shared sql Database Call} {p : Writes} {L L' : List (Lock Resource)}

/-- A stage under more locks. -/
theorem Stage.relock {r' : ℕ} (h : Stage serial data w r g p L) (hL : L ⊆ L')
    (hbelow : ∀ l ∈ L', lockOrder.rank l.resource < r') : Stage serial data w r' g p L' :=
  ⟨h.writes, h.missed, ⟨h.owned.rechained, h.owned.nodup, fun k hk => hL (h.owned.locked k hk),
    h.owned.absent⟩, h.unused, hbelow⟩

/-- An error that is none of the chain and none of the key. -/
theorem Stage.raises {e : Exn} (h : Stage serial data w r g p L)
    (hseq : ∀ seq, e ≠ .uniqueViolation (.transactionsChainSeq seq))
    (hkey : ∀ key, e ≠ .uniqueViolation (.transactionsIdempotencyKey key)) :
    Raises serial data H e g p L' :=
  Or.inr ⟨hseq, h.writes ▸ h.missed, fun hserial => ⟨hkey, h.unused hserial⟩⟩

theorem triple_selectClearingAccount (gen : Generated) (hr : r ≤ 3) :
    (ledgerContract inv serial).Triple postgres call
      (fun account => match account with
        | some account => Cleared serial data gen account (lookedUp data []) 3
        | none => Stage serial data (lookedUp data []) r)
      (Raises serial data H) selectClearingAccount (Stage serial data (lookedUp data []) r) := by
  refine triple_query rfl rfl stable_stage (fun account => ?_) ?_
  · cases account with
    | some account => exact stable_cleared
    | none => exact stable_stage
  · intro g p L L' h hL hL'
    refine ⟨_, p, rfl, ?_⟩
    -- the session has opened no account, so it sees the committed ones
    have hview : (g.store.view p).accountByName externalClearingName =
        g.store.accountByName externalClearingName := by
      rw [h.writes, Database.accountByName, Database.view_accounts]
      exact congrArg _ (List.append_nil _)
    rw [hview]
    cases hfound : g.store.accountByName externalClearingName with
    | none => exact h.relock hL fun l hl => h.below l (hL' hl)
    | some account =>
        refine ⟨h.relock hL fun l hl => (h.below l (hL' hl)).trans_le hr, ?_, ?_⟩
        · rw [Database.openedAccounts, hfound]
          rfl
        · rw [Database.clearingAccount, hfound]
          rfl

/-- Rows whose keys have just been added, under their locks, are owned. -/
theorem Owned.add {stmt : Stmt} {p' : Writes} (h : Owned g p L) (hL : L ⊆ L')
    (hrechained : p'.rechained = [])
    (hrows : p'.rows.uniqueKeys.Perm (p.rows.uniqueKeys ++ stmt.uniqueKeys))
    (hlocks : stmt.footprint ⊆ L') (hviol : violation g.store p stmt = none) : Owned g p' L' := by
  obtain ⟨hnodup, hnew⟩ := (violation_eq_none_iff h.rechained).mp hviol
  refine ⟨hrechained, ?_, fun k hk => ?_, fun k hk => ?_⟩
  · rw [hrows.nodup_iff, List.nodup_append]
    exact ⟨h.nodup, hnodup, fun k hk k' hk' hkk => (hnew k' hk').2 (hkk ▸ hk)⟩
  · rcases List.mem_append.mp (hrows.mem_iff.mp hk) with hk | hk
    · exact hL (h.locked k hk)
    · exact hlocks (Stmt.index_mem_footprint hk)
  · rcases List.mem_append.mp (hrows.mem_iff.mp hk) with hk | hk
    · exact h.absent k hk
    · exact (hnew k hk).1

/-- The locks of a session after a statement come before `r` if its own do and those it held. -/
theorem below_append {fp : List (Lock Resource)} (hL' : L' ⊆ L ++ fp)
    (hL : ∀ l ∈ L, lockOrder.rank l.resource < r) (hfp : ∀ l ∈ fp, lockOrder.rank l.resource < r) :
    ∀ l ∈ L', lockOrder.rank l.resource < r := fun l hl =>
  (List.mem_append.mp (hL' hl)).elim (hL l) (hfp l)

/-- The clearing account is created under the locks on its keys. -/
theorem triple_insertClearingAccount :
    (ledgerContract inv serial).Triple postgres call
      (fun _ => Cleared serial data gen (newClearingAccount gen)
        (lookedUp data [newClearingAccount gen]) 3)
      (Raises serial data H) (execute (.insertAccount (newClearingAccount gen)))
      (Stage serial data (lookedUp data []) 1) := by
  refine triple_insert nofun stable_stage (fun _ => stable_cleared) ?_ ?_ ?_
  · intro g p L h
    have hL : ∀ l ∈ L, lockOrder.rank l.resource < 1 := h.below
    refine ⟨⟨Or.inr hL, nofun⟩, ⟨Or.inr fun l hl => ?_, nofun⟩, trivial⟩
    rcases List.mem_append.mp hl with hl | hl
    · exact (hL l hl).trans Nat.one_lt_two
    · rw [List.mem_singleton.mp hl]
      exact Nat.one_lt_two
  · intro g p L k h hk _
    -- the keys of an account are none of a transaction
    refine h.raises ?_ ?_ <;> rintro x ⟨⟩ <;> simp [Stmt.uniqueKeys, Account.uniqueKeys] at hk
  · intro g p L L' h hL hL' hlocks hviol
    obtain ⟨-, hnew⟩ := (violation_eq_none_iff h.owned.rechained).mp hviol
    -- the name was new, so there is no clearing account but the inserted one
    have hnone : g.store.accountByName externalClearingName = none :=
      Database.accountByName_eq_none_iff.mpr
        (hnew _ (by simp [Stmt.uniqueKeys, Account.uniqueKeys, newClearingAccount])).1
    refine ⟨(), lookedUp data [newClearingAccount gen], by rw [h.writes]; rfl, ?_, ?_, ?_⟩
    · refine ⟨rfl, List.mem_singleton_self _, ?_, h.unused, below_append hL' ?_ ?_⟩
      · exact h.owned.add hL rfl (by rw [h.writes]; exact perm_lookedUp) hlocks hviol
      · exact fun l hl => (h.below l hl).trans (by decide)
      · intro l hl
        simp only [Stmt.footprint, Stmt.uniqueKeys, Account.uniqueKeys, List.map_cons, List.map_nil,
          List.mem_cons, List.not_mem_nil, or_false] at hl
        rcases hl with rfl | rfl <;> simp [lockOrder]
    · rw [Database.openedAccounts, hnone]
      rfl
    · rw [Database.clearingAccount, hnone]
      rfl

/-- **`get_or_create_clearing_account`** leaves the clearing account found or created. -/
theorem triple_getOrCreateClearingAccount :
    (ledgerContract inv serial).Triple postgres call
      (fun clearing g p L => ∃ opened,
        Cleared serial data gen clearing (lookedUp data opened) 3 g p L)
      (Raises serial data H) (getOrCreateClearingAccount gen)
      (Stage serial data (lookedUp data []) 0) := by
  refine Contract.Triple.bind (triple_selectClearingAccount gen (Nat.zero_le 3)) fun account => ?_
  cases account with
  | some account =>
      exact Contract.Triple.ret stable_cleared fun g p L h => ⟨[], h⟩
  | none =>
      -- the advisory lock comes first of all in the order, and nothing is held yet
      refine Contract.Triple.bind (R := fun _ => Stage serial data (lookedUp data []) 1)
        (triple_advisoryXactLock stable_stage stable_stage ?_ ?_) fun _ => ?_
      · exact fun g p L h => ⟨Or.inr fun l hl => h.below l hl, nofun⟩
      · refine fun g p L L' h hL hL' _ => h.relock hL (below_append hL' ?_ ?_)
        · exact fun l hl => (h.below l hl).trans Nat.zero_lt_one
        · exact fun l hl => by rw [List.mem_singleton.mp hl]; exact Nat.zero_lt_one
      refine Contract.Triple.bind (triple_selectClearingAccount gen (by decide)) fun account => ?_
      cases account with
      | some account =>
          exact Contract.Triple.ret stable_cleared fun g p L h => ⟨[], h⟩
      | none =>
          refine Contract.Triple.bind triple_insertClearingAccount fun _ => ?_
          exact Contract.Triple.ret stable_cleared fun g p L h => ⟨_, h⟩

/-! ## The row locks -/

/-- A session that locks account rows: those of `ids` are still to be locked, those of `done` are
locked and exist. -/
structure Locking (serial : Bool) (data : TransactionCreate) (gen : Generated) (post : Posting)
    (w : Writes) (ids done : List UUID) (g : Shared sql Database Call) (p : Writes)
    (L : List (Lock Resource)) : Prop
    extends Posted serial data gen post w lastRank g p L where
  order : ∀ id ∈ ids, ∀ l ∈ L,
    lockOrder.rank l.resource < 3 + id.val ∨ Lock.excl (.accountRow id) ∈ L
  locked : ∀ id ∈ done, Lock.excl (.accountRow id) ∈ L ∧
    id ∈ (g.store.accounts ++ post.opened).map (·.id)

theorem stable_locking {ids done : List UUID} :
    (ledgerContract inv serial).Stable (Locking serial data gen post w ids done) := by
  rintro g g' p L hg hg' hrely ⟨hposted, horder, hlocked⟩
  refine ⟨stable_posted hg hg' hrely hposted, horder, fun id hid => ⟨(hlocked id hid).1, ?_⟩⟩
  obtain ⟨v, hv, hstore⟩ := hrely
  have hmem := (hlocked id hid).2
  rw [hstore, Database.view_accounts]
  simp only [List.map_append, List.mem_append] at hmem ⊢
  tauto

/-- A stage with known accounts, under more locks. -/
theorem Posted.relock {r' : ℕ} (h : Posted serial data gen post w r g p L) (hL : L ⊆ L')
    (hbelow : ∀ l ∈ L', lockOrder.rank l.resource < r') :
    Posted serial data gen post w r' g p L' :=
  ⟨h.toStage.relock hL hbelow, h.opened, h.posting⟩

/-- Locking one row. -/
theorem triple_selectAccountForUpdate {id : UUID} {ids done : List UUID}
    (hsorted : ∀ id' ∈ ids, id ≤ id') :
    (ledgerContract inv serial).Triple postgres call
      (fun account => match account with
        | some _ => Locking serial data gen post w ids (done ++ [id])
        | none => Stage serial data w lastRank)
      (Raises serial data H) (execute (.selectAccountForUpdate id))
      (Locking serial data gen post w (id :: ids) done) := by
  refine triple_execute stable_locking (fun account => ?_) ?_ nofun ?_
  · cases account with
    | some account => exact stable_locking
    | none => exact stable_stage
  · intro g p L h
    refine ⟨⟨?_, nofun⟩, trivial⟩
    -- the row is locked already when both ids of the request are the same
    by_cases hlock : Lock.excl (.accountRow id) ∈ L
    · exact Or.inl (Or.inl hlock)
    · exact Or.inr fun l hl => (h.order id (by simp) l hl).resolve_right hlock
  · intro g p L L' h hL hL' hreq _
    have hbelow := below_append hL' h.below fun l hl => by
      rw [List.mem_singleton.mp hl]
      exact rank_accountRow_lt id
    dsimp only [perform]
    cases hfound : (g.store.view p).accountById id with
    | none => exact h.toStage.relock hL hbelow
    | some account =>
        have hlock : Lock.excl (.accountRow id) ∈ L' := by
          -- the row is there, so its lock has been taken
          have hengaged : postgres.engaged g.store p (.selectAccountForUpdate id) = true := by
            show (true && ((g.store.view p).accountById id).isSome) = true
            rw [hfound]
            rfl
          rw [Store.requests, if_pos hengaged] at hreq
          exact hreq (List.mem_singleton_self _)
        refine ⟨h.toPosted.relock hL hbelow, fun id' hid' l hl => ?_, fun id' hid' => ?_⟩
        · rcases List.mem_append.mp (hL' hl) with hl | hl
          · exact (h.order id' (by simp [hid']) l hl).imp_right fun hmem => hL hmem
          · rw [List.mem_singleton.mp hl]
            -- the ids that remain come after this one, or are this one again
            rcases (hsorted id' hid').lt_or_eq with hlt | rfl
            · exact Or.inl (Nat.add_lt_add_left hlt 3)
            · exact Or.inr hlock
        · rcases List.mem_append.mp hid' with hid' | hid'
          · exact ⟨hL (h.locked id' hid').1, (h.locked id' hid').2⟩
          · obtain rfl := List.mem_singleton.mp hid'
            refine ⟨hlock, ?_⟩
            have hsome := Option.isSome_iff_exists.mpr ⟨_, hfound⟩
            have hmem := Database.accountById_isSome_iff.mp hsome
            rwa [Database.view_accounts, h.writes, h.opened] at hmem

/-- **Loop**: the rows are locked one after the other, in the order of their ids. -/
theorem triple_lockEach {ids done : List UUID} (hsorted : ids.Pairwise (· ≤ ·)) :
    (ledgerContract inv serial).Triple postgres call
      (fun _ => Locking serial data gen post w [] (done ++ ids)) (Raises serial data H)
      (lockEach ids) (Locking serial data gen post w ids done) := by
  induction ids generalizing done with
  | nil =>
      rw [List.append_nil]
      exact Contract.Triple.ret stable_locking fun g p L h => h
  | cons id ids ih =>
      obtain ⟨hle, hsorted⟩ := List.pairwise_cons.mp hsorted
      refine Contract.Triple.bind (triple_selectAccountForUpdate hle) fun account => ?_
      cases account with
      | none =>
          -- `404`: no such account
          exact Contract.Triple.raise stable_stage fun g p L h => h.raises nofun nofun
      | some account =>
          have hdone : done ++ id :: ids = done ++ [id] ++ ids := by simp
          rw [hdone]
          refine Contract.Triple.bind (ih hsorted) fun _ => ?_
          exact Contract.Triple.ret stable_locking fun g p L h => h

/-- **`_lock_accounts`** leaves the rows of the request locked, when they exist. -/
theorem triple_lockAccounts {ids : List UUID} (hdebit : post.debit ∈ ids)
    (hcredit : post.credit ∈ ids) :
    (ledgerContract inv serial).Triple postgres call
      (fun _ => Locked serial data gen post w lastRank) (Raises serial data H)
      (lockAccounts ids) (Posted serial data gen post w 3) := by
  have hmem : ∀ id ∈ ids, id ∈ [] ++ ids.insertionSort (· ≤ ·) := fun id hid =>
    (List.mem_insertionSort _).mpr hid
  refine Contract.Triple.post (R := fun _ => Locking serial data gen post w []
    ([] ++ ids.insertionSort (· ≤ ·))) ?_ ?_
  · refine (triple_lockEach (List.pairwise_insertionSort (· ≤ ·) ids)).pre stable_posted ?_
    intro g p L _ h
    refine ⟨h.relock (List.Subset.refl _) fun l hl => (h.below l hl).trans three_lt_lastRank, ?_,
      nofun⟩
    -- no row is locked yet, so any of them may be the first
    exact fun id _ l hl => Or.inl ((h.below l hl).trans_le (Nat.le_add_right 3 _))
  · intro _ g p L h
    obtain ⟨hd, hd'⟩ := h.locked post.debit (hmem _ hdebit)
    obtain ⟨hc, hc'⟩ := h.locked post.credit (hmem _ hcredit)
    exact ⟨h.toPosted, hd, hc, hd', hc'⟩

/-! ## The branches -/

/-- A stage with locked rows, under more locks. -/
theorem Funded.relock {r' : ℕ} (h : Funded serial data gen post w r g p L) (hL : L ⊆ L')
    (hbelow : ∀ l ∈ L', lockOrder.rank l.resource < r') :
    Funded serial data gen post w r' g p L' :=
  ⟨⟨h.toPosted.relock hL hbelow, hL h.debit_lock, hL h.credit_lock, h.debit_mem, h.credit_mem⟩,
    h.funds⟩

/-- A balance that suffices goes on to suffice under the row lock. -/
theorem stable_balance (balance : Decimal) : (ledgerContract inv serial).Stable fun g p L =>
    Locked serial data gen post w r g p L ∧
      (¬ balance < data.amount →
        ¬ readAmount (g.store.balance post.debit) < data.amount) := by
  rintro g g' p L hg hg' hrely ⟨hlocked, hfunds⟩
  refine ⟨stable_locked hg hg' hrely hlocked, fun hbalance => ?_⟩
  obtain ⟨v, hv, hstore⟩ := hrely
  rw [hstore, hv.balance_view hlocked.debit_lock]
  exact hfunds hbalance

/-- **`compute_balance`** under the row lock. -/
theorem triple_computeBalance (hw : w.ledgerEntries = []) :
    (ledgerContract inv serial).Triple postgres call
      (fun balance g p L => Locked serial data gen post w r g p L ∧
        (¬ balance < data.amount → ¬ readAmount (g.store.balance post.debit) < data.amount))
      (Raises serial data H) (computeBalance post.debit) (Locked serial data gen post w r) := by
  refine triple_query rfl rfl stable_locked (fun balance => stable_balance balance) ?_
  · intro g p L L' h hL hL'
    have hamounts : (g.store.view p).amounts post.debit = g.store.amounts post.debit :=
      Database.amounts_view (by rw [h.writes, hw]) _
    refine ⟨_, p, rfl, ⟨h.toPosted.relock hL fun l hl => h.below l (hL' hl), hL h.debit_lock,
      hL h.credit_lock, h.debit_mem, h.credit_mem⟩, fun hbalance => ?_⟩
    rw [coalesceSum_lt_iff, hamounts] at hbalance
    exact hbalance

/-- The transaction is inserted under the locks on its keys. -/
theorem triple_addTransaction {debit credit : UUID} :
    (ledgerContract inv serial).Triple postgres call
      (fun x g p L => x = (newTransaction H data gen, newEntries data gen debit credit) ∧
        Funded serial data gen post (recorded H data gen post) (lastRank + 2) g p L)
      (Raises serial data H) (addTransaction H data gen debit credit)
      (Funded serial data gen post (lookedUp data post.opened) lastRank) := by
  have hkeys : (Stmt.insertTransaction (newTransaction H data gen).flush).uniqueKeys =
      [.transactionsPkey gen.transactionId, .transactionsIdempotencyKey data.idempotencyKey] := rfl
  refine Contract.Triple.bind (R := fun _ =>
    Funded serial data gen post (recorded H data gen post) (lastRank + 2)) ?_ fun _ =>
      Contract.Triple.ret stable_funded fun g p L h => ⟨rfl, h⟩
  refine triple_insert nofun stable_funded (fun _ => stable_funded) ?_ ?_ ?_
  · intro g p L h
    have hL : ∀ l ∈ L, lockOrder.rank l.resource < lastRank := h.below
    refine ⟨⟨Or.inr hL, nofun⟩, ⟨Or.inr fun l hl => ?_, nofun⟩, trivial⟩
    rcases List.mem_append.mp hl with hl | hl
    · exact (hL l hl).trans (Nat.lt_succ_self _)
    · rw [List.mem_singleton.mp hl]
      exact Nat.lt_succ_self _
  · intro g p L k h hk hviol
    rw [hkeys] at hk
    refine Or.inr ⟨?_, h.writes ▸ h.missed, fun hserial => ⟨?_, h.unused hserial⟩⟩
    · rintro seq ⟨⟩
      simp at hk
    · -- the key is unused, so the violation is not its own
      rintro key ⟨⟩
      obtain rfl : key = data.idempotencyKey := by simpa using hk
      have hmem := firstTaken_taken hviol (by rw [hkeys]; simp)
      rcases (Database.mem_uniqueKeys_view h.owned.rechained).mp hmem with hmem | hmem
      · exact Database.transactionByKey_eq_none_iff.mp (h.unused hserial) hmem
      · rw [h.writes] at hmem
        simp only [lookedUp, Writes.rows, Database.uniqueKeys, List.flatMap_nil,
          List.append_nil] at hmem
        rcases mem_uniqueKeys_opened h.posting hmem with hk | hk <;> cases hk
  · intro g p L L' h hL hL' hlocks hviol
    have hbelow : ∀ l ∈ L', lockOrder.rank l.resource < lastRank + 2 := by
      refine below_append hL' (fun l hl => Nat.lt_add_right 2 (h.below l hl)) fun l hl => ?_
      simp only [Stmt.footprint, hkeys, List.map_cons, List.map_nil, List.mem_cons,
        List.not_mem_nil, or_false] at hl
      rcases hl with rfl | rfl
      · exact Nat.lt_add_of_pos_right Nat.zero_lt_two
      · exact Nat.lt_succ_self (lastRank + 1)
    refine ⟨(), recorded H data gen post, by rw [h.writes]; rfl, ⟨⟨⟨?_, rfl, h.posting⟩,
      hL h.debit_lock, hL h.credit_lock, h.debit_mem, h.credit_mem⟩, h.funds⟩⟩
    refine ⟨rfl, List.mem_singleton_self _, ?_, h.unused, hbelow⟩
    exact h.owned.add hL rfl (by rw [h.writes]; exact perm_recorded) hlocks hviol

/-- The end of a branch that checks the balance. -/
theorem triple_checkBalance :
    (ledgerContract inv serial).Triple postgres call
      (fun x g p L => x = (newTransaction H data gen,
          newEntries data gen post.debit post.credit) ∧
        Funded serial data gen post (recorded H data gen post) (lastRank + 2) g p L)
      (Raises serial data H)
      (computeBalance post.debit >>= fun balance =>
        if balance < data.amount then httpError 422 "Insufficient balance"
        else addTransaction H data gen post.debit post.credit)
      (Locked serial data gen post (lookedUp data post.opened) lastRank) := by
  refine Contract.Triple.bind (triple_computeBalance rfl) fun balance => ?_
  split
  case isTrue =>
    -- `422`: the balance does not suffice
    exact Contract.Triple.raise (stable_balance balance) fun g p L h => h.1.raises nofun nofun
  case isFalse hbalance =>
    -- the balance suffices, and goes on to under the row lock
    refine triple_addTransaction.pre (stable_balance balance) ?_
    intro g p L _ h
    exact ⟨h.1, fun _ => h.2 hbalance⟩

/-- A branch locks its accounts and goes on under the locks. -/
theorem triple_lockAccounts_bind {α : Type} {Q : α → LedgerAssn} {x : Prog sql α} {ids : List UUID}
    (hdebit : post.debit ∈ ids) (hcredit : post.credit ∈ ids)
    (hx : (ledgerContract inv serial).Triple postgres call Q (Raises serial data H) x
      (Locked serial data gen post (lookedUp data post.opened) lastRank)) :
    (ledgerContract inv serial).Triple postgres call Q (Raises serial data H)
      (lockAccounts ids >>= fun _ => x)
      (Posted serial data gen post (lookedUp data post.opened) 3) :=
  Contract.Triple.bind (triple_lockAccounts hdebit hcredit) fun _ => hx

/-- A branch with the clearing account: once the account is there, the accounts of the request are
known. -/
theorem triple_clearing_bind {α : Type} {Q : α → LedgerAssn} {f : Account → Prog sql α}
    (post : List Account → Account → Posting)
    (hopened : ∀ opened clearing, (post opened clearing).opened = opened)
    (hposting : ∀ db : Database, db.posting data gen =
      some (post (db.openedAccounts gen) (db.clearingAccount gen)))
    (hf : ∀ opened clearing, (ledgerContract inv serial).Triple postgres call Q
      (Raises serial data H) (f clearing) (Posted serial data gen (post opened clearing)
        (lookedUp data (post opened clearing).opened) 3)) :
    (ledgerContract inv serial).Triple postgres call Q (Raises serial data H)
      (getOrCreateClearingAccount gen >>= f) (Stage serial data (lookedUp data []) 0) := by
  refine Contract.Triple.bind triple_getOrCreateClearingAccount fun clearing => ?_
  refine Contract.Triple.exists fun opened => ?_
  refine (hf opened clearing).pre stable_cleared fun g p L _ h => ?_
  -- the accounts that the request would post to now are those it has found
  refine ⟨(hopened opened clearing).symm ▸ h.toStage, rfl, ?_⟩
  have hopen : g.store.openedAccounts gen = opened := h.opened
  rw [hposting, hopen, h.clearing]

/-- **The branches** leave the transaction of the request inserted, under all its locks. -/
theorem triple_recordTransaction :
    (ledgerContract inv serial).Triple postgres call
      (fun x g p L => ∃ post, x = (newTransaction H data gen,
          newEntries data gen post.debit post.credit) ∧
        Funded serial data gen post (recorded H data gen post) (lastRank + 2) g p L)
      (Raises serial data H) (recordTransaction H data gen)
      (Stage serial data (lookedUp data []) 0) := by
  unfold recordTransaction
  cases htype : data.type with
  | deposit =>
      unfold deposit
      cases haccount : data.accountId with
      | none => exact Contract.Triple.raise stable_stage fun g p L h => h.raises nofun nofun
      | some id =>
          refine triple_clearing_bind (fun opened clearing => ⟨opened, clearing.id, id⟩)
            (fun _ _ => rfl) (fun db => ?_) fun opened clearing => ?_
          · simp only [Database.posting, htype, haccount, Option.map_some]
          · refine triple_lockAccounts_bind (by simp) (by simp) ?_
            -- a deposit is not asked for funds
            refine (triple_addTransaction.pre stable_locked fun g p L _ h =>
              ⟨h, fun hne => absurd htype hne⟩).post fun x g p L h => ?_
            exact ⟨⟨opened, clearing.id, id⟩, h⟩
  | withdrawal =>
      unfold withdrawal
      cases haccount : data.accountId with
      | none => exact Contract.Triple.raise stable_stage fun g p L h => h.raises nofun nofun
      | some id =>
          refine triple_clearing_bind (fun opened clearing => ⟨opened, id, clearing.id⟩)
            (fun _ _ => rfl) (fun db => ?_) fun opened clearing => ?_
          · simp only [Database.posting, htype, haccount, Option.map_some]
          · refine triple_lockAccounts_bind (by simp) (by simp) ?_
            exact triple_checkBalance.post fun x g p L h => ⟨⟨opened, id, clearing.id⟩, h⟩
  | transfer =>
      unfold transfer
      cases hsource : data.fromAccountId with
      | none => exact Contract.Triple.raise stable_stage fun g p L h => h.raises nofun nofun
      | some source =>
          cases htarget : data.toAccountId with
          | none => exact Contract.Triple.raise stable_stage fun g p L h => h.raises nofun nofun
          | some target =>
              dsimp only
              split
              case isTrue =>
                exact Contract.Triple.raise stable_stage fun g p L h => h.raises nofun nofun
              case isFalse hne =>
                -- a transfer does not depend on the clearing account
                have hposting : ∀ db : Database, db.posting data gen =
                    some ⟨[], source, target⟩ := fun db => by
                  simp only [Database.posting, htype, hsource, htarget]
                  exact if_neg hne
                refine Contract.Triple.pre (P := Posted serial data gen ⟨[], source, target⟩
                  (lookedUp data []) 3) ?_ stable_stage fun g p L _ h => ?_
                · refine triple_lockAccounts_bind (by simp) (by simp) ?_
                  exact triple_checkBalance.post fun x g p L h => ⟨⟨[], source, target⟩, h⟩
                · refine ⟨h.relock (List.Subset.refl _) fun l hl => ?_, rfl, hposting _⟩
                  exact (h.below l hl).trans (Nat.succ_pos 2)

end Functions

end LedgerApi
