import LedgerApi.AuditSoundness
import LedgerApi.Growth
import LedgerApi.Library.Reading

/-! # The audit, statement by statement

Under READ COMMITTED each statement of `verify_ledger` sees the rows committed when it runs. On rows
that nobody changes the session `verifyLedgerSession` is the function `verifyLedger`
(`answered_verifyLedgerSession`). While others write, its
checks of sums and references pass at every moment, whatever the interleaving; the two that compare
the results of two statements pass exactly when no transaction was committed between the two
(`live_audit`). So an audit of a sound ledger raises a false alarm just when transactions are
recorded while it runs (`live_audit_fails_iff`). -/

namespace LedgerApi

open Sessions

/-! ## On rows that nobody changes -/

section Still

variable (db : Database)

theorem answered_accountDetailEach (accounts : List Account) :
    (accountDetailEach accounts).answered (AuditQuery.answer db) =
      .ok (accounts.map fun account =>
        ⟨account.id.str, account.name, (coalesceSum (db.amounts account.id)).str,
          (db.amounts account.id).length⟩) := by
  induction accounts with
  | nil => rfl
  | cons account accounts ih =>
      rw [accountDetailEach, Prog.answered_bind]
      show ((accountDetailEach accounts >>= fun details => _).answered _) = _
      rw [Prog.answered_bind, ih]
      rfl

/-- **The session is the audit**, when nobody writes meanwhile. -/
theorem answered_verifyLedgerSession :
    verifyLedgerSession.answered (AuditQuery.answer db) = .ok (verifyLedger db) := by
  show ((accountDetailEach db.accounts >>= fun details => _).answered _) = _
  rw [Prog.answered_bind, answered_accountDetailEach]
  rfl

theorem answered_verifyHashChainSession (H : HexHash) :
    (verifyHashChainSession H).answered (AuditQuery.answer db) = .ok (verifyHashChain H db) := by
  show Prog.answered _ (if db.chain = [] then _ else _) = _
  rw [verifyHashChain]
  split <;> rfl

end Still

/-! ## While others write -/

/-- What an audit of a sound ledger reports, whose last four counts meet the rows of four moments:
`accounts` are the accounts that were there before. -/
structure ReportsOn (accounts : List Account) (total unique entry txn : Database)
    (report : AuditReport) : Prop where
  status : report.status = .pass ↔
    unique.transactions = total.transactions ∧ txn.transactions = entry.transactions
  global_invariant : report.checks.globalInvariant.pass = true
  per_transaction_invariant : report.checks.perTransactionInvariant.pass = true
  referential_integrity : report.checks.referentialIntegrity.pass = true
  idempotency_uniqueness : report.checks.idempotencyUniqueness.pass = true ↔
    unique.transactions = total.transactions
  entry_count : report.checks.entryCount.pass = true ↔ txn.transactions = entry.transactions
  /-- Every account that was there has its line. -/
  accounts : accounts.map (·.id.str) <+: report.checks.accountBalances.details.map (·.accountId)
  /-- The only discrepancies there may be are those of the counts. -/
  discrepancies : report.discrepancies =
    (if unique.transactions = total.transactions then [] else
      ["Duplicate idempotency keys: " ++ toString total.transactions.length ++
        " transactions but only " ++ toString unique.transactions.length ++ " unique keys"]) ++
    (if txn.transactions = entry.transactions then [] else
      ["Expected " ++ toString (txn.transactions.length * 2) ++ " entries for " ++
        toString txn.transactions.length ++ " transactions, found " ++
        toString (entry.transactions.length * 2)])

variable {H : HexHash} {db total unique entry txn : Database}

/-- The figures of a consistent database that concern one statement each. -/
theorem Consistent.figures (h : Consistent H db) :
    db.globalSum.NumEq decimalZero ∧ db.unbalanced = [] ∧ db.orphanedEntries = 0 ∧
      db.orphanedAccounts = 0 ∧ db.distinctKeys = db.transactions.length := by
  have hfacts := h.auditFacts
  refine ⟨(globalSum_numEq_zero_iff db).mpr hfacts.global_sum,
    (unbalanced_eq_nil_iff db).mpr hfacts.balanced, ?_, ?_,
    ((length_eq_distinctKeys_iff db).mpr hfacts.keys).symm⟩
  · by_contra hpos
    exact (orphanedEntries_pos_iff db).mp (Nat.pos_of_ne_zero hpos) hfacts.transaction_refs
  · by_contra hpos
    exact (orphanedAccounts_pos_iff db).mp (Nat.pos_of_ne_zero hpos) hfacts.account_refs

/-- The report on such figures. -/
theorem reportsOn_auditReport {f : AuditFigures} {accounts : List Account}
    (hglobal : f.globalSum.NumEq decimalZero) (hunbalanced : f.unbalanced = [])
    (hentries : f.orphanedEntries = 0) (haccounts : f.orphanedAccounts = 0)
    (hdetails : accounts.map (·.id.str) <+: f.accountDetails.map (·.accountId))
    (htotal : f.totalKeys = total.transactions.length)
    (hunique : f.uniqueKeys = unique.transactions.length)
    (hentry : f.entryCount = entry.transactions.length * 2)
    (htxn : f.txnCount = txn.transactions.length)
    (hkeys : unique.transactions = total.transactions ↔
      unique.transactions.length = total.transactions.length)
    (hcounts : txn.transactions = entry.transactions ↔
      txn.transactions.length = entry.transactions.length) :
    ReportsOn accounts total unique entry txn (auditReport f) := by
  have hkeys' : f.totalKeys = f.uniqueKeys ↔ unique.transactions = total.transactions := by
    rw [htotal, hunique, hkeys, eq_comm]
  have hcounts' : f.entryCount = f.txnCount * 2 ↔ txn.transactions = entry.transactions := by
    rw [hentry, htxn, hcounts]
    omega
  constructor
  case status =>
    simp only [auditReport, hglobal, hunbalanced, hentries, haccounts, ← hkeys', ← hcounts']
    by_cases hk : f.totalKeys = f.uniqueKeys <;> by_cases hc : f.entryCount = f.txnCount * 2 <;>
      simp [hk, hc]
  case global_invariant => simp [auditReport, hglobal]
  case per_transaction_invariant => simp [auditReport, hunbalanced]
  case referential_integrity => simp [auditReport, hentries, haccounts]
  case idempotency_uniqueness => simp [auditReport, hkeys']
  case entry_count => simp [auditReport, hcounts']
  case accounts => exact hdetails
  case discrepancies =>
    simp only [auditReport, hglobal, hunbalanced, hentries, haccounts, ne_eq, hkeys', hcounts',
      ite_not, lt_irrefl, or_self, if_true, if_false, List.map_nil, List.append_nil,
      List.nil_append]
    rw [htotal, hunique, hentry, htxn]

section Along

variable {σ : Type} {rows : σ → Database} {R : σ → σ → Prop} {a b : σ}

/-- The evaluation of an audit along the moments of a run. -/
abbrev AuditAlong (rows : σ → Database) (R : σ → σ → Prop) {α : Type} (x : Prog auditReads α)
    (a : σ) (res : Except Exn α) (b : σ) : Prop :=
  Along (S := auditReads) (fun m q => AuditQuery.answer (rows m) q) R x a res b

/-- Between two moments with the same transactions there are no others. -/
theorem Moments.transactions_eq_between [IsTrans σ R] [Std.Refl R] (h : Moments H rows R a) {m : σ}
    (ham : R a m) (hmb : R m b) (hsame : (rows b).transactions = (rows a).transactions) :
    (rows m).transactions = (rows a).transactions := by
  have hbefore := (h.extends ham).transactions
  have hafter := ((h.later ham).extends hmb).transactions
  rw [hsame] at hafter
  exact (hbefore.eq_of_length (Nat.le_antisymm hbefore.length_le hafter.length_le)).symm

/-- A query of an audit is answered at some moment. -/
theorem auditAlong_query_bind_iff {α : Type} {q : AuditQuery} {f : q.Reply → Prog auditReads α}
    {res : Except Exn α} :
    AuditAlong rows R (auditQuery q >>= f) a res b ↔
      ∃ m, R a m ∧ AuditAlong rows R (f (q.answer (rows m))) m res b :=
  along_exec_iff

/-- As many transactions at two moments are the same transactions. -/
theorem Moments.transactions_eq_iff [Std.Refl R] (h : Moments H rows R a) (hab : R a b) :
    (rows b).transactions = (rows a).transactions ↔
      (rows b).transactions.length = (rows a).transactions.length :=
  ⟨congrArg List.length, (h.grows_to hab).transactions_eq h.consistent⟩

variable [IsTrans σ R]

/-- The line of an account. -/
theorem along_accountDetail {account : Account} {res : Except Exn AccountDetail}
    (h : AuditAlong rows R (accountDetail account) a res b) :
    ∃ detail, res = .ok detail ∧ detail.accountId = account.id.str ∧ R a b := by
  obtain ⟨m, ham, h⟩ := auditAlong_query_bind_iff.mp h
  obtain ⟨n, hmn, h⟩ := auditAlong_query_bind_iff.mp h
  obtain ⟨rfl, hnb⟩ := along_ret_iff.mp h
  exact ⟨_, rfl, rfl, IsTrans.trans _ _ _ ham (IsTrans.trans _ _ _ hmn hnb)⟩

variable [Std.Refl R]

/-- The lines of the accounts, each of which is looked up at its own moments. -/
theorem along_accountDetailEach {accounts : List Account} {res : Except Exn (List AccountDetail)}
    (h : AuditAlong rows R (accountDetailEach accounts) a res b) :
    ∃ details, res = .ok details ∧
      details.map (·.accountId) = accounts.map (·.id.str) ∧ R a b := by
  induction accounts generalizing a b res with
  | nil =>
      obtain ⟨rfl, hab⟩ := along_ret_iff.mp h
      exact ⟨[], rfl, rfl, hab⟩
  | cons account accounts ih =>
      rcases along_bind_iff.mp h with ⟨detail, m, hdetail, hrest⟩ | ⟨e, -, herror⟩
      · obtain ⟨detail', hok, hid, ham⟩ := along_accountDetail hdetail
        obtain rfl := Except.ok.inj hok
        rcases along_bind_iff.mp hrest with ⟨details, n, hdetails, hret⟩ | ⟨e, rfl, herror⟩
        · obtain ⟨details', hok, hids, hmn⟩ := ih hdetails
          obtain rfl := Except.ok.inj hok
          obtain ⟨rfl, hnb⟩ := along_ret_iff.mp hret
          refine ⟨_, rfl, ?_, IsTrans.trans _ _ _ ham (IsTrans.trans _ _ _ hmn hnb)⟩
          rw [List.map_cons, List.map_cons, hid, hids]
        · obtain ⟨details', hok, -⟩ := ih herror
          cases hok
      · obtain ⟨detail', hok, -⟩ := along_accountDetail herror
        cases hok

/-- **The audit of a sound ledger, while others write**: it meets its last counts at four moments
one after the other, and reports no discrepancy but between these. -/
theorem live_audit (h : Moments H rows R a) {res : Except Exn AuditReport}
    (haudit : AuditAlong rows R verifyLedgerSession a res b) :
    ∃ report total unique entry txn, res = .ok report ∧ R a total ∧ R total unique ∧
      R unique entry ∧ R entry txn ∧ R txn b ∧
      ReportsOn (rows a).accounts (rows total) (rows unique) (rows entry) (rows txn) report := by
  obtain ⟨m₁, h₁, haudit⟩ := auditAlong_query_bind_iff.mp haudit
  obtain ⟨m₂, h₂, haudit⟩ := auditAlong_query_bind_iff.mp haudit
  obtain ⟨m₃, h₃, haudit⟩ := auditAlong_query_bind_iff.mp haudit
  rcases along_bind_iff.mp haudit with ⟨details, m₄, hdetails, haudit⟩ | ⟨e, -, herror⟩
  · obtain ⟨details', hok, hids, h₄⟩ := along_accountDetailEach hdetails
    obtain rfl := Except.ok.inj hok
    obtain ⟨m₅, h₅, haudit⟩ := auditAlong_query_bind_iff.mp haudit
    obtain ⟨m₆, h₆, haudit⟩ := auditAlong_query_bind_iff.mp haudit
    obtain ⟨total, h₇, haudit⟩ := auditAlong_query_bind_iff.mp haudit
    obtain ⟨unique, h₈, haudit⟩ := auditAlong_query_bind_iff.mp haudit
    obtain ⟨entry, h₉, haudit⟩ := auditAlong_query_bind_iff.mp haudit
    obtain ⟨txn, h₁₀, haudit⟩ := auditAlong_query_bind_iff.mp haudit
    obtain ⟨rfl, h₁₁⟩ := along_ret_iff.mp haudit
    -- the moments, in their order
    have at₂ := IsTrans.trans _ _ _ h₁ h₂
    have at₃ := IsTrans.trans _ _ _ at₂ h₃
    have at₅ := IsTrans.trans _ _ _ at₃ (IsTrans.trans _ _ _ h₄ h₅)
    have at₆ := IsTrans.trans _ _ _ at₅ h₆
    have at₇ := IsTrans.trans _ _ _ at₆ h₇
    have at₈ := IsTrans.trans _ _ _ at₇ h₈
    have at₉ := IsTrans.trans _ _ _ at₈ h₉
    refine ⟨_, total, unique, entry, txn, rfl, at₇, h₈, h₉, h₁₀, h₁₁, ?_⟩
    apply reportsOn_auditReport
    · exact (h.later h₁).consistent.figures.1
    · exact (h.later at₂).consistent.figures.2.1
    · exact (h.later at₅).consistent.figures.2.2.1
    · exact (h.later at₆).consistent.figures.2.2.2.1
    · show _ <+: details.map (·.accountId)
      rw [hids]
      exact (h.extends at₃).accounts.map _
    · rfl
    · exact (h.later at₈).consistent.figures.2.2.2.2
    · exact (h.later at₉).consistent.entry_count
    · rfl
    · exact (h.later at₇).transactions_eq_iff h₈
    · exact (h.later at₉).transactions_eq_iff h₁₀
  · obtain ⟨details', hok, -⟩ := along_accountDetailEach herror
    cases hok

/-- An audit has nothing to commit. -/
theorem commitsAtMost_accountDetailEach (accounts : List Account) :
    (accountDetailEach accounts).CommitsAtMost 0 := by
  induction accounts with
  | nil => exact trivial
  | cons account accounts ih =>
      have hdetail : (accountDetail account).CommitsAtMost 0 := fun _ _ => trivial
      refine Prog.CommitsAtMost.zero_bind hdetail fun _ => ?_
      exact Prog.CommitsAtMost.zero_bind ih fun _ => trivial

theorem commitsAtMost_verifyLedgerSession : verifyLedgerSession.CommitsAtMost 0 := by
  intro globalSum unbalanced accounts
  show (accountDetailEach accounts >>= fun details => _ :
    Prog auditReads AuditReport).CommitsAtMost 0
  refine Prog.CommitsAtMost.zero_bind (commitsAtMost_accountDetailEach accounts) fun details => ?_
  intro orphanedEntries orphanedAccounts totalKeys uniqueKeys entryCount txnCount
  exact trivial

/-- An audit that counts more distinct keys than transactions fails. -/
theorem auditReport_fail {f : AuditFigures} (h : f.totalKeys ≠ f.uniqueKeys) :
    (auditReport f).status = .fail :=
  if_pos (Or.inr (Or.inr (Or.inr (Or.inl h))))

/-- The figures of an audit on the rows `db`, when they become `db'` before it counts the distinct
keys. -/
def lateFigures (db db' : Database) : AuditFigures where
  globalSum := db.globalSum
  unbalanced := db.unbalanced
  accountDetails := db.accountDetails
  orphanedEntries := db.orphanedEntries
  orphanedAccounts := db.orphanedAccounts
  totalKeys := db.transactions.length
  uniqueKeys := db'.distinctKeys
  entryCount := db'.ledgerEntries.length
  txnCount := db'.transactions.length

/-- Such an audit is possible. -/
theorem along_lateFigures (hab : R a b) :
    AuditAlong rows R verifyLedgerSession a
      (.ok (auditReport (lateFigures (rows a) (rows b)))) b := by
  have hdetails : AuditAlong rows R (accountDetailEach (rows a).accounts) a
      (.ok (rows a).accountDetails) a := by
    rw [Database.accountDetails, ← answered_accountDetailEach]
    exact along_answered (commitsAtMost_accountDetailEach _) a
  apply auditAlong_query_bind_iff.mpr ⟨a, Std.Refl.refl a, ?_⟩
  apply auditAlong_query_bind_iff.mpr ⟨a, Std.Refl.refl a, ?_⟩
  apply auditAlong_query_bind_iff.mpr ⟨a, Std.Refl.refl a, ?_⟩
  apply hdetails.bind
  apply auditAlong_query_bind_iff.mpr ⟨a, Std.Refl.refl a, ?_⟩
  apply auditAlong_query_bind_iff.mpr ⟨a, Std.Refl.refl a, ?_⟩
  apply auditAlong_query_bind_iff.mpr ⟨a, Std.Refl.refl a, ?_⟩
  apply auditAlong_query_bind_iff.mpr ⟨b, hab, ?_⟩
  apply auditAlong_query_bind_iff.mpr ⟨b, Std.Refl.refl b, ?_⟩
  apply auditAlong_query_bind_iff.mpr ⟨b, Std.Refl.refl b, ?_⟩
  exact .ret (Std.Refl.refl b)

/-- **False alarms**: an audit of a sound ledger can fail exactly when a transaction is committed
between its start and its end. -/
theorem live_audit_fails_iff (h : Moments H rows R a) :
    (∃ report, AuditAlong rows R verifyLedgerSession a (.ok report) b ∧ report.status = .fail) ↔
      R a b ∧ (rows b).transactions ≠ (rows a).transactions := by
  constructor
  · rintro ⟨report, haudit, hfail⟩
    refine ⟨haudit.rel, fun hsame => ?_⟩
    obtain ⟨report', total, unique, entry, txn, hok, h₁, h₂, h₃, h₄, h₅, hreport⟩ :=
      live_audit h haudit
    obtain rfl := Except.ok.inj hok
    have at₂ := IsTrans.trans _ _ _ h₁ h₂
    have at₃ := IsTrans.trans _ _ _ at₂ h₃
    have at₄ := IsTrans.trans _ _ _ at₃ h₄
    have hto₃ := IsTrans.trans _ _ _ h₄ h₅
    have hto₂ := IsTrans.trans _ _ _ h₃ hto₃
    have hto₁ := IsTrans.trans _ _ _ h₂ hto₂
    -- all four moments have the same transactions, so the audit has passed
    have hpass := hreport.status.mpr
      ⟨(h.transactions_eq_between at₂ hto₂ hsame).trans
          (h.transactions_eq_between h₁ hto₁ hsame).symm,
        (h.transactions_eq_between at₄ h₅ hsame).trans
          (h.transactions_eq_between at₃ hto₃ hsame).symm⟩
    rw [hfail] at hpass
    cases hpass
  · rintro ⟨hab, hne⟩
    refine ⟨_, along_lateFigures hab, auditReport_fail ?_⟩
    show (rows a).transactions.length ≠ (rows b).distinctKeys
    rw [(h.later hab).consistent.figures.2.2.2.2]
    exact fun hlength => hne ((h.transactions_eq_iff hab).mpr hlength.symm)

theorem depositRun_transactions :
    depositRun.map (fun w => w.shared.store.transactions.length) = some 1 := by
  decide +kernel

/-- An audit beside a deposit can fail. -/
theorem live_audit_fails_iff_depositRun :
    ∃ w, depositRun = some w ∧ ∃ report, AuditAlong id (Grows sha256) verifyLedgerSession
      sampleDatabase (.ok report) w.shared.store ∧ report.status = .fail := by
  obtain ⟨w, hw, htransactions⟩ := Option.map_eq_some_iff.mp depositRun_transactions
  have hinit : Consistent sha256 sampleDatabase :=
    consistent_of_api (.initial initial_sampleDatabase) .refl
  refine ⟨w, hw, (live_audit_fails_iff hinit.moments).mpr
    ⟨grows_of_api .refl (System.Reaches.of_run hw).reachable, fun hsame => ?_⟩⟩
  have hlength : w.shared.store.transactions.length = sampleDatabase.transactions.length :=
    congrArg List.length hsame
  rw [hlength] at htransactions
  cases htransactions

end Along

end LedgerApi
