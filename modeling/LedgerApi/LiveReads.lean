import LedgerApi.LiveAudit
import LedgerApi.Views

/-! # Reading, statement by statement

What the handlers that read answer while others write. Those that look up an account, a balance, a
statement, a batch of the outbox or the chain answer as on the rows of a single moment between their
start and their end (`LinearizableFrom`), although they issue several statements: an account that
was found stays, and the last statement decides. So do the listings, when their cursor is a row that
was there before. `status` counts each table at another moment (`live_status`). -/

namespace LedgerApi

open Sessions

variable {H : HexHash} {planner : Planner} {σ : Type} {rows : σ → Database} {R : σ → σ → Prop}
  {a b : σ}

/-- The evaluation of a handler along the moments of a run. -/
abbrev ReadAlong (planner : Planner) (rows : σ → Database) (R : σ → σ → Prop) {α : Type}
    (x : Prog reads α) (a : σ) (res : Except Exn α) (b : σ) : Prop :=
  Along (S := reads) (fun m q => Query.answer planner (rows m) q) R x a res b

/-- The handler answers as it does on the rows of one moment. -/
abbrev ReadsOnce (planner : Planner) (rows : σ → Database) (R : σ → σ → Prop) {α : Type}
    (x : Prog reads α) (a : σ) : Prop :=
  LinearizableFrom (S := reads) (fun m q => Query.answer planner (rows m) q) R x a

/-- What a handler answers on rows that nobody changes. -/
theorem read_eq_answered {α : Type} {x : Prog reads α} (hx : x.CommitsAtMost 0) (db : Database) :
    read planner db x = x.answered (Query.answer planner db) :=
  Prog.run_eq_answered (D := snapshot planner) (fun _ _ => rfl) hx ()

/-- What `get_balance` answers on them. -/
theorem answered_getBalance (planner : Planner) (db : Database) (accountId : UUID) :
    (getBalance accountId).answered (Query.answer planner db) =
      match db.accountById accountId with
      | none => .error (.http 404 "Account not found")
      | some _ => .ok ⟨accountId, coalesceSum (db.amounts accountId)⟩ := by
  have hfind : (findAccount accountId).answered (Query.answer planner db) =
      match db.accountById accountId with
      | none => .error (.http 404 "Account not found")
      | some account => .ok account := by
    cases hfound : db.accountById accountId with
    | none =>
        have hanswer : (Query.getAccount accountId).answer planner db = none := hfound
        rw [findAccount, query, Prog.answered_bind, Prog.stmt, Prog.answered, hanswer]
        rfl
    | some account =>
        have hanswer : (Query.getAccount accountId).answer planner db = some account := hfound
        rw [findAccount, query, Prog.answered_bind, Prog.stmt, Prog.answered, hanswer]
        rfl
  rw [getBalance, Prog.answered_bind, hfind]
  cases db.accountById accountId <;> rfl

/-- The verifier counts the rows of the chain. -/
theorem chainLength_verifyHashChain (H : HexHash) (db : Database) :
    (verifyHashChain H db).chainLength = db.chain.length := by
  unfold verifyHashChain
  by_cases hnil : db.chain = []
  · simp [hnil]
  · simp [hnil]

section Handlers

variable [IsTrans σ R] [Std.Refl R]

/-- `get_account`. -/
theorem readsOnce_findAccount (accountId : UUID) :
    ReadsOnce planner rows R (findAccount accountId) a := by
  apply linearizableFrom_exec
  intro m ham
  left
  cases hfound : (rows m).accountById accountId with
  | none =>
      have hanswer : (Query.getAccount accountId).answer planner (rows m) = none := hfound
      rw [hanswer]
      exact .raise _
  | some account =>
      have hanswer : (Query.getAccount accountId).answer planner (rows m) = some account := hfound
      rw [hanswer]
      exact .ret _

/-- `outbox_pending`. -/
theorem readsOnce_outboxPending (limit : ℕ) :
    ReadsOnce planner rows R (outboxPending limit) a :=
  linearizableFrom_single _ a

/-- `verify_hash_chain`. -/
theorem auditsOnce_verifyHashChainSession (a : σ) :
    LinearizableFrom (S := auditReads) (fun m q => AuditQuery.answer (rows m) q) R
      (verifyHashChainSession H) a := by
  apply linearizableFrom_exec
  intro m ham
  left
  show Prog.Ended (if (rows m).chain = [] then _ else _)
  split <;> exact .ret _

variable (h : Moments H rows R a)
include h

/-- A handler that looks up an account first: the account stays. -/
theorem readsOnce_findAccount_bind {α : Type} {accountId : UUID} {f : Account → Prog reads α}
    (hf : ∀ m account, R a m → ReadsOnce planner rows R (f account) m) :
    ReadsOnce planner rows R (findAccount accountId >>= f) a := by
  apply linearizableFrom_exec
  intro m ham
  show Prog.Ended (_ >>= f) ∨ _
  cases hfound : (rows m).accountById accountId with
  | none =>
      have hanswer : (Query.getAccount accountId).answer planner (rows m) = none := hfound
      left
      rw [hanswer]
      exact .raise _
  | some account =>
      have hanswer : (Query.getAccount accountId).answer planner (rows m) = some account := hfound
      right
      rw [hanswer]
      refine ⟨fun n hmn => ?_, hf m account ham⟩
      exact ((h.later ham).grows_to hmn).accountById (h.later ham).consistent hfound

/-- `get_balance`. -/
theorem readsOnce_getBalance (accountId : UUID) :
    ReadsOnce planner rows R (getBalance accountId) a :=
  readsOnce_findAccount_bind h fun m _ _ => linearizableFrom_single _ m

/-- `get_statement`. -/
theorem readsOnce_getStatement (accountId : UUID) (fromDate toDate : Option Date) :
    ReadsOnce planner rows R (getStatement accountId fromDate toDate) a :=
  readsOnce_findAccount_bind h fun m _ _ => linearizableFrom_single _ m

/-- `list_transactions`, from a cursor that is there. -/
theorem readsOnce_listTransactions (accountId : Option UUID) (type : Option TransactionType)
    {cursor : Option UUID} (limit : ℕ)
    (hcursor : ∀ id ∈ cursor, id ∈ (rows a).transactions.map (·.id)) :
    ReadsOnce planner rows R (listTransactions accountId type cursor limit) a := by
  cases cursor with
  | none => exact linearizableFrom_single _ a
  | some id =>
      apply linearizableFrom_exec
      intro m ham
      right
      obtain ⟨t, ht, rfl⟩ := List.mem_map.mp (hcursor id rfl)
      have hkeys := Database.nodup_transactionIds h.consistent.keys
      have hfound : (rows a).transactions.find? (·.id = t.id) = some t :=
        Grouping.find?_eq_some hkeys ht
      refine ⟨fun n hmn => ?_, linearizableFrom_single _ m⟩
      have hat : ∀ n, R a n → (Query.getTransaction t.id).answer planner (rows n) = some t :=
        fun n han => (h.grows_to han).transactionById h.consistent hfound
      exact (hat n (IsTrans.trans _ _ _ ham hmn)).trans (hat m ham).symm

/-- `list_entries`, from a cursor that is there. -/
theorem readsOnce_listEntries (accountId : UUID) {cursor : Option UUID} (limit : ℕ)
    (hcursor : ∀ id ∈ cursor, id ∈ (rows a).ledgerEntries.map (·.id)) :
    ReadsOnce planner rows R (listEntries accountId cursor limit) a := by
  apply readsOnce_findAccount_bind h
  intro m account ham
  cases cursor with
  | none => exact linearizableFrom_single _ m
  | some id =>
      apply linearizableFrom_exec
      intro n hmn
      right
      obtain ⟨e, he, rfl⟩ := List.mem_map.mp (hcursor id rfl)
      have hkeys := Database.nodup_entryIds h.consistent.keys
      have hfound : (rows a).ledgerEntries.find? (·.id = e.id) = some e :=
        Grouping.find?_eq_some hkeys he
      have han := IsTrans.trans _ _ _ ham hmn
      refine ⟨fun k hnk => ?_, linearizableFrom_single _ n⟩
      have hat : ∀ k, R a k → (Query.getLedgerEntry e.id).answer planner (rows k) = some e :=
        fun k hak => (h.grows_to hak).entryById h.consistent hfound
      exact (hat k (IsTrans.trans _ _ _ han hnk)).trans (hat n han).symm

/-- **The counts of `status`**, each of its own moment: there are never fewer than two entries for
each transaction, and there are more exactly when one was committed between the two counts. -/
theorem live_status {res : Except Exn StatusCounts}
    (hstatus : ReadAlong planner rows R status a res b) :
    ∃ counts m₁ m₂ m₃ m₄, res = .ok counts ∧ R a m₁ ∧ R m₁ m₂ ∧ R m₂ m₃ ∧ R m₃ m₄ ∧ R m₄ b ∧
      counts = ⟨(rows m₁).accounts.length, (rows m₂).transactions.length,
        (rows m₃).ledgerEntries.length,
        (rows m₄).outboxEvents.countP (·.publishedAt = none)⟩ ∧
      counts.transactions * 2 ≤ counts.ledgerEntries ∧
      (counts.ledgerEntries = counts.transactions * 2 ↔
        (rows m₃).transactions = (rows m₂).transactions) := by
  obtain ⟨m₁, h₁, hstatus⟩ := along_exec_iff.mp hstatus
  obtain ⟨m₂, h₂, hstatus⟩ := along_exec_iff.mp hstatus
  obtain ⟨m₃, h₃, hstatus⟩ := along_exec_iff.mp hstatus
  obtain ⟨m₄, h₄, hstatus⟩ := along_exec_iff.mp hstatus
  obtain ⟨rfl, h₅⟩ := along_ret_iff.mp hstatus
  have at₂ := h.later (IsTrans.trans _ _ _ h₁ h₂)
  have hentries := (at₂.later h₃).consistent.entry_count
  have hmore := (at₂.extends h₃).transactions.length_le
  have hsame := at₂.transactions_eq_iff h₃
  refine ⟨_, m₁, m₂, m₃, m₄, rfl, h₁, h₂, h₃, h₄, h₅, rfl, ?_, ?_⟩
  · show (rows m₂).transactions.length * 2 ≤ (rows m₃).ledgerEntries.length
    omega
  · show (rows m₃).ledgerEntries.length = (rows m₂).transactions.length * 2 ↔ _
    rw [hsame]
    omega

/-- **The chain is sound whenever it is audited**: the audit passes and walks all transactions of
one moment. -/
theorem live_chain_audit {res : Except Exn ChainReport}
    (haudit : AuditAlong rows R (verifyHashChainSession H) a res b) :
    ∃ report m, res = .ok report ∧ R a m ∧ R m b ∧ report.status = .pass ∧
      report.chainLength = (rows m).transactions.length := by
  obtain ⟨m, ham, hmb, hres⟩ := auditsOnce_verifyHashChainSession a res b haudit
  rw [answered_verifyHashChainSession] at hres
  have hconsistent := (h.later ham).consistent
  refine ⟨_, m, hres, ham, hmb, ?_, ?_⟩
  · exact (verifyHashChain_eq_pass_iff H _).mpr hconsistent.chainSound.linked
  · rw [chainLength_verifyHashChain, hconsistent.chain_eq]

end Handlers

end LedgerApi
