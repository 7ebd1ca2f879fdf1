import LedgerApi.Library.Faults
import LedgerApi.Serializability

/-! # Faults and retries

What a client may find that is told nothing: its request was lost after some number of operations,
the commit before or after that point (`serveFor`). Wherever it was lost, the tables are as they
were or hold everything the request posts (`create_all_or_nothing`), so a client may send it again
until it is answered (`reissue`): its key is then in the tables once, and the answer is that
transaction (`all_or_nothing`).

A lost request thus leads to no database that requests on their own would not lead to
(`ReachableWithFaults.reachable`). -/

namespace LedgerApi

open Sessions

variable (H : HexHash)

/-- Serve a request that is lost when it has done `n` operations, unless it ends before. -/
def serveFor (n : ℕ) (db : Database) (r : Request) : Verdict sql Response × Database :=
  postgres.evalFor n (r.program H) db .blank

variable {H} {db db' : Database} {data : TransactionCreate} {gen : Generated}

/-! ## Answers -/

/-- A used key is answered without a write. -/
theorem eval_createTransaction_found {row : Transaction ℤ}
    (h : db.transactionByKey data.idempotencyKey = some row) :
    postgres.eval (createTransaction H data gen) db .blank =
      postgres.eval (replay H data row) db .blank := by
  have hperform : perform db .blank (.selectTransactionByKey data.idempotencyKey) =
      .ok (some row, .blank) := by
    rw [perform, Database.view_blank, h]
    rfl
  rw [createTransaction, eval_execute_bind rfl hperform]

/-- **A replay**: a key used with the same parameters is answered with its transaction. -/
theorem serve_replay {row : Transaction ℤ} (h : db.transactionByKey data.idempotencyKey = some row)
    (hhash : row.requestHash = requestHash H data) :
    serve H db (.call (.createTransaction data gen)) = (.ok (.transaction row.load), db) := by
  have heval : postgres.eval (createTransaction H data gen) db .blank =
      ⟨.ok row.load, db, .blank, []⟩ := by
    rw [eval_createTransaction_found h, replay, if_neg (not_not.mpr hhash)]
    rfl
  exact Store.run_eq _ (Store.eval_bind_ok _ heval)

/-- **A conflict**: a key used with other parameters is refused. -/
theorem serve_conflict {row : Transaction ℤ}
    (h : db.transactionByKey data.idempotencyKey = some row)
    (hhash : row.requestHash ≠ requestHash H data) :
    serve H db (.call (.createTransaction data gen)) =
      (.error (.http 409 "Idempotency key already used with different parameters"), db) := by
  have heval : postgres.eval (createTransaction H data gen) db .blank =
      ⟨.error (.http 409 "Idempotency key already used with different parameters"), db, .blank,
        []⟩ := by
    rw [eval_createTransaction_found h, replay, if_pos hhash]
    rfl
  exact Store.run_eq _ (Store.eval_bind_error _ heval)

/-- The key of a request that settles was new, so that its row is the first with it. -/
theorem Settles.transactionByKey {post : Posting} (h : Settles H db data gen post) :
    db.transactionByKey data.idempotencyKey = none ∧
      (db.view (postingWrites H db data gen post)).transactionByKey data.idempotencyKey =
        some (postedRow H db data gen) := by
  have hnone : db.transactionByKey data.idempotencyKey = none := by
    rw [Database.transactionByKey_eq_none_iff]
    exact h.fresh.not_mem _ (by rw [uniqueKeys_postingWrites]; simp)
  refine ⟨hnone, ?_⟩
  rw [Database.transactionByKey, Database.view_transactions rfl, List.find?_append,
    ← Database.transactionByKey, hnone, Option.none_or]
  have hkey : (postedRow H db data gen).idempotencyKey = data.idempotencyKey := rfl
  simp [postingWrites, hkey]

/-- **A request that is accepted as new** settles, and is answered with the row it posts. -/
theorem settles_of_serve_ok {answer : Response}
    (hnew : db.transactionByKey data.idempotencyKey = none)
    (h : serve H db (.call (.createTransaction data gen)) = (.ok answer, db')) :
    ∃ post, Settles H db data gen post ∧ db' = db.view (postingWrites H db data gen post) ∧
      answer = .transaction (postedRow H db data gen).load := by
  obtain ⟨hcommit, g, p, L, hstore, hok, -⟩ := serve_call H db (.createTransaction data gen)
  rw [h] at hcommit hstore hok
  obtain ⟨txn, hanswer, row, hrow, hkey, hhash, htxn⟩ := hok answer rfl
  rw [hstore] at hrow
  have hnone := List.find?_eq_none.mp hnew
  rcases hcommit with hsame | ⟨w, hcall, hview⟩
  · -- to be answered without a commit, the key must have been found
    change db' = db at hsame
    rw [hsame] at hrow
    exact absurd hkey (by simpa using hnone row hrow)
  · -- the row it wrote is the only one with the key
    change db' = db.view w at hview
    cases hcall with
    | @createTransaction _ _ post hs =>
        refine ⟨post, hs, hview, ?_⟩
        rw [hview] at hrow
        rcases List.mem_append.mp hrow with hrow | hrow
        · exact absurd hkey (by simpa using hnone row hrow)
        · obtain rfl := List.mem_singleton.mp hrow
          exact hanswer.trans (congrArg _ htxn)

/-- An accepted request is answered with the transaction of its key. -/
theorem exists_of_serve_ok {answer : Response}
    (h : serve H db (.call (.createTransaction data gen)) = (.ok answer, db')) :
    ∃ row, db'.transactionByKey data.idempotencyKey = some row ∧
      row.requestHash = requestHash H data ∧ answer = .transaction row.load := by
  cases hfound : db.transactionByKey data.idempotencyKey with
  | some row =>
      -- answered from the tables, which it leaves as they are
      by_cases hhash : row.requestHash = requestHash H data
      · rw [serve_replay hfound hhash, Prod.mk.injEq] at h
        obtain ⟨hanswer, rfl⟩ := h
        exact ⟨row, hfound, hhash, (Except.ok.inj hanswer).symm⟩
      · rw [serve_conflict hfound hhash, Prod.mk.injEq] at h
        cases h.1
  | none =>
      obtain ⟨post, hs, rfl, hanswer⟩ := settles_of_serve_ok hfound h
      exact ⟨_, hs.transactionByKey.2, rfl, hanswer⟩

/-! ## All or nothing -/

/-- Everything that a request posts has been added to the tables. -/
structure CompleteSet (H : HexHash) (db : Database) (data : TransactionCreate) (gen : Generated)
    (db' : Database) : Prop where
  /-- A clearing account, if there was none. -/
  accounts : db'.accounts = db.accounts ∨ db'.accounts = db.accounts ++ [newClearingAccount gen]
  /-- One transaction, linked to the tip of the chain. -/
  transactions : db'.transactions =
    db.transactions ++ [(chainAfter H db.chain.getLast? (newTransaction H data gen)).flush]
  /-- Its two entries. -/
  ledgerEntries : ∃ debit credit, db'.ledgerEntries =
    db.ledgerEntries ++ [⟨gen.firstEntryId, gen.transactionId, debit, -data.cents⟩,
      ⟨gen.secondEntryId, gen.transactionId, credit, data.cents⟩]
  /-- Its event. -/
  outboxEvents : db'.outboxEvents = db.outboxEvents ++
    [writeTransactionEvent gen (chainAfter H db.chain.getLast? (newTransaction H data gen))]

/-- What a committed request leaves is complete. -/
theorem completeSet_of_commits {w : Writes} (h : Commits H db (.createTransaction data gen) w) :
    CompleteSet H db data gen (db.view w) := by
  cases h with
  | @createTransaction _ _ post hs =>
      constructor
      · rcases opened_of_posting hs.posting with hnil | ⟨hopened, -⟩
        · left
          show db.accounts ++ post.opened = _
          rw [hnil, List.append_nil]
        · right
          show db.accounts ++ post.opened = _
          rw [hopened]
      · rfl
      · refine ⟨post.debit, post.credit, ?_⟩
        show _ ++ newEntries data gen post.debit post.credit = _
        rw [newEntries, data.toScale_amount, data.toScale_neg_amount]
      · exact Database.view_outboxEvents rfl

/-- A relay call commits at most once, as every request does. -/
theorem commitsAtMost_request (r : Request) : (r.program H).CommitsAtMost 1 := by
  cases r with
  | call call => exact commitsAtMost_program call
  | outboxPublish limit accepts now =>
      have heach : ∀ events, (publishEach accepts now events).CommitsAtMost 0 := by
        intro events
        induction events with
        | nil => exact trivial
        | cons event events ih =>
            rw [publishEach]
            split
            · exact ih.zero_bind fun marks => trivial
            · exact trivial
      have hpublish : (outboxPublish limit accepts now).CommitsAtMost 1 := by
        refine Prog.CommitsAtMost.zero_bind (commitsAtMost_execute _) fun events => ?_
        exact Prog.CommitsAtMost.zero_bind (heach _) fun marks => fun _ => trivial
      exact Prog.CommitsAtMost.bind (m := 1) (n := 0) hpublish fun _ => trivial

/-- **A lost request** leaves the tables as they were or as it leaves them when it is not lost. -/
theorem serveFor_database (n : ℕ) (db : Database) (r : Request) :
    (serveFor H n db r).2 = db ∨ (serveFor H n db r).2 = (serve H db r).2 :=
  Store.evalFor_store (D := postgres) (commitsAtMost_request r) n db .blank

/-- **All or nothing**, wherever the request is lost. -/
theorem create_all_or_nothing (n : ℕ) :
    (serveFor H n db (.call (.createTransaction data gen))).2 = db ∨
      CompleteSet H db data gen (serveFor H n db (.call (.createTransaction data gen))).2 := by
  rcases serveFor_database n db (.call (.createTransaction data gen)) with hsame | hserve
  · exact Or.inl hsame
  · rw [hserve]
    rcases (serve_call H db (.createTransaction data gen)).1 with hsame | ⟨w, hcall, hview⟩
    · exact Or.inl hsame
    · rw [hview]
      exact Or.inr (completeSet_of_commits hcall)

/-! ## Reissuing a request -/

variable (H) in
/-- Send a request again until it is answered with a transaction. Each attempt draws its values and
is lost after a number of operations, unless it ends before. -/
def reissue (data : TransactionCreate) :
    Database → List (Generated × ℕ) → Option Response × Database
  | db, [] => (none, db)
  | db, (gen, n) :: attempts =>
      match serveFor H n db (.call (.createTransaction data gen)) with
      | (.returned answer, db') => (some answer, db')
      -- a rejection and silence alike
      | (_, db') => reissue data db' attempts

/-- Lost or not, a request keeps the keys of the tables distinct. -/
theorem nodup_serveFor (data : TransactionCreate) (gen : Generated) (n : ℕ)
    (h : db.uniqueKeys.Nodup) :
    (serveFor H n db (.call (.createTransaction data gen))).2.uniqueKeys.Nodup := by
  rcases serveFor_database n db (.call (.createTransaction data gen)) with hsame | hserve
  · rw [hsame]
    exact h
  · rw [hserve]
    rcases (serve_call H db (.createTransaction data gen)).1 with hsame | ⟨w, hcall, hview⟩
    · rw [hsame]
      exact h
    · rw [hview]
      exact hcall.fresh.nodup_view h

/-- The answer of the last attempt is the transaction of the key, and there is no other. -/
theorem reissue_answer {attempts : List (Generated × ℕ)} {answer : Response}
    (h : db.uniqueKeys.Nodup) (hanswer : reissue H data db attempts = (some answer, db')) :
    ∃ row, db'.transactionByKey data.idempotencyKey = some row ∧
      answer = .transaction row.load ∧
      (db'.transactions.map (·.idempotencyKey)).count data.idempotencyKey = 1 := by
  induction attempts generalizing db with
  | nil => cases hanswer
  | cons attempt attempts ih =>
      obtain ⟨gen, n⟩ := attempt
      have hnodup := nodup_serveFor (H := H) data gen n h
      rw [reissue] at hanswer
      cases hserve : serveFor H n db (.call (.createTransaction data gen)) with
      | mk verdict db₁ =>
          rw [hserve] at hanswer hnodup
          cases verdict with
          | returned a =>
              obtain ⟨rfl, rfl⟩ : a = answer ∧ db₁ = db' := by simpa using hanswer
              obtain ⟨row, hrow, -, ha⟩ := exists_of_serve_ok (Store.run_of_evalFor_returned hserve)
              refine ⟨row, hrow, ha, ?_⟩
              refine List.count_eq_one_of_mem (Database.nodup_idempotencyKeys hnodup) ?_
              have hkey : row.idempotencyKey = data.idempotencyKey := by
                simpa using List.find?_some hrow
              exact hkey ▸ List.mem_map_of_mem (List.mem_of_find?_eq_some hrow)
          | raised e => exact ih hnodup hanswer
          | lost => exact ih hnodup hanswer

/-- A request that is sent again after its commit was lost is answered with what was committed. -/
theorem serve_after_commit {n : ℕ} {gen' : Generated}
    (h : (serveFor H n db (.call (.createTransaction data gen))).2 ≠ db) :
    ∃ row, (serveFor H n db (.call (.createTransaction data gen))).2.transactions =
        db.transactions ++ [row] ∧ row.idempotencyKey = data.idempotencyKey ∧
      serve H (serveFor H n db (.call (.createTransaction data gen))).2
          (.call (.createTransaction data gen')) =
        (.ok (.transaction row.load),
          (serveFor H n db (.call (.createTransaction data gen))).2) := by
  have hserve := (serveFor_database n db (.call (.createTransaction data gen))).resolve_left h
  rw [hserve] at h ⊢
  obtain ⟨w, hcall, hview⟩ := (serve_call H db (.createTransaction data gen)).1.resolve_left h
  rw [hview]
  cases hcall with
  | @createTransaction _ _ post hs =>
      exact ⟨postedRow H db data gen, rfl, rfl, serve_replay hs.transactionByKey.2 rfl⟩

/-- **All or nothing, and safe to retry**: wherever a request is lost, the tables are as they were
or complete; sent again until it is answered, it is in the tables once and that is its answer; and
if the commit was done, the next attempt that is not lost is answered. -/
theorem all_or_nothing (H : HexHash) (db : Database) (data : TransactionCreate)
    (h : db.uniqueKeys.Nodup) :
    (∀ gen n, (serveFor H n db (.call (.createTransaction data gen))).2 = db ∨
      CompleteSet H db data gen (serveFor H n db (.call (.createTransaction data gen))).2) ∧
    (∀ attempts answer db', reissue H data db attempts = (some answer, db') →
      ∃ row, db'.transactionByKey data.idempotencyKey = some row ∧
        answer = .transaction row.load ∧
        (db'.transactions.map (·.idempotencyKey)).count data.idempotencyKey = 1) ∧
    ∀ gen n gen', (serveFor H n db (.call (.createTransaction data gen))).2 ≠ db →
      ∃ row, (serveFor H n db (.call (.createTransaction data gen))).2.transactions =
          db.transactions ++ [row] ∧ row.idempotencyKey = data.idempotencyKey ∧
        serve H (serveFor H n db (.call (.createTransaction data gen))).2
            (.call (.createTransaction data gen')) =
          (.ok (.transaction row.load),
            (serveFor H n db (.call (.createTransaction data gen))).2) :=
  ⟨fun _ n => create_all_or_nothing n, fun _ _ _ => reissue_answer h,
    fun _ _ _ => serve_after_commit⟩

/-- Attempts at a deposit: lost before its commit, lost after its commit, not lost. -/
def sampleAttempts : List (Generated × ℕ) :=
  [(sampleGenerated 1, 10), (sampleGenerated 2, 11), (sampleGenerated 3, 20)]

/-- The second attempt is the one that is in the tables. -/
theorem reissue_outcome :
    (reissue sha256 sampleDeposit sampleDatabase sampleAttempts).1.isSome ∧
      (reissue sha256 sampleDeposit sampleDatabase sampleAttempts).2.transactions.map (·.id) =
        [22] := by
  decide +kernel

/-- The third attempt is answered with it. -/
theorem reissue_sampleDeposit :
    ∃ row : Transaction ℤ, row.id = 22 ∧
      (reissue sha256 sampleDeposit sampleDatabase sampleAttempts).1 =
        some (.transaction row.load) ∧
      ((reissue sha256 sampleDeposit sampleDatabase sampleAttempts).2.transactions.map
        (·.idempotencyKey)).count sampleDeposit.idempotencyKey = 1 := by
  obtain ⟨hsome, hids⟩ := reissue_outcome
  generalize hrun : reissue sha256 sampleDeposit sampleDatabase sampleAttempts = outcome
    at hsome hids
  obtain ⟨answer, db'⟩ := outcome
  obtain ⟨answer, rfl⟩ := Option.isSome_iff_exists.mp hsome
  obtain ⟨row, hrow, rfl, hcount⟩ :=
    (all_or_nothing sha256 sampleDatabase sampleDeposit (by decide)).2.1 _ _ _ hrun
  refine ⟨row, ?_, rfl, hcount⟩
  have hmem : row.id ∈ db'.transactions.map (·.id) :=
    List.mem_map_of_mem (List.mem_of_find?_eq_some hrow)
  rwa [hids, List.mem_singleton] at hmem

/-! ## Runs with faults -/

variable (H) in
/-- The databases that some sequence of requests reaches, any of which may be lost. -/
inductive ReachableWithFaults : Database → Prop
  | initial {db : Database} (h : Initial db) : ReachableWithFaults db
  | serve {db : Database} (h : ReachableWithFaults db) (n : ℕ) (r : Request) :
      ReachableWithFaults (serveFor H n db r).2

/-- **Faults lead nowhere else**: what requests reach that may be lost, requests reach. -/
theorem ReachableWithFaults.reachable (h : ReachableWithFaults H db) : Reachable H db := by
  induction h with
  | initial h => exact .initial h
  | @serve db _ n r ih =>
      rcases serveFor_database n db r with hsame | hserve
      · rw [hsame]
        exact ih
      · rw [hserve]
        exact ih.serve r

end LedgerApi
