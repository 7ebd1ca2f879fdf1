import LedgerApi.Api
import LedgerApi.Posting

/-! # Committed histories

What a committed call does to the database (`Commits`), and the databases that a log of committed
calls leads to (`History`). A call that commits is accepted by the sequential program
(`Commits.run`), so every history can be replayed one call at a time (`History.replay`). -/

namespace LedgerApi

open Sessions

variable (H : HexHash)

/-- The account of `POST /accounts`. -/
def postedAccount (data : AccountCreate) (id : UUID) (now : Timestamp) : Account :=
  ⟨id, data.name, false, now⟩

/-- What `POST /accounts` writes. -/
def accountWrites (data : AccountCreate) (id : UUID) (now : Timestamp) : Writes :=
  ⟨[postedAccount data id now], [], [], [], [], [], []⟩

/-- A call commits on a database, with the given writes. -/
inductive Commits (db : Database) : Call → Writes → Prop
  /-- The new account's id and name are free. -/
  | postAccount {data : AccountCreate} {id : UUID} {now : Timestamp}
      (h : Fresh db (accountWrites data id now)) :
      Commits db (.postAccount data id now) (accountWrites data id now)
  /-- The request settles. -/
  | createTransaction {data : TransactionCreate} {gen : Generated} {post : Posting}
      (h : Settles H db data gen post) :
      Commits db (.createTransaction data gen) (postingWrites H db data gen post)

/-- Rows that commit are fresh. -/
theorem Commits.fresh {db : Database} {call : Call} {w : Writes} (h : Commits H db call w) :
    Fresh db w := by
  cases h with
  | postAccount h => exact h
  | createTransaction h => exact h.fresh

/-- The databases that committed calls lead to, from `db₀`. -/
inductive History (db₀ : Database) : List Call → Database → Prop
  | nil : History db₀ [] db₀
  | snoc {log : List Call} {db : Database} {call : Call} {w : Writes} (h : History db₀ log db)
      (hcall : Commits H db call w) : History db₀ (log ++ [call]) (db.view w)

/-- Run calls one after the other, as long as they are accepted. -/
def replayLog (db : Database) : List Call → Option Database
  | [] => some db
  | call :: log =>
      match postgres.run (call.program H) db with
      | (.ok _, db') => replayLog db' log
      | (.error _, _) => none

variable {H}

/-- An account whose id and name are free is created. -/
theorem eval_postAccount {db : Database} {data : AccountCreate} {id : UUID} {now : Timestamp}
    (h : Fresh db (accountWrites data id now)) :
    postgres.eval (postAccount data id now) db .blank =
      ⟨.ok (postedAccount data id now), db.view (accountWrites data id now), .blank, []⟩ := by
  have hkeys : (accountWrites data id now).rows.uniqueKeys =
      [.accountsPkey id, .accountsName data.name] := rfl
  have hname : db.accountByName data.name = none :=
    Database.accountByName_eq_none_iff.mpr (h.not_mem _ (by simp [hkeys]))
  -- the id is new, so that the refresh finds the inserted row
  have hid : db.accountById id = none := by
    refine List.find?_eq_none.mpr fun a ha haid => h.not_mem (.accountsPkey id) (by simp [hkeys]) ?_
    refine Database.mem_uniqueKeys.mpr (Or.inl ⟨a, ha, ?_⟩)
    rw [← of_decide_eq_true haid]
    exact List.mem_cons_self
  have hfree : violation db .blank (.insertAccount (postedAccount data id now)) = none :=
    (violation_eq_none_iff rfl).mpr ⟨by simp [Stmt.uniqueKeys, Account.uniqueKeys], fun k hk =>
      ⟨h.not_mem k hk, by simp [Writes.rows, Database.uniqueKeys, Writes.blank]⟩⟩
  rw [postAccount, eval_execute_bind rfl rfl, Database.view_blank, hname]
  refine (eval_execute_bind hfree rfl).trans ?_
  show postgres.eval (execute (.refreshAccount id)) (db.view (accountWrites data id now)) .blank = _
  refine postgres.eval_exec_ok ?_
  show perform (db.view (accountWrites data id now)) .blank (.refreshAccount id) = _
  rw [perform, Database.view_blank, Database.accountById, Database.view_accounts, List.find?_append,
    ← Database.accountById, hid]
  simp [accountWrites, postedAccount]

/-- **A call that commits is accepted** when it is run on its own. -/
theorem Commits.run {db : Database} {call : Call} {w : Writes} (h : Commits H db call w) :
    ∃ r, postgres.run (call.program H) db = (.ok r, db.view w) := by
  cases h with
  | @postAccount data id now hfresh =>
      refine ⟨.account (postedAccount data id now), ?_⟩
      exact Store.run_eq _ (Store.eval_bind_ok _ (eval_postAccount hfresh))
  | @createTransaction data gen post hsettles =>
      refine ⟨.transaction (postedRow H db data gen).load, ?_⟩
      exact Store.run_eq _ (Store.eval_bind_ok _ hsettles.eval_createTransaction)

theorem replayLog_append {db db' : Database} {log log' : List Call}
    (h : replayLog H db log = some db') : replayLog H db (log ++ log') = replayLog H db' log' := by
  induction log generalizing db with
  | nil => rw [← Option.some.inj h]; rfl
  | cons call log ih =>
      rw [replayLog] at h
      rw [List.cons_append, replayLog]
      split at h
      case h_1 heq => exact ih h
      case h_2 => cases h

/-- **A history can be replayed**: the sequential program accepts its calls one after the other and
arrives at the same database. -/
theorem History.replay {db₀ db : Database} {log : List Call} (h : History H db₀ log db) :
    replayLog H db₀ log = some db := by
  induction h with
  | nil => rfl
  | snoc _ hcall ih =>
      obtain ⟨r, hrun⟩ := hcall.run
      rw [replayLog_append ih, replayLog, hrun]
      rfl

/-- The calls determine where a history leads. -/
theorem History.unique {db₀ db db' : Database} {log : List Call} (h : History H db₀ log db)
    (h' : History H db₀ log db') : db = db' :=
  Option.some.inj (h.replay.symm.trans h'.replay)

/-- What holds at the start and is kept by every commit holds of every history. -/
theorem History.invariant {Inv : Database → Prop} {db₀ db : Database} {log : List Call}
    (h : History H db₀ log db) (h₀ : Inv db₀)
    (hstep : ∀ db call w, Inv db → Commits H db call w → Inv (db.view w)) : Inv db := by
  induction h with
  | nil => exact h₀
  | snoc _ hcall ih => exact hstep _ _ _ ih hcall

end LedgerApi
