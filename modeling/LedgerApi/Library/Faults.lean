import LedgerApi.Library.World

/-! # Sessions that are lost

A session may be lost after any number of operations: a statement raises, the connection breaks, or
the server goes down before or after a commit. What it has not committed is then rolled back.
`Store.evalFor` runs a program for a number of operations and stops; a program that ends in time
ends as it does on its own (`evalFor_eq_whole`, `exists_evalFor_eq`).

A program that commits at most once is **all or nothing** wherever it is lost: it leaves the store
as it was or as the whole program leaves it (`evalFor_store`). -/

namespace Sessions

namespace Store

variable {S : Signature} {σ π ρ α : Type} (D : Store S σ π ρ)

/-- Run a session that is lost when it has done `n` operations, unless it ends before. -/
def evalFor : ℕ → Prog S α → σ → π → Verdict S α × σ
  | _, .ret a, s, _ => (.returned a, s)
  | _, .raise e, s, _ => (.raised e, s)
  | n + 1, .exec stmt next, s, p =>
      match D.exec s p stmt with
      | .ok (r, p') => evalFor n (next r) s p'
      | .error e => (.raised e, s)
  | n + 1, .commit next, s, p => evalFor n next (D.merge s p) D.blank
  | n + 1, .emit _ next, s, p => evalFor n next s p
  -- there is something left to do, and nothing more is done
  | 0, .exec _ _, s, _ => (.lost, s)
  | 0, .commit _, s, _ => (.lost, s)
  | 0, .emit _ _, s, _ => (.lost, s)

/-- The verdict on a program that ends on its own. -/
def verdict : Except S.Exn α → Verdict S α
  | .ok a => .returned a
  | .error e => .raised e

/-- The run of a program on its own, with its verdict. -/
def whole (x : Prog S α) (s : σ) (p : π) : Verdict S α × σ :=
  (verdict (D.eval x s p).result, (D.eval x s p).store)

variable {D}

/-- A statement that replies continues the program. -/
theorem evalFor_exec_ok {n : ℕ} {stmt : S.Stmt} {next : S.Reply stmt → Prog S α} {s : σ} {p p' : π}
    {r : S.Reply stmt} (h : D.exec s p stmt = .ok (r, p')) :
    D.evalFor (n + 1) (.exec stmt next) s p = D.evalFor n (next r) s p' := by
  rw [evalFor, h]

/-- A statement that raises ends it. -/
theorem evalFor_exec_error {n : ℕ} {stmt : S.Stmt} {next : S.Reply stmt → Prog S α} {s : σ} {p : π}
    {e : S.Exn} (h : D.exec s p stmt = .error e) :
    D.evalFor (n + 1) (.exec stmt next) s p = (.raised e, s) := by
  rw [evalFor, h]

/-- **A session that is not lost** ends as the program does on its own. -/
theorem evalFor_eq_whole {n : ℕ} {x : Prog S α} {s : σ} {p : π}
    (h : (D.evalFor n x s p).1 ≠ .lost) : D.evalFor n x s p = D.whole x s p := by
  induction x generalizing n s p with
  | ret a =>
      rw [evalFor]
      rfl
  | raise e =>
      rw [evalFor]
      rfl
  | exec stmt next ih =>
      cases n with
      | zero => exact absurd rfl h
      | succ n =>
          cases hexec : D.exec s p stmt with
          | ok rp =>
              obtain ⟨r, p'⟩ := rp
              rw [evalFor_exec_ok hexec] at h ⊢
              rw [ih r h, whole, whole, D.eval_exec_ok hexec]
          | error e =>
              rw [evalFor_exec_error hexec, whole, D.eval_exec_error hexec]
              rfl
  | commit next ih =>
      cases n with
      | zero => exact absurd rfl h
      | succ n => exact ih h
  | emit m next ih =>
      cases n with
      | zero => exact absurd rfl h
      | succ n => exact ih h

/-- What a session returned is what the program returns on its own. -/
theorem run_of_evalFor_returned {n : ℕ} {x : Prog S α} {s s' : σ} {a : α}
    (h : D.evalFor n x s D.blank = (.returned a, s')) : D.run x s = (.ok a, s') := by
  have hlost : (D.evalFor n x s D.blank).1 ≠ .lost := by
    rw [h]
    exact nofun
  rw [evalFor_eq_whole hlost, whole, Prod.mk.injEq] at h
  obtain ⟨hverdict, rfl⟩ := h
  cases hresult : (D.eval x s D.blank).result with
  | ok b =>
      rw [hresult] at hverdict
      cases hverdict
      rw [run, hresult]
  | error e =>
      rw [hresult] at hverdict
      cases hverdict

/-- Without faults a program has the time to end. -/
theorem exists_evalFor_eq (x : Prog S α) (s : σ) (p : π) :
    ∃ n, D.evalFor n x s p = D.whole x s p := by
  induction x generalizing s p with
  | ret a => exact ⟨0, by rw [evalFor]; rfl⟩
  | raise e => exact ⟨0, by rw [evalFor]; rfl⟩
  | exec stmt next ih =>
      cases hexec : D.exec s p stmt with
      | ok rp =>
          obtain ⟨r, p'⟩ := rp
          obtain ⟨n, hn⟩ := ih r s p'
          refine ⟨n + 1, ?_⟩
          rw [evalFor_exec_ok hexec, hn, whole, whole, D.eval_exec_ok hexec]
      | error e =>
          refine ⟨1, ?_⟩
          rw [evalFor_exec_error hexec, whole, D.eval_exec_error hexec]
          rfl
  | commit next ih =>
      obtain ⟨n, hn⟩ := ih (D.merge s p) D.blank
      exact ⟨n + 1, hn⟩
  | emit m next ih =>
      obtain ⟨n, hn⟩ := ih s p
      exact ⟨n + 1, hn⟩

/-! ## All or nothing -/

/-- A program that does not commit leaves the store as it is, wherever it is lost. -/
theorem evalFor_store_of_zero {x : Prog S α} (hx : x.CommitsAtMost 0) (n : ℕ) (s : σ) (p : π) :
    (D.evalFor n x s p).2 = s := by
  induction x generalizing n p with
  | ret a => rw [evalFor]
  | raise e => rw [evalFor]
  | exec stmt next ih =>
      cases n with
      | zero => rfl
      | succ n =>
          cases hexec : D.exec s p stmt with
          | ok rp =>
              obtain ⟨r, p'⟩ := rp
              rw [evalFor_exec_ok hexec]
              exact ih r (hx r) n p'
          | error e => rw [evalFor_exec_error hexec]
  | commit next ih => exact hx.elim
  | emit m next ih =>
      cases n with
      | zero => rfl
      | succ n => exact ih hx n p

/-- So does the whole program. -/
theorem eval_store_of_zero {x : Prog S α} (hx : x.CommitsAtMost 0) (s : σ) (p : π) :
    (D.eval x s p).store = s := by
  obtain ⟨n, hn⟩ := exists_evalFor_eq (D := D) x s p
  have hstore := evalFor_store_of_zero (D := D) hx n s p
  rwa [hn] at hstore

/-- **All or nothing**: wherever it is lost, a program that commits at most once leaves the store as
it was or as the whole program leaves it. -/
theorem evalFor_store {x : Prog S α} (hx : x.CommitsAtMost 1) (n : ℕ) (s : σ) (p : π) :
    (D.evalFor n x s p).2 = s ∨ (D.evalFor n x s p).2 = (D.eval x s p).store := by
  induction x generalizing n p with
  | ret a =>
      rw [evalFor]
      exact Or.inl rfl
  | raise e =>
      rw [evalFor]
      exact Or.inl rfl
  | exec stmt next ih =>
      cases n with
      | zero => exact Or.inl rfl
      | succ n =>
          cases hexec : D.exec s p stmt with
          | ok rp =>
              obtain ⟨r, p'⟩ := rp
              rw [evalFor_exec_ok hexec, D.eval_exec_ok hexec]
              exact ih r (hx r) n p'
          | error e =>
              rw [evalFor_exec_error hexec]
              exact Or.inl rfl
  | commit next ih =>
      cases n with
      | zero => exact Or.inl rfl
      | succ n =>
          -- the commit is done, and what follows changes nothing more
          right
          show (D.evalFor n next (D.merge s p) D.blank).2 =
            (D.eval next (D.merge s p) D.blank).store
          rw [evalFor_store_of_zero hx, eval_store_of_zero hx]
  | emit m next ih =>
      cases n with
      | zero => exact Or.inl rfl
      | succ n => exact ih hx n p

end Store

end Sessions
