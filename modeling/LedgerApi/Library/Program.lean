import Mathlib.Data.List.Basic
import Mathlib.Tactic.Common

/-! # Programs of a database session

A client of a transactional store issues statements, commits, hands messages to the outside and may
raise. `Prog S α` is the tree of everything such a client can do, over a `Signature` of statements
with typed replies; it is a monad, so client code is written in `do` notation and reads as its
source.

A `Store` gives the statements their meaning. Committed rows (`σ`) are shared, uncommitted writes
(`π`) belong to one session, and a statement is executed against both: it sees the committed rows of
the moment and the session's own. It may first need locks (`Lock`), which a session keeps until its
transaction ends. `Store.eval` runs a program on its own, with no other session about; `eval_bind`
evaluates it function by function. -/

namespace Sessions

/-- The vocabulary of a database client. -/
structure Signature where
  /-- The statements. -/
  Stmt : Type
  /-- What each statement replies with. -/
  Reply : Stmt → Type
  /-- Messages handed to the outside, which no rollback takes back. -/
  Msg : Type
  /-- Exceptions, of the client and of the store. -/
  Exn : Type

/-- A program of a session: a result, an exception, or one more thing to do. -/
inductive Prog (S : Signature) (α : Type) : Type
  /-- Finish with a result. -/
  | ret (a : α)
  /-- Finish with an exception. -/
  | raise (e : S.Exn)
  /-- Execute a statement and continue with its reply. -/
  | exec (stmt : S.Stmt) (next : S.Reply stmt → Prog S α)
  /-- Commit the session's transaction. -/
  | commit (next : Prog S α)
  /-- Hand a message to the outside. -/
  | emit (m : S.Msg) (next : Prog S α)

namespace Prog

variable {S : Signature} {α β : Type}

/-- Continue a program with its result; exceptions pass through. -/
def bind : Prog S α → (α → Prog S β) → Prog S β
  | ret a, f => f a
  | raise e, _ => raise e
  | exec stmt next, f => exec stmt (fun r => (next r).bind f)
  | commit next, f => commit (next.bind f)
  | emit m next, f => emit m (next.bind f)

instance : Monad (Prog S) where
  pure := ret
  bind := bind

@[simp] theorem pure_eq (a : α) : (pure a : Prog S α) = ret a := rfl

@[simp] theorem ret_bind (a : α) (f : α → Prog S β) : (ret a >>= f) = f a := rfl

@[simp] theorem raise_bind (e : S.Exn) (f : α → Prog S β) : (raise e >>= f) = raise e := rfl

@[simp] theorem exec_bind (stmt : S.Stmt) (next : S.Reply stmt → Prog S α) (f : α → Prog S β) :
    (exec stmt next >>= f) = exec stmt (fun r => next r >>= f) := rfl

@[simp] theorem commit_bind (next : Prog S α) (f : α → Prog S β) :
    (commit next >>= f) = commit (next >>= f) := rfl

@[simp] theorem emit_bind (m : S.Msg) (next : Prog S α) (f : α → Prog S β) :
    (emit m next >>= f) = emit m (next >>= f) := rfl

theorem bind_assoc {γ : Type} (x : Prog S α) (f : α → Prog S β) (g : β → Prog S γ) :
    (x >>= f >>= g) = x >>= fun a => f a >>= g := by
  induction x with
  | ret a => rfl
  | raise e => rfl
  | exec stmt next ih => exact congrArg (exec stmt) (funext fun r => ih r)
  | commit next ih => exact congrArg commit ih
  | emit m next ih => exact congrArg (emit m) ih

/-- The program of a single statement. -/
def stmt (s : S.Stmt) : Prog S (S.Reply s) := exec s ret

/-- The program that commits. -/
def commitNow : Prog S Unit := commit (ret ())

/-- The program that sends one message. -/
def send (m : S.Msg) : Prog S Unit := emit m (ret ())

/-- No run of the program commits more than `n` times. -/
def CommitsAtMost : ℕ → Prog S α → Prop
  | _, ret _ => True
  | _, raise _ => True
  | n, exec _ next => ∀ r, CommitsAtMost n (next r)
  | 0, commit _ => False
  | n + 1, commit next => CommitsAtMost n next
  | n, emit _ next => CommitsAtMost n next

theorem CommitsAtMost.mono {m n : ℕ} {x : Prog S α} (hx : x.CommitsAtMost m) (h : m ≤ n) :
    x.CommitsAtMost n := by
  induction x generalizing m n with
  | ret a => exact trivial
  | raise e => exact trivial
  | exec stmt next ih => exact fun r => ih r (hx r) h
  | commit next ih =>
      cases m with
      | zero => exact hx.elim
      | succ m =>
          cases n with
          | zero => exact absurd h (Nat.not_succ_le_zero m)
          | succ n => exact ih hx (Nat.le_of_succ_le_succ h)
  | emit m next ih => exact ih hx h

/-- The commits of a sequence are those of its parts. -/
theorem CommitsAtMost.bind {m n : ℕ} {x : Prog S α} {f : α → Prog S β} (hx : x.CommitsAtMost m)
    (hf : ∀ a, (f a).CommitsAtMost n) : (x >>= f).CommitsAtMost (m + n) := by
  induction x generalizing m with
  | ret a => exact (hf a).mono (Nat.le_add_left n m)
  | raise e => exact trivial
  | exec stmt next ih => exact fun r => ih r (hx r)
  | commit next ih =>
      cases m with
      | zero => exact hx.elim
      -- the commit belongs to the first part, and the rest of that part has one less
      | succ m =>
          rw [Nat.add_right_comm]
          exact ih hx
  | emit m next ih => exact ih hx

/-- A first part that does not commit leaves all commits to the rest. -/
theorem CommitsAtMost.zero_bind {n : ℕ} {x : Prog S α} {f : α → Prog S β} (hx : x.CommitsAtMost 0)
    (hf : ∀ a, (f a).CommitsAtMost n) : (x >>= f).CommitsAtMost n :=
  (hx.bind hf).mono (Nat.le_of_eq (Nat.zero_add n))

/-- The program issues no statements and sends no messages but those of the given kinds. -/
def Uses (P : S.Stmt → Prop) (M : S.Msg → Prop) : Prog S α → Prop
  | ret _ => True
  | raise _ => True
  | exec stmt next => P stmt ∧ ∀ r, Uses P M (next r)
  | commit next => Uses P M next
  | emit m next => M m ∧ Uses P M next

/-- A sequence uses what its parts use. -/
theorem Uses.bind {P : S.Stmt → Prop} {M : S.Msg → Prop} {x : Prog S α} {f : α → Prog S β}
    (hx : x.Uses P M) (hf : ∀ a, (f a).Uses P M) : (x >>= f).Uses P M := by
  induction x with
  | ret a => exact hf a
  | raise e => exact trivial
  | exec stmt next ih => exact ⟨hx.1, fun r => ih r (hx.2 r)⟩
  | commit next ih => exact ih hx
  | emit m next ih => exact ⟨hx.1, ih hx.2⟩

/-- **A property of programs that follows from that of their parts**: it holds of what ends at once
and of statements of the kind `P`, and sequencing keeps it. -/
structure Compositional (P : S.Stmt → Prop) (T : (α : Type) → Prog S α → Prop) : Prop where
  ret : ∀ {α : Type} (a : α), T α (ret a)
  raise : ∀ {α : Type} (e : S.Exn), T α (raise e)
  stmt : ∀ {s : S.Stmt}, P s → T (S.Reply s) (stmt s)
  bind : ∀ {α β : Type} {x : Prog S α} {f : α → Prog S β}, T α x → (∀ a, T β (f a)) →
    T β (x >>= f)

/-- Such a property, when programs raise exceptions of the kind `X` only. -/
structure Sequential (P : S.Stmt → Prop) (X : S.Exn → Prop)
    (T : (α : Type) → Prog S α → Prop) : Prop where
  ret : ∀ {α : Type} (a : α), T α (ret a)
  raise : ∀ {α : Type} {e : S.Exn}, X e → T α (raise e)
  stmt : ∀ {s : S.Stmt}, P s → T (S.Reply s) (stmt s)
  bind : ∀ {α β : Type} {x : Prog S α} {f : α → Prog S β}, T α x → (∀ a, T β (f a)) →
    T β (x >>= f)

theorem Compositional.sequential {P : S.Stmt → Prop} {T : (α : Type) → Prog S α → Prop}
    (h : Compositional P T) (X : S.Exn → Prop) : Sequential P X T :=
  ⟨h.ret, fun _ => h.raise _, h.stmt, h.bind⟩

/-- What holds of all statements of the kind `P` holds of fewer. -/
theorem Sequential.mono {P P' : S.Stmt → Prop} {X : S.Exn → Prop}
    {T : (α : Type) → Prog S α → Prop} (h : Sequential P X T) (hP : ∀ s, P' s → P s) :
    Sequential P' X T :=
  ⟨h.ret, h.raise, fun hs => h.stmt (hP _ hs), h.bind⟩

/-- What a program uses is such a property. -/
theorem compositional_uses (P : S.Stmt → Prop) (M : S.Msg → Prop) :
    Compositional P fun _ x => x.Uses P M :=
  ⟨fun _ => trivial, fun _ => trivial, fun hs => ⟨hs, fun _ => trivial⟩, Uses.bind⟩

/-- That it does not commit is another. -/
theorem compositional_commitsAtMost_zero (P : S.Stmt → Prop) :
    Compositional P fun _ x => x.CommitsAtMost 0 :=
  ⟨fun _ => trivial, fun _ => trivial, fun _ _ => trivial, CommitsAtMost.zero_bind⟩

end Prog

/-! ## Locks -/

/-- Lock modes: shared locks are compatible with each other, exclusive ones with nothing. -/
inductive Mode
  | shared
  | exclusive
  deriving DecidableEq, Repr

/-- A lock on a resource. -/
structure Lock (ρ : Type) where
  /-- What is locked. -/
  resource : ρ
  /-- How. -/
  mode : Mode
  deriving DecidableEq, Repr

namespace Lock

variable {ρ : Type}

/-- Two locks conflict when they are on one resource and not both shared. -/
def Conflicts (a b : Lock ρ) : Prop :=
  a.resource = b.resource ∧ ¬ (a.mode = .shared ∧ b.mode = .shared)

instance [DecidableEq ρ] (a b : Lock ρ) : Decidable (a.Conflicts b) :=
  inferInstanceAs (Decidable (_ ∧ _))

theorem Conflicts.symm {a b : Lock ρ} (h : a.Conflicts b) : b.Conflicts a :=
  ⟨h.1.symm, fun hm => h.2 hm.symm⟩

/-- The exclusive lock on a resource. -/
def excl (r : ρ) : Lock ρ := ⟨r, .exclusive⟩

/-- The shared lock on a resource. -/
def share (r : ρ) : Lock ρ := ⟨r, .shared⟩

@[simp] theorem resource_excl (r : ρ) : (excl r).resource = r := rfl

@[simp] theorem resource_share (r : ρ) : (share r).resource = r := rfl

/-- An exclusive lock conflicts with every lock on its resource. -/
theorem excl_conflicts {r : ρ} {l : Lock ρ} (h : l.resource = r) : (excl r).Conflicts l :=
  ⟨h.symm, fun hm => by cases hm.1⟩

end Lock

/-- Two sets of locks are compatible when no lock of one conflicts with a lock of the other. -/
def Compatible {ρ : Type} (L L' : List (Lock ρ)) : Prop :=
  ∀ l ∈ L, ∀ l' ∈ L', ¬ l.Conflicts l'

theorem Compatible.symm {ρ : Type} {L L' : List (Lock ρ)} (h : Compatible L L') :
    Compatible L' L := fun l hl l' hl' hc => h l' hl' l hl hc.symm

/-- What one session holds exclusively no compatible session holds at all. -/
theorem Compatible.not_mem {ρ : Type} {L L' : List (Lock ρ)} (h : Compatible L L') {r : ρ}
    (hr : Lock.excl r ∈ L) {l : Lock ρ} (hl : l.resource = r) : l ∉ L' :=
  fun hl' => h _ hr _ hl' (Lock.excl_conflicts hl)

/-- Compatibility passes to fewer locks. -/
theorem Compatible.mono {ρ : Type} {L L' K K' : List (Lock ρ)} (h : Compatible L L')
    (hK : K ⊆ L) (hK' : K' ⊆ L') : Compatible K K' :=
  fun l hl l' hl' => h l (hK hl) l' (hK' hl')

/-! ## Stores and sequential evaluation -/

/-- The meaning of the statements, over committed rows `σ`, uncommitted writes `π` and lockable
resources `ρ`. -/
structure Store (S : Signature) (σ π ρ : Type) where
  /-- The uncommitted writes of a transaction that has done nothing. -/
  blank : π
  /-- The locks a statement takes, in the order it takes them. -/
  footprint : S.Stmt → List (Lock ρ)
  /-- Whether the statement takes them in the given state (a row lock needs the row to be there). -/
  engaged : σ → π → S.Stmt → Bool
  /-- The reply and the new uncommitted writes, or the exception the store raises. -/
  exec : σ → π → (stmt : S.Stmt) → Except S.Exn (S.Reply stmt × π)
  /-- What a commit makes of the committed rows. -/
  merge : σ → π → σ

/-- The locks a statement takes in a given state. -/
def Store.requests {S : Signature} {σ π ρ : Type} (D : Store S σ π ρ) (s : σ) (p : π)
    (stmt : S.Stmt) : List (Lock ρ) :=
  if D.engaged s p stmt then D.footprint stmt else []

theorem Store.requests_subset {S : Signature} {σ π ρ : Type} (D : Store S σ π ρ) (s : σ) (p : π)
    (stmt : S.Stmt) : D.requests s p stmt ⊆ D.footprint stmt := by
  unfold Store.requests
  split
  · exact List.Subset.refl _
  · exact List.nil_subset _

/-- What is left after a program ran on its own. -/
structure Outcome (S : Signature) (σ π α : Type) where
  /-- The result or the exception. -/
  result : Except S.Exn α
  /-- The committed rows. -/
  store : σ
  /-- The writes not committed. -/
  pending : π
  /-- The messages sent, in order. -/
  sent : List S.Msg

namespace Store

variable {S : Signature} {σ π ρ α β : Type} (D : Store S σ π ρ)

/-- Run a program with no other session about. -/
def eval : Prog S α → σ → π → Outcome S σ π α
  | .ret a, s, p => ⟨.ok a, s, p, []⟩
  | .raise e, s, p => ⟨.error e, s, p, []⟩
  | .exec stmt next, s, p =>
      match D.exec s p stmt with
      | .ok (r, p') => eval (next r) s p'
      | .error e => ⟨.error e, s, p, []⟩
  | .commit next, s, p => eval next (D.merge s p) D.blank
  | .emit m next, s, p =>
      let o := eval next s p
      { o with sent := m :: o.sent }

@[simp] theorem eval_ret (a : α) (s : σ) (p : π) :
    D.eval (.ret a : Prog S α) s p = ⟨.ok a, s, p, []⟩ := rfl

@[simp] theorem eval_raise (e : S.Exn) (s : σ) (p : π) :
    D.eval (.raise e : Prog S α) s p = ⟨.error e, s, p, []⟩ := rfl

@[simp] theorem eval_commit (next : Prog S α) (s : σ) (p : π) :
    D.eval (.commit next) s p = D.eval next (D.merge s p) D.blank := rfl

/-- A statement that replies continues the program. -/
theorem eval_exec_ok {stmt : S.Stmt} {next : S.Reply stmt → Prog S α} {s : σ} {p p' : π}
    {r : S.Reply stmt} (h : D.exec s p stmt = .ok (r, p')) :
    D.eval (.exec stmt next) s p = D.eval (next r) s p' := by
  rw [eval, h]

/-- A statement that raises ends it. -/
theorem eval_exec_error {stmt : S.Stmt} {next : S.Reply stmt → Prog S α} {s : σ} {p : π}
    {e : S.Exn} (h : D.exec s p stmt = .error e) :
    D.eval (.exec stmt next) s p = ⟨.error e, s, p, []⟩ := by
  rw [eval, h]

/-- **Evaluation is compositional**: a program continues from what its first part left. -/
theorem eval_bind (x : Prog S α) (f : α → Prog S β) (s : σ) (p : π) :
    D.eval (x >>= f) s p =
      match (D.eval x s p).result with
      | .ok a =>
          let o := D.eval (f a) (D.eval x s p).store (D.eval x s p).pending
          { o with sent := (D.eval x s p).sent ++ o.sent }
      | .error e =>
          ⟨.error e, (D.eval x s p).store, (D.eval x s p).pending, (D.eval x s p).sent⟩ := by
  induction x generalizing s p with
  | ret a => rfl
  | raise e => rfl
  | exec stmt next ih =>
      rw [Prog.exec_bind]
      cases h : D.exec s p stmt with
      | ok rp =>
          obtain ⟨r, p'⟩ := rp
          rw [D.eval_exec_ok h, D.eval_exec_ok h, ih]
      | error e => rw [D.eval_exec_error h, D.eval_exec_error h]
  | commit next ih => rw [Prog.commit_bind, eval_commit, eval_commit, ih]
  -- what the whole sends begins with what its first part sends
  | emit m next ih =>
      rw [Prog.emit_bind, eval, ih, eval]
      cases h : (D.eval next s p).result <;> rfl

/-- A first part that succeeds without sending hands its result on. -/
theorem eval_bind_ok {x : Prog S α} {f : α → Prog S β} {s s' : σ} {p p' : π} {a : α}
    (h : D.eval x s p = ⟨.ok a, s', p', []⟩) : D.eval (x >>= f) s p = D.eval (f a) s' p' := by
  rw [eval_bind, h]
  rfl

/-- A first part that raises ends the whole. -/
theorem eval_bind_error {x : Prog S α} {f : α → Prog S β} {s s' : σ} {p p' : π} {e : S.Exn}
    (h : D.eval x s p = ⟨.error e, s', p', []⟩) :
    D.eval (x >>= f) s p = ⟨.error e, s', p', []⟩ := by
  rw [eval_bind, h]

/-- Run a session on its own: what it has not committed when it ends is rolled back. -/
def run (x : Prog S α) (s : σ) : Except S.Exn α × σ :=
  let o := D.eval x s D.blank
  (o.result, o.store)

/-- A run is read off the evaluation. -/
theorem run_eq {x : Prog S α} {s s' : σ} {p' : π} {r : Except S.Exn α} {ms : List S.Msg}
    (h : D.eval x s D.blank = ⟨r, s', p', ms⟩) : D.run x s = (r, s') := by
  rw [run, h]

end Store

end Sessions
