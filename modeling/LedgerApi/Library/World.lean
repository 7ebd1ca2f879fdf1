import Mathlib.Data.List.Dedup
import LedgerApi.Library.Program

/-! # Interleaved sessions

Any number of sessions run programs against one store, a statement at a time and in any order. A
session takes the locks of its next statement one by one, waiting while another session holds a
conflicting one, executes the statement once it has them all, and keeps every lock until it commits,
fails in the store or ends. It may be lost at any moment, which rolls it back.

`System.step` is that semantics as a function of the action taken, so that runs can be computed;
`System.Reaches` are the worlds that some run reaches, under a condition on the steps (no condition
gives every interleaving). The `log` of committed calls and the outcome kept in a finished slot
record what happened, and no step reads them. -/

namespace Sessions

variable {S : Signature} {σ π ρ κ α : Type}

/-- What the sessions share: the committed rows, the calls committed so far in commit order, and the
messages sent. -/
structure Shared (S : Signature) (σ κ : Type) where
  /-- The committed rows. -/
  store : σ
  /-- The calls that have committed, in order. -/
  log : List κ
  /-- The messages sent, in order. -/
  sent : List S.Msg

/-- A running session. -/
structure Session (S : Signature) (π ρ κ α : Type) where
  /-- The call it serves. -/
  call : κ
  /-- What remains of its program. -/
  prog : Prog S α
  /-- Its uncommitted writes. -/
  pending : π
  /-- The locks it held when its last statement was done. -/
  held : List (Lock ρ)
  /-- The locks it has taken since, for its next statement. -/
  acquired : List (Lock ρ)

/-- How a session ended. -/
inductive Verdict (S : Signature) (α : Type)
  /-- It returned. -/
  | returned (a : α)
  /-- It raised. -/
  | raised (e : S.Exn)
  /-- It was lost: its client, its connection or its server failed, perhaps after a commit. -/
  | lost

/-- A slot of the world: a running session, or how the call that ran there ended. -/
inductive Slot (S : Signature) (π ρ κ α : Type)
  | running (s : Session S π ρ κ α)
  | finished (call : κ) (verdict : Verdict S α)

/-- All the locks of a session. -/
def Session.locks (s : Session S π ρ κ α) : List (Lock ρ) := s.held ++ s.acquired

/-- The locks held in a slot. -/
def Slot.locks : Slot S π ρ κ α → List (Lock ρ)
  | .running s => s.locks
  | .finished _ _ => []

/-- The state of a run: what is shared, and the sessions started so far. -/
structure World (S : Signature) (σ π ρ κ α : Type) where
  /-- What is shared. -/
  shared : Shared S σ κ
  /-- The sessions, in the order they were started. -/
  slots : List (Slot S π ρ κ α)

/-- A store together with the program that serves each call. -/
structure System (S : Signature) (σ π ρ κ α : Type) extends Store S σ π ρ where
  /-- The program of a call. -/
  program : κ → Prog S α

/-- The world in which no call has been made. -/
def World.init (s : σ) : World S σ π ρ κ α := ⟨⟨s, [], []⟩, []⟩

/-- The session that runs in slot `i`. -/
def World.Running (w : World S σ π ρ κ α) (i : ℕ) (s : Session S π ρ κ α) : Prop :=
  w.slots[i]? = some (.running s)

/-- The sessions after one slot has changed. -/
theorem World.running_set {slots : List (Slot S π ρ κ α)} {g : Shared S σ κ} {i j : ℕ}
    {x : Slot S π ρ κ α} {t : Session S π ρ κ α}
    (h : World.Running ⟨g, slots.set i x⟩ j t) :
    (j = i ∧ x = .running t) ∨ (j ≠ i ∧ World.Running ⟨g, slots⟩ j t) := by
  unfold World.Running at h ⊢
  rw [List.getElem?_set] at h
  split at h
  case isTrue hij =>
    split at h
    case isTrue => exact Or.inl ⟨hij.symm, Option.some.inj h⟩
    case isFalse => cases h
  case isFalse hij => exact Or.inr ⟨fun h => hij h.symm, h⟩

/-- The sessions after one more has been started. -/
theorem World.running_append {slots : List (Slot S π ρ κ α)} {g : Shared S σ κ} {j : ℕ}
    {s t : Session S π ρ κ α} (h : World.Running ⟨g, slots ++ [.running s]⟩ j t) :
    World.Running ⟨g, slots⟩ j t ∨ (j = slots.length ∧ t = s) := by
  unfold World.Running at h ⊢
  rw [List.getElem?_append] at h
  split at h
  case isTrue => exact Or.inl h
  case isFalse hj =>
    -- past the old slots there is one index more
    obtain ⟨hlt, h⟩ := List.getElem?_eq_some_iff.mp h
    have hj' : j - slots.length = 0 := by simpa using hlt
    simp only [hj', List.getElem_cons_zero, Slot.running.injEq] at h
    exact Or.inr ⟨by omega, h.symm⟩

/-- A commit: the writes become visible and the call is logged. -/
def Shared.commit (D : Store S σ π ρ) (g : Shared S σ κ) (call : κ) (p : π) : Shared S σ κ :=
  { g with store := D.merge g.store p, log := g.log ++ [call] }

/-- A message sent. -/
def Shared.emit (g : Shared S σ κ) (m : S.Msg) : Shared S σ κ := { g with sent := g.sent ++ [m] }

@[simp] theorem Shared.emit_store (g : Shared S σ κ) (m : S.Msg) : (g.emit m).store = g.store := rfl

@[simp] theorem Shared.emit_log (g : Shared S σ κ) (m : S.Msg) : (g.emit m).log = g.log := rfl

@[simp] theorem Shared.commit_store (D : Store S σ π ρ) (g : Shared S σ κ) (call : κ) (p : π) :
    (g.commit D call p).store = D.merge g.store p := rfl

@[simp] theorem Shared.commit_log (D : Store S σ π ρ) (g : Shared S σ κ) (call : κ) (p : π) :
    (g.commit D call p).log = g.log ++ [call] := rfl

namespace System

variable (Y : System S σ π ρ κ α)

/-- The session that starts serving a call. -/
def fresh (call : κ) : Session S π ρ κ α := ⟨call, Y.program call, Y.blank, [], []⟩

/-- The locks the next statement of a program takes at most. -/
def wants : Prog S α → List (Lock ρ)
  | .exec stmt _ => Y.footprint stmt
  | _ => []

/-- The locks a session still needs for its next statement, in the order it takes them. -/
def missing [DecidableEq ρ] (g : Shared S σ κ) (s : Session S π ρ κ α) : List (Lock ρ) :=
  -- a lock that the session has already is not asked for again
  match s.prog with
  | .exec stmt _ => (Y.requests g.store s.pending stmt).filter (· ∉ s.locks)
  | _ => []

/-- One step of a session that needs no further lock: execute, commit, send, or end. -/
def advance (g : Shared S σ κ) (s : Session S π ρ κ α) : Shared S σ κ × Slot S π ρ κ α :=
  match s.prog with
  | .ret a => (g, .finished s.call (.returned a))
  | .raise e => (g, .finished s.call (.raised e))
  | .exec stmt next =>
      match Y.exec g.store s.pending stmt with
      | .ok (r, p) => (g, .running ⟨s.call, next r, p, s.locks, []⟩)
      -- the store rolls a failed transaction back at once, which frees its locks
      | .error e => (g, .running ⟨s.call, .raise e, s.pending, [], []⟩)
  | .commit next =>
      (g.commit Y.toStore s.call s.pending, .running ⟨s.call, next, Y.blank, [], []⟩)
  | .emit m next => (g.emit m, .running ⟨s.call, next, s.pending, s.held, s.acquired⟩)

/-- A session that goes on keeps its locks, or has given all of them back. -/
theorem advance_locks {g : Shared S σ κ} {s t : Session S π ρ κ α}
    (h : (Y.advance g s).2 = .running t) : t.locks = s.locks ∨ t.locks = [] := by
  unfold advance at h
  split at h
  · cases h
  · cases h
  · split at h <;> obtain rfl := Slot.running.inj h
    · exact Or.inl (List.append_nil _)
    · exact Or.inr rfl
  · obtain rfl := Slot.running.inj h
    exact Or.inr rfl
  · obtain rfl := Slot.running.inj h
    exact Or.inl rfl

/-- A session that goes on serves its call still. -/
theorem advance_call {g : Shared S σ κ} {s t : Session S π ρ κ α}
    (h : (Y.advance g s).2 = .running t) : t.call = s.call := by
  unfold advance at h
  split at h
  · cases h
  · cases h
  · split at h <;> obtain rfl := Slot.running.inj h <;> rfl
  · obtain rfl := Slot.running.inj h
    rfl
  · obtain rfl := Slot.running.inj h
    rfl

/-- A statement changes nothing that is shared. -/
theorem advance_exec (g : Shared S σ κ) (s : Session S π ρ κ α) {stmt : S.Stmt}
    {next : S.Reply stmt → Prog S α} (h : s.prog = .exec stmt next) : (Y.advance g s).1 = g := by
  simp only [advance, h]
  split <;> rfl

/-- What a scheduler can do next. -/
inductive Action (κ : Type)
  /-- A new session starts serving a call. -/
  | start (call : κ)
  /-- Session `i` is granted the next lock it needs. -/
  | acquire (i : ℕ)
  /-- Session `i` does what is next in its program. -/
  | advance (i : ℕ)
  /-- Session `i` is lost. -/
  | fault (i : ℕ)

/-- A lock can be granted to session `i`: no other session holds a conflicting one. -/
def Grantable (w : World S σ π ρ κ α) (i : ℕ) (l : Lock ρ) : Prop :=
  ∀ j ∈ List.range w.slots.length, j ≠ i →
    ∀ slot ∈ w.slots[j]?, ∀ l' ∈ slot.locks, ¬ l.Conflicts l'

instance [DecidableEq ρ] (w : World S σ π ρ κ α) (i : ℕ) (l : Lock ρ) :
    Decidable (Grantable w i l) := by
  unfold Grantable
  exact List.decidableBAll (fun j => j ≠ i → ∀ slot ∈ w.slots[j]?, ∀ l' ∈ slot.locks,
    ¬ l.Conflicts l') _

/-- The world after an action, if the action is possible. -/
def step [DecidableEq ρ] (w : World S σ π ρ κ α) : Action κ → Option (World S σ π ρ κ α)
  | .start call => some { w with slots := w.slots ++ [.running (Y.fresh call)] }
  | .acquire i =>
      match w.slots[i]? with
      | some (.running s) =>
          match Y.missing w.shared s with
          | l :: _ =>
              if Grantable w i l then
                some { w with
                  slots := w.slots.set i (.running { s with acquired := s.acquired ++ [l] }) }
              else none
          | [] => none
      | _ => none
  | .advance i =>
      match w.slots[i]? with
      | some (.running s) =>
          if Y.missing w.shared s = [] then
            some ⟨(Y.advance w.shared s).1, w.slots.set i (Y.advance w.shared s).2⟩
          else none
      | _ => none
  | .fault i =>
      match w.slots[i]? with
      | some (.running s) => some { w with slots := w.slots.set i (.finished s.call .lost) }
      | _ => none

/-- The worlds reached from `w₀` by steps that satisfy `adm`. -/
inductive Reaches [DecidableEq ρ] (adm : World S σ π ρ κ α → Action κ → Prop)
    (w₀ : World S σ π ρ κ α) : World S σ π ρ κ α → Prop
  | refl : Reaches adm w₀ w₀
  | step {w w' : World S σ π ρ κ α} {a : Action κ} (h : Reaches adm w₀ w) (hadm : adm w a)
      (hstep : Y.step w a = some w') : Reaches adm w₀ w'

/-- The worlds some interleaving reaches. -/
abbrev Reachable [DecidableEq ρ] (w₀ w : World S σ π ρ κ α) : Prop :=
  Y.Reaches (fun _ _ => True) w₀ w

/-! ## Computed runs -/

section Computed

variable [DecidableEq ρ] (adm : World S σ π ρ κ α → Action κ → Prop) [∀ w a, Decidable (adm w a)]

/-- The world after a sequence of actions, if they are all possible and satisfy `adm`. -/
def steps (w : World S σ π ρ κ α) : List (Action κ) → Option (World S σ π ρ κ α)
  | [] => some w
  | a :: as => if adm w a then (Y.step w a).bind fun w' => steps w' as else none

/-- The actions of a session's turn: it takes the locks it still needs and does what is next. -/
def turn (w : World S σ π ρ κ α) (i : ℕ) : List (Action κ) :=
  match w.slots[i]? with
  | some (.running s) =>
      -- a lock that the statement wants twice is taken once
      List.replicate (Y.missing w.shared s).dedup.length (.acquire i) ++ [.advance i]
  | _ => []

/-- The world after some sessions have had their turns, one after the other. -/
def turns (w : World S σ π ρ κ α) : List ℕ → Option (World S σ π ρ κ α)
  | [] => some w
  | i :: is => (Y.steps adm w (Y.turn w i)).bind fun w' => turns w' is

/-- The world after some more calls have been started and sessions have had their turns. -/
def runFrom (w : World S σ π ρ κ α) (calls : List κ) (is : List ℕ) :
    Option (World S σ π ρ κ α) :=
  (Y.steps adm w (calls.map .start)).bind fun w => Y.turns adm w is

/-- The run in which some calls are started and their sessions have their turns in a given order. -/
def run (s : σ) (calls : List κ) (is : List ℕ) : Option (World S σ π ρ κ α) :=
  (Y.steps adm (World.init s) (calls.map .start)).bind fun w => Y.turns adm w is

variable {Y adm} {w₀ w w' : World S σ π ρ κ α}

theorem Reaches.of_steps {as : List (Action κ)} (hw : Y.Reaches adm w₀ w)
    (h : Y.steps adm w as = some w') : Y.Reaches adm w₀ w' := by
  induction as generalizing w with
  | nil => exact Option.some.inj h ▸ hw
  | cons a as ih =>
      rw [steps] at h
      split at h
      case isTrue hadm =>
        obtain ⟨v, hv, hrest⟩ := Option.bind_eq_some_iff.mp h
        exact ih (hw.step hadm hv) hrest
      case isFalse => cases h

theorem Reaches.of_turns {is : List ℕ} (hw : Y.Reaches adm w₀ w)
    (h : Y.turns adm w is = some w') : Y.Reaches adm w₀ w' := by
  induction is generalizing w with
  | nil => exact Option.some.inj h ▸ hw
  | cons i is ih =>
      obtain ⟨v, hv, hrest⟩ := Option.bind_eq_some_iff.mp h
      exact ih (hw.of_steps hv) hrest

/-- **A computed run is a run.** -/
theorem Reaches.of_runFrom {calls : List κ} {is : List ℕ} (hw : Y.Reaches adm w₀ w)
    (h : Y.runFrom adm w calls is = some w') : Y.Reaches adm w₀ w' := by
  obtain ⟨v, hv, hturns⟩ := Option.bind_eq_some_iff.mp h
  exact (hw.of_steps hv).of_turns hturns

theorem Reaches.of_run {s : σ} {calls : List κ} {is : List ℕ} (h : Y.run adm s calls is = some w) :
    Y.Reaches adm (World.init s) w :=
  Reaches.refl.of_runFrom h

end Computed

variable {Y}

/-- Steps under a condition satisfy another that follows from it along the run. -/
theorem Reaches.mono [DecidableEq ρ] {adm adm' : World S σ π ρ κ α → Action κ → Prop}
    {w₀ w : World S σ π ρ κ α} (h : Y.Reaches adm w₀ w)
    (hadm : ∀ v a, Y.Reaches adm w₀ v → adm v a → adm' v a) : Y.Reaches adm' w₀ w := by
  induction h with
  | refl => exact .refl
  | step hv ha hstep ih => exact ih.step (hadm _ _ hv ha) hstep

/-- Steps under a condition are steps. -/
theorem Reaches.reachable [DecidableEq ρ] {adm : World S σ π ρ κ α → Action κ → Prop}
    {w₀ w : World S σ π ρ κ α} (h : Y.Reaches adm w₀ w) : Y.Reachable w₀ w :=
  h.mono fun _ _ _ _ => trivial

/-- Runs are composed. -/
theorem Reaches.trans [DecidableEq ρ] {adm : World S σ π ρ κ α → Action κ → Prop}
    {w₀ w w' : World S σ π ρ κ α} (h : Y.Reaches adm w₀ w) (h' : Y.Reaches adm w w') :
    Y.Reaches adm w₀ w' := by
  induction h' with
  | refl => exact h
  | step _ hadm hstep ih => exact ih.step hadm hstep

/-! ## What one step can do -/

/-- **The four kinds of step.** -/
theorem step_cases [DecidableEq ρ] {w w' : World S σ π ρ κ α} {a : Action κ}
    (h : Y.step w a = some w') :
    (∃ call, a = .start call ∧
      w' = { w with slots := w.slots ++ [.running (Y.fresh call)] }) ∨
    (∃ i s l rest, a = .acquire i ∧ w.Running i s ∧ Y.missing w.shared s = l :: rest ∧
      Grantable w i l ∧
      w' = { w with slots := w.slots.set i (.running { s with acquired := s.acquired ++ [l] }) }) ∨
    (∃ i s, a = .advance i ∧ w.Running i s ∧ Y.missing w.shared s = [] ∧
      w' = ⟨(Y.advance w.shared s).1, w.slots.set i (Y.advance w.shared s).2⟩) ∨
    (∃ i s, a = .fault i ∧ w.Running i s ∧
      w' = { w with slots := w.slots.set i (.finished s.call .lost) }) := by
  cases a with
  | start call => exact Or.inl ⟨call, rfl, (Option.some.inj h).symm⟩
  | acquire i =>
      simp only [step] at h
      split at h
      case h_2 => cases h
      case h_1 s hs =>
        split at h
        case h_2 => cases h
        case h_1 l rest hl =>
          split at h
          case isFalse => cases h
          case isTrue hg =>
            exact Or.inr (Or.inl ⟨i, s, l, rest, rfl, hs, hl, hg, (Option.some.inj h).symm⟩)
  | advance i =>
      simp only [step] at h
      split at h
      case h_2 => cases h
      case h_1 s hs =>
        split at h
        case isFalse => cases h
        case isTrue hm =>
          exact Or.inr (Or.inr (Or.inl ⟨i, s, rfl, hs, hm, (Option.some.inj h).symm⟩))
  | fault i =>
      simp only [step] at h
      split at h
      case h_2 => cases h
      case h_1 s hs => exact Or.inr (Or.inr (Or.inr ⟨i, s, rfl, hs, (Option.some.inj h).symm⟩))

/-- What a step does to the shared state: nothing, a commit, or a message. -/
theorem shared_step [DecidableEq ρ] {w w' : World S σ π ρ κ α} {a : Action κ}
    (h : Y.step w a = some w') :
    w'.shared = w.shared ∨
    (∃ i s next, a = .advance i ∧ w.Running i s ∧ s.prog = .commit next ∧
      w'.shared = w.shared.commit Y.toStore s.call s.pending) ∨
    ∃ i s m next, a = .advance i ∧ w.Running i s ∧ s.prog = .emit m next ∧
      w'.shared = w.shared.emit m := by
  rcases step_cases h with ⟨call, -, rfl⟩ | ⟨i, s, l, rest, -, -, -, -, rfl⟩ |
    ⟨i, s, rfl, hs, -, rfl⟩ | ⟨i, s, -, -, rfl⟩
  · exact Or.inl rfl
  · exact Or.inl rfl
  · cases hprog : s.prog with
    | ret a => exact Or.inl (by simp only [advance, hprog])
    | raise e => exact Or.inl (by simp only [advance, hprog])
    | exec stmt next =>
        left
        cases hexec : Y.exec w.shared.store s.pending stmt with
        | ok rp => simp only [advance, hprog, hexec]
        | error e => simp only [advance, hprog, hexec]
    | commit next =>
        exact Or.inr (Or.inl ⟨i, s, next, rfl, hs, hprog, by simp only [advance, hprog]⟩)
    | emit m next =>
        exact Or.inr (Or.inr ⟨i, s, m, next, rfl, hs, hprog, by simp only [advance, hprog]⟩)
  · exact Or.inl rfl

/-- What has been sent remains so. -/
theorem sent_subset_step [DecidableEq ρ] {w w' : World S σ π ρ κ α} {a : Action κ}
    (h : Y.step w a = some w') : w.shared.sent ⊆ w'.shared.sent := by
  rcases shared_step h with hsame | ⟨i, s, next, -, -, -, hcommit⟩ | ⟨i, s, m, next, -, -, -, hemit⟩
  · rw [hsame]
    exact List.Subset.refl _
  · rw [hcommit]
    exact List.Subset.refl _
  · rw [hemit]
    exact List.subset_append_left _ _

/-- A session that stands before its commit can commit. -/
theorem step_commit [DecidableEq ρ] {w : World S σ π ρ κ α} {i : ℕ} {s : Session S π ρ κ α}
    {next : Prog S α} (hs : w.Running i s) (hprog : s.prog = .commit next) :
    ∃ w', Y.step w (.advance i) = some w' ∧
      w'.shared = w.shared.commit Y.toStore s.call s.pending := by
  have hmissing : Y.missing w.shared s = [] := by simp only [missing, hprog]
  unfold World.Running at hs
  refine ⟨⟨(Y.advance w.shared s).1, w.slots.set i (Y.advance w.shared s).2⟩, ?_, ?_⟩
  · simp only [step, hs, hmissing, if_pos]
  · simp only [advance, hprog]

/-- A grantable lock conflicts with no lock of another running session. -/
theorem Grantable.not_conflicts {w : World S σ π ρ κ α} {i j : ℕ} {l l' : Lock ρ}
    {t : Session S π ρ κ α} (h : Grantable w i l) (ht : w.Running j t) (hij : j ≠ i)
    (hl' : l' ∈ t.locks) : ¬ l.Conflicts l' :=
  have hj : j < w.slots.length := (List.getElem?_eq_some_iff.mp ht).1
  h j (List.mem_range.mpr hj) hij _ ht l' hl'

/-- The next lock a session needs is preceded in its statement by locks it has. -/
theorem missing_eq_cons [DecidableEq ρ] {g : Shared S σ κ} {s : Session S π ρ κ α} {l : Lock ρ}
    {rest : List (Lock ρ)} (h : Y.missing g s = l :: rest) :
    ∃ stmt next pre post, s.prog = .exec stmt next ∧ Y.footprint stmt = pre ++ l :: post ∧
      pre ⊆ s.locks ∧ l ∉ s.locks := by
  unfold missing at h
  cases hprog : s.prog with
  | exec stmt next =>
      simp only [hprog, Store.requests] at h
      split at h
      case isFalse => cases h
      case isTrue =>
        -- the locks before the first missing one have been filtered out, so they are held
        obtain ⟨pre, post, hfoot, hbefore, hl, -⟩ := List.filter_eq_cons_iff.mp h
        exact ⟨stmt, next, pre, post, rfl, hfoot, fun x hx => by simpa using hbefore x hx,
          by simpa using hl⟩
  | _ => simp [hprog] at h

/-! ## Local invariants -/

/-- What a session does next keeps an invariant `G` of what is shared, its own `J`, and the `J` of
every other session. -/
structure Keeps (Y : System S σ π ρ κ α) (G : Shared S σ κ → Prop)
    (J : Shared S σ κ → κ → Prog S α → π → Prop) (g : Shared S σ κ) (s : Session S π ρ κ α) :
    Prop where
  shared : G (Y.advance g s).1
  own : ∀ t, (Y.advance g s).2 = .running t → J (Y.advance g s).1 t.call t.prog t.pending
  others : ∀ call prog p, J g call prog p → J (Y.advance g s).1 call prog p

/-- **Rule**: an invariant `G` of what is shared and an invariant `J` of each session, which speaks
of the rest of its program and its writes. -/
theorem Reaches.local_invariant [DecidableEq ρ] {adm : World S σ π ρ κ α → Action κ → Prop}
    {w₀ w : World S σ π ρ κ α} {G : Shared S σ κ → Prop}
    {J : Shared S σ κ → κ → Prog S α → π → Prop} (h : Y.Reaches adm w₀ w) (hG : G w₀.shared)
    (hnone : w₀.slots = []) (hstart : ∀ g call, J g call (Y.program call) Y.blank)
    (hadvance : ∀ w i s, Y.Reaches adm w₀ w → adm w (.advance i) → w.Running i s → G w.shared →
      J w.shared s.call s.prog s.pending → Y.Keeps G J w.shared s) :
    G w.shared ∧ ∀ i s, w.Running i s → J w.shared s.call s.prog s.pending := by
  induction h with
  | refl =>
      refine ⟨hG, fun i s hs => ?_⟩
      rw [World.Running, hnone] at hs
      cases hs
  | @step w w' a hw hadm hstep ih =>
      obtain ⟨hGw, hJ⟩ := ih
      rcases step_cases hstep with ⟨call, -, rfl⟩ | ⟨i, s, l, rest, -, hs, -, -, rfl⟩ |
        ⟨i, s, rfl, hs, -, rfl⟩ | ⟨i, s, -, -, rfl⟩
      · refine ⟨hGw, fun j t ht => ?_⟩
        rcases World.running_append ht with ht | ⟨-, rfl⟩
        · exact hJ j t ht
        · exact hstart _ call
      · refine ⟨hGw, fun j t ht => ?_⟩
        rcases World.running_set ht with ⟨rfl, hslot⟩ | ⟨-, ht⟩
        · obtain rfl := Slot.running.inj hslot
          exact hJ _ s hs
        · exact hJ j t ht
      · obtain ⟨hG', hown, hothers⟩ := hadvance w i s hw hadm hs hGw (hJ i s hs)
        refine ⟨hG', fun j t ht => ?_⟩
        rcases World.running_set ht with ⟨rfl, hslot⟩ | ⟨-, ht⟩
        · exact hown t hslot
        · exact hothers _ _ _ (hJ j t ht)
      · refine ⟨hGw, fun j t ht => ?_⟩
        rcases World.running_set ht with ⟨-, hslot⟩ | ⟨-, ht⟩
        · cases hslot
        · exact hJ j t ht

/-- **Rule** for one session: what its own steps keep holds of it from then on, whatever the others
do. -/
theorem Reaches.session_invariant [DecidableEq ρ] {adm : World S σ π ρ κ α → Action κ → Prop}
    {w₁ w : World S σ π ρ κ α} {K : Prog S α → π → Prop} {i : ℕ} (h : Y.Reaches adm w₁ w)
    (hi : i < w₁.slots.length) (hK : ∀ s, w₁.Running i s → K s.prog s.pending)
    (hadvance : ∀ g s t, K s.prog s.pending → (Y.advance g s).2 = .running t →
      K t.prog t.pending) :
    ∀ t, w.Running i t → K t.prog t.pending := by
  -- a slot once taken stays with its session, as new ones are put behind it
  suffices hboth : i < w.slots.length ∧ ∀ t, w.Running i t → K t.prog t.pending from hboth.2
  induction h with
  | refl => exact ⟨hi, hK⟩
  | @step w w' a hw hadm hstep ih =>
      obtain ⟨hlt, hslot⟩ := ih
      rcases step_cases hstep with ⟨call, -, rfl⟩ | ⟨j, s, l, rest, -, hs, -, -, rfl⟩ |
        ⟨j, s, -, hs, -, rfl⟩ | ⟨j, s, -, -, rfl⟩
      · refine ⟨?_, fun t ht => ?_⟩
        · rw [List.length_append]
          exact Nat.lt_add_right 1 hlt
        rcases World.running_append ht with ht | ⟨rfl, -⟩
        · exact hslot t ht
        · exact absurd hlt (Nat.lt_irrefl _)
      · refine ⟨by rwa [List.length_set], fun t ht => ?_⟩
        rcases World.running_set ht with ⟨rfl, hrunning⟩ | ⟨-, ht⟩
        · obtain rfl := Slot.running.inj hrunning
          exact hslot s hs
        · exact hslot t ht
      · refine ⟨by rwa [List.length_set], fun t ht => ?_⟩
        rcases World.running_set ht with ⟨rfl, hrunning⟩ | ⟨-, ht⟩
        · exact hadvance _ s t (hslot s hs) hrunning
        · exact hslot t ht
      · refine ⟨by rwa [List.length_set], fun t ht => ?_⟩
        rcases World.running_set ht with ⟨-, hrunning⟩ | ⟨-, ht⟩
        · cases hrunning
        · exact hslot t ht

end System

end Sessions
