import Mathlib.Logic.Hydra
import Mathlib.Data.Fintype.EquivFin
import Mathlib.Algebra.BigOperators.Group.List.Basic
import Mathlib.Data.Multiset.AddSub
import Mathlib.Order.WellFounded
import LedgerApi.Library.LockOrder

/-! # Progress of interleaved sessions

A program is a well-founded tree (`Prog.wellFounded_next`), and before each of its statements a
session can be granted finitely many locks only. Every step other than the start of a new session
makes what is left to do smaller (`step_lighter`), in the order in which the multiset of the
sessions' loads loses one element to finitely many smaller ones. A run that goes on for ever has to
start new sessions again and again (`frequently_starts`).

Where no session waits for itself through others, some running session can go on
(`exists_forward`). If that is so in every world reached, the sessions of a world can all be brought
to their ends, none of them lost (`exists_rest`). -/

namespace Sessions

variable {S : Signature} {σ π ρ κ α : Type}

namespace Prog

/-- What may be left of a program after its first action. -/
inductive Next : Prog S α → Prog S α → Prop
  | replied (stmt : S.Stmt) (next : S.Reply stmt → Prog S α) (r : S.Reply stmt) :
      Next (next r) (.exec stmt next)
  | refused (stmt : S.Stmt) (next : S.Reply stmt → Prog S α) (e : S.Exn) :
      Next (.raise e) (.exec stmt next)
  | committed (next : Prog S α) : Next next (.commit next)
  | sent (m : S.Msg) (next : Prog S α) : Next next (.emit m next)

/-- A program has no infinite run. -/
theorem wellFounded_next : WellFounded (Next (S := S) (α := α)) := by
  have raised : ∀ e, Acc (Next (S := S) (α := α)) (.raise e) := fun e => ⟨_, fun y h => by cases h⟩
  refine ⟨fun x => ?_⟩
  induction x with
  | ret a => exact ⟨_, fun y h => by cases h⟩
  | raise e => exact raised e
  | exec stmt next ih =>
      refine ⟨_, fun y h => ?_⟩
      cases h with
      | replied => exact ih _
      | refused => exact raised _
  | commit next ih =>
      refine ⟨_, fun y h => ?_⟩
      cases h
      exact ih
  | emit m next ih =>
      refine ⟨_, fun y h => ?_⟩
      cases h
      exact ih

end Prog

/-- A slot still serves the call, or the call has ended there and was not lost. -/
def Slot.Serves (call : κ) : Slot S π ρ κ α → Prop
  | .running s => s.call = call
  | .finished c verdict => c = call ∧ verdict ≠ .lost

namespace System

/-- An action that carries on with a running session. -/
def Action.Forward : Action κ → Prop
  | .acquire _ => True
  | .advance _ => True
  | _ => False

variable {Y : System S σ π ρ κ α}

/-- A session that goes on has a step less of its program left. -/
theorem advance_next {g : Shared S σ κ} {s t : Session S π ρ κ α}
    (h : (Y.advance g s).2 = .running t) : Prog.Next t.prog s.prog := by
  unfold advance at h
  split at h
  case h_1 => cases h
  case h_2 => cases h
  case h_3 stmt next hprog =>
    rw [hprog]
    split at h <;> obtain rfl := Slot.running.inj h
    · exact .replied stmt next _
    · exact .refused stmt next _
  case h_4 next hprog =>
    rw [hprog]
    obtain rfl := Slot.running.inj h
    exact .committed next
  case h_5 m next hprog =>
    rw [hprog]
    obtain rfl := Slot.running.inj h
    exact .sent m next

variable [DecidableEq ρ]

variable (Y) in
/-- What a slot has left to do: the rest of its program, and the number of locks that it may still
take for the next statement. -/
def load : Slot S π ρ κ α → Multiset (Prog S α × ℕ)
  | .running s => {(s.prog, ((Y.wants s.prog).filter fun l => !s.locks.contains l).length)}
  | .finished _ _ => 0

/-- The order of what sessions have left to do. -/
def Lighter : Multiset (Prog S α × ℕ) → Multiset (Prog S α × ℕ) → Prop :=
  Relation.CutExpand (Prod.Lex Prog.Next (· < ·))

theorem wellFounded_lighter : WellFounded (Lighter (S := S) (α := α)) :=
  (Prog.wellFounded_next.prod_lex Nat.lt_wfRel.wf).cutExpand

/-- A slot that is replaced by a lighter one makes the whole lighter. -/
theorem lighter_set {slots : List (Slot S π ρ κ α)} {i : ℕ} {s : Session S π ρ κ α}
    {slot : Slot S π ρ κ α} (hi : slots[i]? = some (.running s))
    (hslot : ∀ b ∈ Y.load slot, ∀ a ∈ Y.load (.running s), Prod.Lex Prog.Next (· < ·) b a) :
    Lighter ((slots.set i slot).map Y.load).sum (slots.map Y.load).sum := by
  obtain ⟨hlt, hget⟩ := List.getElem?_eq_some_iff.mp hi
  have hself : slots = slots.set i (.running s) := by rw [← hget, List.set_getElem_self]
  refine ⟨Y.load slot, _, fun b hb => hslot b hb _ (Multiset.mem_singleton_self _), ?_⟩
  conv_rhs => rw [hself]
  simp only [List.map_set, List.sum_set, List.length_map, hlt, if_true]
  change _ + Y.load slot + _ + Y.load (.running s) = _ + Y.load (.running s) + _ + Y.load slot
  ac_rfl

/-- Fewer locks are missing once one of them is there. -/
theorem length_missing_lt {L wants : List (Lock ρ)} {l : Lock ρ} (hl : l ∈ wants) (hL : l ∉ L) :
    (wants.filter fun x => !(L ++ [l]).contains x).length <
      (wants.filter fun x => !L.contains x).length := by
  have hsub : (wants.filter fun x => !(L ++ [l]).contains x) =
      (wants.filter fun x => !L.contains x).filter (· ≠ l) := by
    rw [List.filter_filter]
    refine List.filter_congr fun x _ => ?_
    simp [Bool.and_comm]
  rw [hsub, List.length_filter_lt_length_iff_exists]
  exact ⟨l, by simp [hl, hL], by simp⟩

/-- **What is left to do shrinks** with every step but the start of a session. -/
theorem step_lighter {w w' : World S σ π ρ κ α} {a : Action κ} (h : Y.step w a = some w')
    (ha : ∀ call, a ≠ .start call) :
    Lighter (w'.slots.map Y.load).sum (w.slots.map Y.load).sum := by
  rcases step_cases h with ⟨call, rfl, -⟩ | ⟨i, s, l, rest, -, hs, hl, -, rfl⟩ |
    ⟨i, s, -, hs, -, rfl⟩ | ⟨i, s, -, hs, rfl⟩
  · exact absurd rfl (ha call)
  · -- the program is the same, and lacks a lock less
    obtain ⟨stmt, next, pre, post, hprog, hfoot, -, hmem⟩ := missing_eq_cons hl
    refine lighter_set hs fun b hb a ha => ?_
    obtain rfl := Multiset.mem_singleton.mp ha
    obtain rfl := Multiset.mem_singleton.mp hb
    have hwants : l ∈ Y.wants s.prog := by
      rw [hprog, wants, hfoot]
      exact List.mem_append_right _ (List.mem_cons_self ..)
    have hlt := length_missing_lt hwants hmem
    rw [Session.locks, List.append_assoc] at hlt
    exact .right _ hlt
  · refine lighter_set hs fun b hb a ha => ?_
    obtain rfl := Multiset.mem_singleton.mp ha
    cases hslot : (Y.advance w.shared s).2 with
    | running t =>
        rw [hslot] at hb
        obtain rfl := Multiset.mem_singleton.mp hb
        exact .left _ _ (advance_next hslot)
    | finished call verdict =>
        rw [hslot] at hb
        exact absurd hb (Multiset.notMem_zero b)
  · exact lighter_set hs fun b hb => absurd hb (Multiset.notMem_zero b)

/-- **No run goes on for ever by itself**: in an infinite run, however it is scheduled, new calls
are made again and again. -/
theorem frequently_starts {ws : ℕ → World S σ π ρ κ α} {as : ℕ → Action κ}
    (h : ∀ n, Y.step (ws n) (as n) = some (ws (n + 1))) (n : ℕ) :
    ∃ m ≥ n, ∃ call, as m = .start call := by
  by_contra hnone
  have hnone : ∀ m, n ≤ m → ∀ call, as m ≠ .start call := fun m hm call hcall =>
    hnone ⟨m, hm, call, hcall⟩
  -- the worlds from `n` on would be an infinite descent
  refine (wellFounded_iff_isEmpty_descending_chain.mp wellFounded_lighter).false
    ⟨fun k => ((ws (n + k)).slots.map Y.load).sum, fun k => ?_⟩
  exact step_lighter (h (n + k)) (hnone _ (Nat.le_add_right n k))

/-! ## Sessions that can go on -/

/-- A session that waits for nobody can go on. -/
theorem exists_forward_of_not_waitsFor {w : World S σ π ρ κ α} {i : ℕ} {s : Session S π ρ κ α}
    (hs : w.Running i s) (h : ∀ j, ¬ WaitsFor Y w i j) :
    ∃ a w', Action.Forward a ∧ Y.step w a = some w' := by
  have hslot : w.slots[i]? = some (.running s) := hs
  cases hl : Y.missing w.shared s with
  | nil => exact ⟨.advance i, _, trivial, by simp only [step, hslot, hl, if_true]; rfl⟩
  | cons l rest =>
      have hgrant : Grantable w i l := by
        intro j _ hj slot hget l' hl' hconf
        refine h j ⟨hj, l, ?_, l', ?_, hconf⟩
        · simp only [wanted, hslot, hl, List.head?_cons, Option.mem_def]
        · simpa only [World.locksAt, Option.mem_def.mp hget] using hl'
      exact ⟨.acquire i, _, trivial, by simp only [step, hslot, hl, hgrant, if_true]; rfl⟩

/-- **Without a circle of waiting sessions** one of those that run can go on. -/
theorem exists_forward {w : World S σ π ρ κ α}
    (hcycle : ∀ i, ¬ Relation.TransGen (WaitsFor Y w) i i) {i : ℕ} {s : Session S π ρ κ α}
    (hs : w.Running i s) : ∃ a w', Action.Forward a ∧ Y.step w a = some w' := by
  -- among the finitely many running sessions there is one at the end of a chain of waits
  let r : Fin w.slots.length → Fin w.slots.length → Prop := fun j k =>
    Relation.TransGen (WaitsFor Y w) k j
  have : IsTrans _ r := ⟨fun _ _ _ hab hbc => hbc.trans hab⟩
  have : Std.Irrefl r := ⟨fun j => hcycle j⟩
  have running : ∀ {j t}, w.Running j t → j < w.slots.length := fun h =>
    (List.getElem?_eq_some_iff.mp h).1
  obtain ⟨⟨j, hj⟩, ⟨t, ht⟩, hmin⟩ := (Finite.wellFounded_of_trans_of_irrefl r).has_min
    {j | ∃ t, w.Running j t} ⟨⟨i, running hs⟩, s, hs⟩
  refine exists_forward_of_not_waitsFor ht fun k hk => ?_
  obtain ⟨-, -, -, l', hl', -⟩ := id hk
  obtain ⟨u, hu, -⟩ := World.running_of_locksAt hl'
  exact hmin ⟨k, running hu⟩ ⟨u, hu⟩ (.single hk)

omit [DecidableEq ρ] in
/-- A session that ends by a step of its own has returned or raised. -/
theorem finished_of_advance {g : Shared S σ κ} {s : Session S π ρ κ α} {call : κ}
    {verdict : Verdict S α} (h : (Y.advance g s).2 = .finished call verdict) :
    call = s.call ∧ verdict ≠ .lost := by
  unfold advance at h
  split at h
  case h_1 =>
    obtain ⟨rfl, rfl⟩ := Slot.finished.inj h
    exact ⟨rfl, fun h => by cases h⟩
  case h_2 =>
    obtain ⟨rfl, rfl⟩ := Slot.finished.inj h
    exact ⟨rfl, fun h => by cases h⟩
  case h_3 => split at h <;> cases h
  case h_4 => cases h
  case h_5 => cases h

/-- While sessions are carried on, each serves its call. -/
theorem Reaches.serves {w v : World S σ π ρ κ α} (h : Y.Reaches (fun _ a => a.Forward) w v)
    {i : ℕ} {s : Session S π ρ κ α} (hs : w.Running i s) :
    ∃ slot, v.slots[i]? = some slot ∧ slot.Serves s.call := by
  induction h with
  | refl => exact ⟨_, hs, rfl⟩
  | @step v v' a _ ha hstep ih =>
      obtain ⟨slot, hslot, hserves⟩ := ih
      have hlt : i < v.slots.length := (List.getElem?_eq_some_iff.mp hslot).1
      rcases step_cases hstep with ⟨call, rfl, -⟩ | ⟨j, t, l, rest, -, ht, -, -, rfl⟩ |
        ⟨j, t, -, ht, -, rfl⟩ | ⟨j, t, rfl, -, -⟩
      · exact ha.elim
      · by_cases hij : j = i
        · subst hij
          obtain rfl := Option.some.inj (hslot.symm.trans ht)
          exact ⟨_, List.getElem?_set_self hlt, hserves⟩
        · exact ⟨slot, by rw [List.getElem?_set_ne hij, hslot], hserves⟩
      · by_cases hij : j = i
        · subst hij
          obtain rfl := Option.some.inj (hslot.symm.trans ht)
          refine ⟨_, List.getElem?_set_self hlt, ?_⟩
          cases hnext : (Y.advance v.shared t).2 with
          | running u => exact (advance_call Y hnext).trans hserves
          | finished call verdict =>
              obtain ⟨rfl, hlost⟩ := finished_of_advance hnext
              exact ⟨hserves, hlost⟩
        · exact ⟨slot, by rw [List.getElem?_set_ne hij, hslot], hserves⟩
      · exact ha.elim

/-- **Rule**: if no world reached has a circle of waiting sessions, every call under way can be
brought to its end, and none has to be lost for that. -/
theorem exists_rest {w : World S σ π ρ κ α}
    (hcycle : ∀ v, Y.Reaches (fun _ a => a.Forward) w v → ∀ i,
      ¬ Relation.TransGen (WaitsFor Y v) i i) :
    ∃ v, Y.Reaches (fun _ a => a.Forward) w v ∧ (∀ i s, ¬ v.Running i s) ∧
      ∀ i s, w.Running i s → ∃ verdict, v.slots[i]? = some (.finished s.call verdict) ∧
        verdict ≠ .lost := by
  -- a lightest world on the way
  obtain ⟨-, ⟨v, hv, rfl⟩, hmin⟩ := wellFounded_lighter.has_min
    {m | ∃ v, Y.Reaches (fun _ a => a.Forward) w v ∧ (v.slots.map Y.load).sum = m}
    ⟨_, w, .refl, rfl⟩
  have hrest : ∀ i s, ¬ v.Running i s := by
    intro i s hs
    obtain ⟨a, v', ha, hstep⟩ := exists_forward (hcycle v hv) hs
    refine hmin _ ⟨v', hv.step ha hstep, rfl⟩ (step_lighter hstep fun call hcall => ?_)
    rw [hcall] at ha
    exact ha
  refine ⟨v, hv, hrest, fun i s hs => ?_⟩
  obtain ⟨slot, hslot, hserves⟩ := hv.serves hs
  cases slot with
  | running t => exact absurd hslot (hrest i t)
  | finished call verdict =>
      obtain ⟨rfl, hlost⟩ := hserves
      exact ⟨verdict, hslot, hlost⟩

end System

end Sessions
