import LedgerApi.Library.World

/-! # Where what happened comes from

The slots of a world belong to the calls that were started, in their order (`calls_of_step`), and
what has committed are some of these (`Reaches.log_subset_calls`). What is known of a call when it
starts, and stays true, is known of it in every later state (`Reaches.provenance`). -/

namespace Sessions

variable {S : Signature} {σ π ρ κ α : Type}

/-- The call that a slot belongs to. -/
def Slot.call : Slot S π ρ κ α → κ
  | .running s => s.call
  | .finished c _ => c

/-- What was answered in a slot. -/
def Slot.answer : Slot S π ρ κ α → Option α
  | .finished _ (.returned a) => some a
  | _ => none

theorem Slot.eq_finished_of_answer {slot : Slot S π ρ κ α} {a : α} (h : slot.answer = some a) :
    slot = .finished slot.call (.returned a) := by
  unfold answer at h
  split at h
  · obtain rfl := Option.some.inj h
    rfl
  · cases h

namespace System

variable {Y : System S σ π ρ κ α}

/-- A slot keeps its call. -/
@[simp] theorem call_advance (g : Shared S σ κ) (s : Session S π ρ κ α) :
    (Y.advance g s).2.call = s.call := by
  unfold advance
  split
  · rfl
  · rfl
  · split <;> rfl
  · rfl
  · rfl

/-- A session that advances logs its own call, or none. -/
theorem log_advance (g : Shared S σ κ) (s : Session S π ρ κ α) :
    (Y.advance g s).1.log = g.log ∨ (Y.advance g s).1.log = g.log ++ [s.call] := by
  unfold advance
  split
  · exact Or.inl rfl
  · exact Or.inl rfl
  · split <;> exact Or.inl rfl
  · exact Or.inr rfl
  · exact Or.inl rfl

/-- A slot of a changed list is the changed one or an old one. -/
theorem mem_set_cases {γ : Type*} {xs : List γ} {i j : ℕ} {x y : γ}
    (h : (xs.set i x)[j]? = some y) : (j = i ∧ y = x) ∨ (j ≠ i ∧ xs[j]? = some y) := by
  rw [List.getElem?_set] at h
  split at h
  case isTrue hij =>
    split at h
    case isTrue => exact Or.inl ⟨hij.symm, (Option.some.inj h).symm⟩
    case isFalse => cases h
  case isFalse hij => exact Or.inr ⟨fun heq => hij heq.symm, h⟩

/-- A slot of a longer list is the new one or an old one. -/
theorem mem_append_cases {γ : Type*} {xs : List γ} {j : ℕ} {x y : γ}
    (h : (xs ++ [x])[j]? = some y) : (j = xs.length ∧ y = x) ∨ xs[j]? = some y := by
  rw [List.getElem?_append] at h
  split at h
  case isTrue => exact Or.inr h
  case isFalse hj =>
    obtain ⟨hlt, h⟩ := List.getElem?_eq_some_iff.mp h
    have hzero : j - xs.length = 0 := by simpa using hlt
    simp only [hzero, List.getElem_cons_zero] at h
    exact Or.inl ⟨by omega, h.symm⟩

/-- What has ended stays as it ended. -/
theorem finished_step [DecidableEq ρ] {w w' : World S σ π ρ κ α} {a : Action κ}
    (h : Y.step w a = some w') {j : ℕ} {c : κ} {v : Verdict S α}
    (hj : w.slots[j]? = some (.finished c v)) : w'.slots[j]? = some (.finished c v) := by
  have hset : ∀ {i s x}, w.Running i s → (w.slots.set i x)[j]? = some (.finished c v) := by
    intro i s x hs
    rw [List.getElem?_set_ne, hj]
    -- a session that runs is not one that has ended
    rintro rfl
    cases hj.symm.trans hs
  rcases step_cases h with ⟨c', -, rfl⟩ | ⟨i, s, l, rest, -, hs, -, -, rfl⟩ |
    ⟨i, s, -, hs, -, rfl⟩ | ⟨i, s, -, hs, rfl⟩
  · have hlt := (List.getElem?_eq_some_iff.mp hj).1
    exact (List.getElem?_append_left hlt).trans hj
  · exact hset hs
  · exact hset hs
  · exact hset hs

/-! ## The calls of runs -/

/-- The call that an action starts. -/
def Action.started : Action κ → List κ
  | .start c => [c]
  | .acquire _ | .advance _ | .fault _ => []

/-- A slot that changes keeps its call. -/
theorem map_call_set {slots : List (Slot S π ρ κ α)} {i : ℕ} {x y : Slot S π ρ κ α}
    (hy : slots[i]? = some y) (hcall : x.call = y.call) :
    (slots.set i x).map Slot.call = slots.map Slot.call := by
  have hlt := (List.getElem?_eq_some_iff.mp hy).1
  rw [List.map_set, hcall]
  apply List.ext_getElem?
  intro j
  by_cases hij : i = j
  · subst hij
    rw [List.getElem?_set_self (by rwa [List.length_map]), List.getElem?_map, hy]
    rfl
  · exact List.getElem?_set_ne hij

/-- Slots are taken by the calls that are started, in their order. -/
theorem calls_of_step [DecidableEq ρ] {w w' : World S σ π ρ κ α} {a : Action κ}
    (h : Y.step w a = some w') :
    w'.slots.map Slot.call = w.slots.map Slot.call ++ a.started := by
  rcases step_cases h with ⟨c, rfl, rfl⟩ | ⟨i, s, l, rest, rfl, hs, -, -, rfl⟩ |
    ⟨i, s, rfl, hs, -, rfl⟩ | ⟨i, s, rfl, hs, rfl⟩
  · exact List.map_append
  all_goals rw [Action.started, List.append_nil]
  · exact map_call_set hs rfl
  · exact map_call_set hs (call_advance _ s)
  · exact map_call_set hs rfl

/-- **Rule** for what is known of calls from their start, each in its slot. -/
theorem Reaches.provenance [DecidableEq ρ] {adm : World S σ π ρ κ α → Action κ → Prop}
    {P : World S σ π ρ κ α → ℕ → κ → Prop} {w₀ w : World S σ π ρ κ α} (h : Y.Reaches adm w₀ w)
    (hslots : ∀ i c, (w₀.slots.map Slot.call)[i]? = some c → P w₀ i c)
    (hstart : ∀ v v' c, Y.Reaches adm w₀ v → adm v (.start c) → Y.step v (.start c) = some v' →
      P v' v.slots.length c)
    (hstays : ∀ v v' a i c, Y.Reaches adm w₀ v → adm v a → Y.step v a = some v' → P v i c →
      P v' i c) {i : ℕ} {c : κ} (hc : (w.slots.map Slot.call)[i]? = some c) : P w i c := by
  induction h generalizing i c with
  | refl => exact hslots i c hc
  | @step w w' a hw hadm hstep ih =>
      rw [calls_of_step hstep] at hc
      cases a with
      | start c' =>
          rcases mem_append_cases hc with ⟨rfl, rfl⟩ | hc
          · rw [List.length_map]
            exact hstart w w' c hw hadm hstep
          · exact hstays w w' _ i c hw hadm hstep (ih hc)
      | acquire _ | advance _ | fault _ =>
          rw [Action.started, List.append_nil] at hc
          exact hstays w w' _ i c hw hadm hstep (ih hc)

/-- What has committed are calls of the slots. -/
theorem Reaches.log_subset_calls [DecidableEq ρ] {adm : World S σ π ρ κ α → Action κ → Prop}
    {w₀ w : World S σ π ρ κ α} (h : Y.Reaches adm w₀ w)
    (h₀ : w₀.shared.log ⊆ w₀.slots.map Slot.call) : w.shared.log ⊆ w.slots.map Slot.call := by
  induction h with
  | refl => exact h₀
  | @step w w' a _ _ hstep ih =>
      have hcalls := calls_of_step hstep
      have hsame : w'.shared.log = w.shared.log → w'.shared.log ⊆ w'.slots.map Slot.call := by
        intro hlog c hc
        rw [hcalls]
        exact List.mem_append_left _ (ih (hlog ▸ hc))
      rcases step_cases hstep with ⟨c, -, rfl⟩ | ⟨i, s, l, rest, -, hs, -, -, rfl⟩ |
        ⟨i, s, -, hs, -, rfl⟩ | ⟨i, s, -, hs, rfl⟩
      · exact hsame rfl
      · exact hsame rfl
      · rcases log_advance (Y := Y) w.shared s with hlog | hmore
        · exact hsame hlog
        · -- what is new in the log is the call of the session that committed
          intro c hc
          rw [hmore, List.mem_append, List.mem_singleton] at hc
          rw [hcalls]
          refine List.mem_append_left _ ?_
          rcases hc with hc | rfl
          · exact ih hc
          · exact List.mem_map.mpr ⟨_, List.mem_of_getElem? hs, rfl⟩
      · exact hsame rfl

section Computed

variable [DecidableEq ρ] {adm : World S σ π ρ κ α → Action κ → Prop} [∀ w a, Decidable (adm w a)]
  {w w' : World S σ π ρ κ α}

theorem calls_of_steps {as : List (Action κ)} (h : Y.steps adm w as = some w') :
    w'.slots.map Slot.call = w.slots.map Slot.call ++ as.flatMap Action.started := by
  induction as generalizing w with
  | nil =>
      obtain rfl := Option.some.inj h
      exact (List.append_nil _).symm
  | cons a as ih =>
      rw [steps] at h
      split at h
      case isTrue =>
        obtain ⟨v, hv, hrest⟩ := Option.bind_eq_some_iff.mp h
        rw [ih hrest, calls_of_step hv, List.flatMap_cons, List.append_assoc]
      case isFalse => cases h

/-- A turn starts nothing. -/
theorem flatMap_started_turn (w : World S σ π ρ κ α) (i : ℕ) :
    (Y.turn w i).flatMap Action.started = [] := by
  unfold turn
  split
  · rw [List.flatMap_append, List.flatMap_replicate]
    simp [Action.started]
  · rfl

theorem calls_of_turns {is : List ℕ} (h : Y.turns adm w is = some w') :
    w'.slots.map Slot.call = w.slots.map Slot.call := by
  induction is generalizing w with
  | nil =>
      obtain rfl := Option.some.inj h
      rfl
  | cons i is ih =>
      obtain ⟨v, hv, hrest⟩ := Option.bind_eq_some_iff.mp h
      rw [ih hrest, calls_of_steps hv, flatMap_started_turn, List.append_nil]

/-- **The slots of a computed run** belong to its calls. -/
theorem calls_of_runFrom {calls : List κ} {is : List ℕ} (h : Y.runFrom adm w calls is = some w') :
    w'.slots.map Slot.call = w.slots.map Slot.call ++ calls := by
  obtain ⟨v, hv, hturns⟩ := Option.bind_eq_some_iff.mp h
  have hstarted : ∀ calls : List κ, (calls.map Action.start).flatMap Action.started = calls := by
    intro calls
    induction calls with
    | nil => rfl
    | cons c calls ih => exact congrArg (c :: ·) ih
  rw [calls_of_turns hturns, calls_of_steps hv, hstarted]

theorem calls_of_run {s : σ} {calls : List κ} {is : List ℕ} (h : Y.run adm s calls is = some w) :
    w.slots.map Slot.call = calls :=
  calls_of_runFrom h

end Computed

/-- What the call of a slot was answered. -/
theorem finished_of_answer {w : World S σ π ρ κ α} {i : ℕ} {c : κ} {a : α}
    (hc : (w.slots.map Slot.call)[i]? = some c) (ha : (w.slots[i]?).bind Slot.answer = some a) :
    w.slots[i]? = some (.finished c (.returned a)) := by
  obtain ⟨slot, hslot, ha⟩ := Option.bind_eq_some_iff.mp ha
  rw [List.getElem?_map, hslot] at hc
  rw [hslot, Slot.eq_finished_of_answer ha, Option.some.inj hc]

end System

end Sessions
