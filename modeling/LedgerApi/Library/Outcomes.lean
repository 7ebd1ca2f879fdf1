import LedgerApi.Library.Provenance

/-! # What answers tell

Sessions that commit once, and raise nothing afterwards. `Reaches.outcomes` is the rule: a condition
`B` on programs before the commit and a condition `A` after it, which also speaks of the committed
rows. It says who has committed: the log is that of pairwise different slots, a session that has
raised an exception is none of them, and one that has returned did so after its commit or without
one. A session that is lost may be one of them or not; if it is, `A` tells what it has left. -/

namespace Sessions

namespace Prog

variable {S : Signature} {α β : Type}

/-- All results of the program satisfy `P`. -/
def Results (P : α → Prop) : Prog S α → Prop
  | ret a => P a
  | raise _ => True
  | exec _ next => ∀ r, Results P (next r)
  | commit next => Results P next
  | emit _ next => Results P next

/-- The results of a sequence are those of its last part. -/
theorem Results.bind {P : α → Prop} {Q : β → Prop} {x : Prog S α} {f : α → Prog S β}
    (hx : x.Results P) (hf : ∀ a, P a → (f a).Results Q) : (x >>= f).Results Q := by
  induction x with
  | ret a => exact hf a hx
  | raise e => exact trivial
  | exec stmt next ih => exact fun r => ih r (hx r)
  | commit next ih => exact ih hx
  | emit m next ih => exact ih hx

theorem results_true (x : Prog S α) : x.Results fun _ => True := by
  induction x with
  | ret a => exact trivial
  | raise e => exact trivial
  | exec stmt next ih => exact fun r => ih r
  | commit next ih => exact ih
  | emit m next ih => exact ih

/-- Wherever the program commits, what follows is as `A` says, and where it returns without a commit
the result satisfies `R`. -/
def Committing (A : Prog S α → Prop) (R : α → Prop) : Prog S α → Prop
  | ret a => R a
  | raise _ => True
  | exec _ next => ∀ r, Committing A R (next r)
  | commit next => A next
  | emit _ next => Committing A R next

/-- A first part that does not commit leaves the commit to the rest. -/
theorem Committing.zero_bind {A : Prog S β → Prop} {R : β → Prop} {P : α → Prop} {x : Prog S α}
    {f : α → Prog S β} (hx : x.CommitsAtMost 0) (hP : x.Results P)
    (hf : ∀ a, P a → (f a).Committing A R) : (x >>= f).Committing A R := by
  induction x with
  | ret a => exact hf a hP
  | raise e => exact trivial
  | exec stmt next ih => exact fun r => ih r (hx r) (hP r)
  | commit next => exact hx.elim
  | emit m next ih => exact ih hx hP

/-- A last part comes after the commit. -/
theorem Committing.bind {A : Prog S α → Prop} {R : α → Prop} {A' : Prog S β → Prop}
    {R' : β → Prop} {x : Prog S α} {f : α → Prog S β} (hx : x.Committing A R)
    (hA : ∀ next, A next → A' (next >>= f)) (hf : ∀ a, R a → (f a).Committing A' R') :
    (x >>= f).Committing A' R' := by
  induction x with
  | ret a => exact hf a hx
  | raise e => exact trivial
  | exec stmt next ih => exact fun r => ih r (hx r)
  | commit next => exact hA next hx
  | emit m next ih => exact ih hx

end Prog

namespace System

variable {S : Signature} {σ π ρ κ α : Type} {Y : System S σ π ρ κ α}

/-- A statement that succeeds. -/
theorem advance_exec_ok {g : Shared S σ κ} {s : Session S π ρ κ α} {stmt : S.Stmt}
    {next : S.Reply stmt → Prog S α} {r : S.Reply stmt} {p : π} {prog : Prog S α}
    (h : s.prog = .exec stmt next) (hexec : Y.exec g.store s.pending stmt = .ok (r, p))
    (hnext : next r = prog) : Y.advance g s = (g, .running ⟨s.call, prog, p, s.locks, []⟩) := by
  simp only [advance, h, hexec, hnext]

/-- What is known of a slot, depending on whether it has committed. -/
def Outcome (B : κ → Prog S α → Prop) (A : Shared S σ κ → κ → Prog S α → π → Prop)
    (g : Shared S σ κ) (committed : Prop) : Slot S π ρ κ α → Prop
  | .running t => (¬ committed ∧ B t.call t.prog) ∨ (committed ∧ A g t.call t.prog t.pending)
  | .finished c (.returned a) =>
      (¬ committed ∧ B c (.ret a)) ∨ (committed ∧ ∃ p, A g c (.ret a) p)
  | .finished _ (.raised _) => ¬ committed
  | .finished c .lost => committed → ∃ prog p, A g c prog p

/-- `who` are the slots that have committed, in the order of their commits. -/
structure Outcomes (B : κ → Prog S α → Prop) (A : Shared S σ κ → κ → Prog S α → π → Prop)
    (w : World S σ π ρ κ α) (who : List ℕ) : Prop where
  nodup : who.Nodup
  log : w.shared.log.map some = who.map fun i => (w.slots[i]?).map Slot.call
  slots : ∀ (i : ℕ) x, w.slots[i]? = some x → Outcome B A w.shared (i ∈ who) x

variable {B : κ → Prog S α → Prop} {A : Shared S σ κ → κ → Prog S α → π → Prop}
  {w w' : World S σ π ρ κ α} {who : List ℕ}

/-- A committed slot is there. -/
theorem Outcomes.lt_length (h : Outcomes B A w who) {i : ℕ} (hi : i ∈ who) :
    i < w.slots.length := by
  have hmem : (w.slots[i]?).map Slot.call ∈ w.shared.log.map some := by
    rw [h.log]
    exact List.mem_map_of_mem (f := fun i => (w.slots[i]?).map Slot.call) hi
  obtain ⟨c, -, hc⟩ := List.mem_map.mp hmem
  by_contra hlt
  rw [List.getElem?_eq_none (Nat.le_of_not_lt hlt)] at hc
  cases hc

/-- What is known stays true as long as `A` does. -/
theorem Outcome.mono {g g' : Shared S σ κ} {committed : Prop} {slot : Slot S π ρ κ α}
    (h : Outcome B A g committed slot) (hA : ∀ c prog p, A g c prog p → A g' c prog p) :
    Outcome B A g' committed slot := by
  rcases slot with t | ⟨c, a | e | -⟩
  · exact h.imp_right fun h => ⟨h.1, hA _ _ _ h.2⟩
  · exact h.imp_right fun h => ⟨h.1, h.2.imp fun p => hA _ _ p⟩
  · exact h
  · exact fun hcommitted => (h hcommitted).imp fun prog => Exists.imp fun p => hA _ prog p

/-- A session that is lost leaves what it had committed. -/
theorem Outcome.lost {g : Shared S σ κ} {committed : Prop} {s : Session S π ρ κ α}
    (h : Outcome B A g committed (.running s)) :
    Outcome B A g committed (Slot.finished (π := π) (ρ := ρ) s.call .lost) := fun hcommitted =>
  h.elim (fun h => absurd hcommitted h.1) fun h => ⟨_, _, h.2⟩

/-- A slot changes that keeps its call, and nothing is committed. -/
theorem Outcomes.set (h : Outcomes B A w who) {g : Shared S σ κ} (hlog : g.log = w.shared.log)
    (hA : ∀ c prog p, A w.shared c prog p → A g c prog p) {i : ℕ} {x y : Slot S π ρ κ α}
    (hx : w.slots[i]? = some x) (hcall : y.call = x.call) (hy : Outcome B A g (i ∈ who) y) :
    Outcomes B A ⟨g, w.slots.set i y⟩ who := by
  refine ⟨h.nodup, ?_, fun j z hz => ?_⟩
  · rw [hlog, h.log]
    refine List.map_congr_left fun j _ => ?_
    rw [← List.getElem?_map, ← List.getElem?_map, map_call_set hx hcall]
  · rcases mem_set_cases hz with ⟨rfl, rfl⟩ | ⟨-, hz⟩
    · exact hy
    · exact (h.slots j z hz).mono hA

/-- A session commits. -/
theorem Outcomes.commit (h : Outcomes B A w who) {i : ℕ} {s t : Session S π ρ κ α}
    (hs : w.Running i s) (hi : i ∉ who) (hcall : t.call = s.call)
    (hA : ∀ c prog p, A w.shared c prog p →
      A (w.shared.commit Y.toStore s.call s.pending) c prog p)
    (ht : A (w.shared.commit Y.toStore s.call s.pending) t.call t.prog t.pending) :
    Outcomes B A ⟨w.shared.commit Y.toStore s.call s.pending, w.slots.set i (.running t)⟩
      (who ++ [i]) := by
  have hsame : (w.slots.set i (.running t)).map Slot.call = w.slots.map Slot.call :=
    map_call_set hs hcall
  refine ⟨?_, ?_, fun j z hz => ?_⟩
  · exact List.nodup_append.mpr
      ⟨h.nodup, List.nodup_singleton i, fun j hj k hk => by
        rw [List.mem_singleton.mp hk]
        rintro rfl
        exact hi hj⟩
  · rw [Shared.commit_log, List.map_append, List.map_append, h.log]
    congr 1
    · refine List.map_congr_left fun j _ => ?_
      rw [← List.getElem?_map, ← List.getElem?_map, hsame]
    · rw [List.map_singleton, List.map_singleton, ← List.getElem?_map, hsame, List.getElem?_map, hs]
      rfl
  · rcases mem_set_cases hz with ⟨rfl, rfl⟩ | ⟨hne, hz⟩
    · exact Or.inr ⟨List.mem_append_right _ (.head _), ht⟩
    · have hsame : (j ∈ who ++ [i]) = (j ∈ who) := by simp [hne]
      rw [hsame]
      exact (h.slots j z hz).mono hA

/-- **Rule** for sessions that commit once and raise nothing afterwards. -/
theorem Reaches.outcomes [DecidableEq ρ] {adm : World S σ π ρ κ α → Action κ → Prop} {s₀ : σ}
    (h : Y.Reaches adm (World.init s₀) w) (hstart : ∀ c, B c (Y.program c))
    (hexec : ∀ c stmt next r, B c (.exec stmt next) → B c (next r))
    (hemit : ∀ c m next, B c (.emit m next) → B c next) (hraise : ∀ c e, B c (.raise e))
    (hcommit : ∀ (w : World S σ π ρ κ α) i (s : Session S π ρ κ α) next,
      Y.Reaches adm (World.init s₀) w → w.Running i s → s.prog = .commit next → B s.call s.prog →
      A (w.shared.commit Y.toStore s.call s.pending) s.call next Y.blank)
    (hafter : ∀ (w : World S σ π ρ κ α) i (s : Session S π ρ κ α),
      Y.Reaches adm (World.init s₀) w → w.Running i s → A w.shared s.call s.prog s.pending →
      (Y.advance w.shared s).1.log = w.shared.log ∧
        Outcome B A (Y.advance w.shared s).1 True (Y.advance w.shared s).2)
    (hstays : ∀ w w' a c prog p, Y.Reaches adm (World.init s₀) w → Y.step w a = some w' →
      A w.shared c prog p → A w'.shared c prog p) :
    ∃ who, Outcomes B A w who := by
  induction h with
  | refl => exact ⟨[], List.nodup_nil, rfl, fun i x hx => by simp [World.init] at hx⟩
  | @step w w' a hw _ hstep ih =>
      obtain ⟨who, hwho⟩ := ih
      have hA : ∀ c prog p, A w.shared c prog p → A w'.shared c prog p :=
        fun c prog p => hstays w w' a c prog p hw hstep
      rcases step_cases hstep with ⟨c, rfl, rfl⟩ | ⟨i, s, l, rest, -, hs, -, -, rfl⟩ |
        ⟨i, s, rfl, hs, -, rfl⟩ | ⟨i, s, -, hs, rfl⟩
      · -- a new slot has not committed
        refine ⟨who, hwho.nodup, ?_, fun j x hx => ?_⟩
        · rw [hwho.log]
          refine List.map_congr_left fun j hj => ?_
          rw [List.getElem?_append_left (hwho.lt_length hj)]
        · rcases mem_append_cases hx with ⟨rfl, rfl⟩ | hx
          · refine Or.inl ⟨fun hj => ?_, hstart c⟩
            exact absurd (hwho.lt_length hj) (Nat.lt_irrefl _)
          · exact hwho.slots j x hx
      · have hslot : Outcome B A w.shared (i ∈ who) (.running s) := hwho.slots i _ hs
        exact ⟨who, hwho.set rfl (fun _ _ _ h => h) hs rfl hslot⟩
      · rcases hwho.slots i _ hs with ⟨hi, hB⟩ | ⟨hi, hbefore⟩
        · obtain ⟨c, prog, p, held, acquired⟩ := s
          cases prog with
          | ret a => exact ⟨who, hwho.set rfl hA hs rfl (Or.inl ⟨hi, hB⟩)⟩
          | raise e => exact ⟨who, hwho.set rfl hA hs rfl hi⟩
          | exec stmt next =>
              refine ⟨who, hwho.set ?_ hA hs (call_advance _ _) ?_⟩
              · rw [advance_exec Y _ _ rfl]
              · cases hres : Y.exec w.shared.store p stmt with
                | ok rp =>
                    simp only [advance, hres]
                    exact Or.inl ⟨hi, hexec c stmt next _ hB⟩
                | error e =>
                    simp only [advance, hres]
                    exact Or.inl ⟨hi, hraise c e⟩
          | commit next =>
              have hnext := hcommit w i _ next hw hs rfl hB
              exact ⟨who ++ [i], hwho.commit hs hi rfl hA hnext⟩
          | emit m next =>
              have hA : ∀ c prog p, A w.shared c prog p → A (w.shared.emit m) c prog p := hA
              have hnext : Outcome B A (w.shared.emit m) (i ∈ who)
                  (.running ⟨c, next, p, held, acquired⟩) := Or.inl ⟨hi, hemit c m next hB⟩
              exact ⟨who, hwho.set (g := w.shared.emit m) rfl hA hs rfl hnext⟩
        · obtain ⟨hlog, hnext⟩ := hafter w i s hw hs hbefore
          rw [← eq_true hi] at hnext
          exact ⟨who, hwho.set hlog hA hs (call_advance _ _) hnext⟩
      · exact ⟨who, hwho.set rfl (fun _ _ _ h => h) hs rfl (hwho.slots i _ hs).lost⟩

/-- **Rule** for answers: what holds when a session is about to return, and stays true, holds of all
that has been returned. -/
theorem Reaches.returned [DecidableEq ρ] {adm : World S σ π ρ κ α → Action κ → Prop} {s₀ : σ}
    {K : Shared S σ κ → κ → α → Prop} (h : Y.Reaches adm (World.init s₀) w)
    (hret : ∀ (w : World S σ π ρ κ α) (i : ℕ) (s : Session S π ρ κ α) a,
      Y.Reaches adm (World.init s₀) w → w.Running i s → s.prog = .ret a → K w.shared s.call a)
    (hstays : ∀ w w' a c r, Y.Reaches adm (World.init s₀) w → Y.step w a = some w' →
      K w.shared c r → K w'.shared c r) :
    ∀ (i : ℕ) c r, w.slots[i]? = some (.finished c (.returned r)) → K w.shared c r := by
  induction h with
  | refl =>
      intro i c r hslot
      simp [World.init] at hslot
  | @step w w' a hw _ hstep ih =>
      intro j c r hslot
      have hkeep : w.slots[j]? = some (.finished c (.returned r)) → K w'.shared c r :=
        fun hj => hstays w w' a c r hw hstep (ih j c r hj)
      rcases step_cases hstep with ⟨c', -, rfl⟩ | ⟨i, s, l, rest, -, hs, -, -, rfl⟩ |
        ⟨i, s, -, hs, -, rfl⟩ | ⟨i, s, -, hs, rfl⟩
      · rcases mem_append_cases hslot with ⟨-, hnew⟩ | hslot
        · cases hnew
        · exact hkeep hslot
      · rcases mem_set_cases hslot with ⟨-, hnew⟩ | ⟨-, hslot⟩
        · cases hnew
        · exact hkeep hslot
      · rcases mem_set_cases hslot with ⟨-, hnew⟩ | ⟨-, hslot⟩
        -- only a session that stands at its end returns
        · obtain ⟨call, prog, p, held, acquired⟩ := s
          cases prog with
          | ret a =>
              obtain ⟨rfl, hverdict⟩ := Slot.finished.inj hnew
              obtain rfl := Verdict.returned.inj hverdict
              exact hret w i _ r hw hs rfl
          | raise e => cases (Slot.finished.inj hnew).2
          | exec stmt next =>
              simp only [advance] at hnew
              split at hnew <;> cases hnew
          | commit next => cases hnew
          | emit m next => cases hnew
        · exact hkeep hslot
      · rcases mem_set_cases hslot with ⟨-, hnew⟩ | ⟨-, hslot⟩
        · cases (Slot.finished.inj hnew).2
        · exact hkeep hslot

end System

end Sessions
