import LedgerApi.Library.World

/-! # Assertions about interleaved sessions

A rely-guarantee logic for the sessions of `Sessions.System`. A `Contract` fixes what all sessions
maintain (`inv`), what a session may count on while others commit (`rely`: it knows its own writes
and locks, so what it has locked stays as it is), what is known of two sessions when one of them
commits beside the other (`beside`), and which statements may be issued under which locks (`ready`).

`Contract.Triple` annotates a program: before every statement stands an assertion that other
sessions' commits cannot falsify (`Stable`), and a commit must keep the invariant and give the
others what they rely on. Triples compose along `do` blocks (`Triple.bind`), and one triple for each
call makes every reachable world `Sound`: each running session is at an annotated point of its
program, with its assertion true there. -/

namespace Sessions

variable {S : Signature} {σ π ρ κ α β : Type}

/-- A predicate on what is shared and on a session's own writes and locks. -/
abbrev Assn (S : Signature) (σ π ρ κ : Type) := Shared S σ κ → π → List (Lock ρ) → Prop

/-- What the sessions of a system agree on. -/
structure Contract (S : Signature) (σ π ρ κ : Type) where
  /-- What every commit maintains. -/
  inv : Shared S σ κ → Prop
  /-- How the shared state may change under a session with these writes and locks. -/
  rely : π → List (Lock ρ) → Shared S σ κ → Shared S σ κ → Prop
  /-- What is known of the writes of a session that commits and those of a session that runs. -/
  beside : π → π → Prop
  /-- Which statements a session may issue under the locks it holds. -/
  ready : List (Lock ρ) → S.Stmt → Prop

namespace Contract

variable (C : Contract S σ π ρ κ) (D : Store S σ π ρ)

/-- An assertion that commits of other sessions do not falsify. -/
def Stable (P : Assn S σ π ρ κ) : Prop :=
  ∀ ⦃g g' p L⦄, C.inv g → C.inv g' → C.rely p L g g' → P g p L → P g' p L

/-- The state of a session that has done nothing. -/
def Fresh : Assn S σ π ρ κ := fun _ p L => p = D.blank ∧ L = []

/-- An annotation of the program of a call: `P` holds when it starts, `Q` when it returns and `E`
when it raises. -/
def Triple (call : κ) (Q : α → Assn S σ π ρ κ) (E : S.Exn → Assn S σ π ρ κ) :
    Prog S α → Assn S σ π ρ κ → Prop
  | .ret a, P => C.Stable P ∧ ∀ g p L, C.inv g → P g p L → Q a g p L
  | .raise e, P => C.Stable P ∧ ∀ g p L, C.inv g → P g p L → E e g p L
  | .exec stmt next, P => C.Stable P ∧ ∃ M : S.Reply stmt → Assn S σ π ρ κ,
      (∀ r, Triple call Q E (next r) (M r)) ∧
      ∀ g p L, C.inv g → P g p L → C.ready L stmt ∧
        ∀ L', L ⊆ L' → D.requests g.store p stmt ⊆ L' → L' ⊆ L ++ D.footprint stmt →
          match D.exec g.store p stmt with
          | .ok (r, p') => M r g p' L'
          | .error e => E e g p []
  | .commit next, P => C.Stable P ∧ ∃ M : Assn S σ π ρ κ, Triple call Q E next M ∧
      ∀ g p L, C.inv g → P g p L →
        C.inv (g.commit D call p) ∧ M (g.commit D call p) D.blank [] ∧
        ∀ p' L', Compatible L L' → C.beside p p' → C.rely p' L' g (g.commit D call p)
  | .emit m next, P => C.Stable P ∧ ∃ M : Assn S σ π ρ κ, Triple call Q E next M ∧
      ∀ g p L, C.inv g → P g p L →
        C.inv (g.emit m) ∧ M (g.emit m) p L ∧
        ∀ p' L', Compatible L L' → C.rely p' L' g (g.emit m)

variable {C D} {call : κ} {Q : α → Assn S σ π ρ κ} {E : S.Exn → Assn S σ π ρ κ}

/-! ## Stable assertions -/

theorem Stable.pure (φ : Prop) : C.Stable (fun _ _ _ => φ) := fun _ _ _ _ _ _ _ h => h

/-- What is said of a session's own writes and locks is stable. -/
theorem Stable.own (φ : π → List (Lock ρ) → Prop) : C.Stable (fun _ p L => φ p L) :=
  fun _ _ _ _ _ _ _ h => h

theorem Stable.and {P P' : Assn S σ π ρ κ} (h : C.Stable P) (h' : C.Stable P') :
    C.Stable (fun g p L => P g p L ∧ P' g p L) :=
  fun _ _ _ _ hg hg' hr hP => ⟨h hg hg' hr hP.1, h' hg hg' hr hP.2⟩

theorem Stable.exists {ι : Sort*} {P : ι → Assn S σ π ρ κ} (h : ∀ i, C.Stable (P i)) :
    C.Stable (fun g p L => ∃ i, P i g p L) :=
  fun _ _ _ _ hg hg' hr ⟨i, hP⟩ => ⟨i, h i hg hg' hr hP⟩

theorem Stable.fresh : C.Stable (Fresh D) := Stable.own _

/-! ## Rules -/

/-- The assertion at the start of a program is stable. -/
theorem Triple.stable {x : Prog S α} {P : Assn S σ π ρ κ} (h : C.Triple D call Q E x P) :
    C.Stable P := by
  cases x <;> exact h.1

/-- A stronger stable assertion may stand at the start. -/
theorem Triple.pre {x : Prog S α} {P P' : Assn S σ π ρ κ} (h : C.Triple D call Q E x P)
    (hstable : C.Stable P') (himp : ∀ g p L, C.inv g → P' g p L → P g p L) :
    C.Triple D call Q E x P' := by
  cases x with
  | ret a => exact ⟨hstable, fun g p L hg hP => h.2 g p L hg (himp g p L hg hP)⟩
  | raise e => exact ⟨hstable, fun g p L hg hP => h.2 g p L hg (himp g p L hg hP)⟩
  | exec stmt next =>
      obtain ⟨-, M, hnext, hexec⟩ := h
      exact ⟨hstable, M, hnext, fun g p L hg hP => hexec g p L hg (himp g p L hg hP)⟩
  | commit next =>
      obtain ⟨-, M, hnext, hcommit⟩ := h
      exact ⟨hstable, M, hnext, fun g p L hg hP => hcommit g p L hg (himp g p L hg hP)⟩
  | emit m next =>
      obtain ⟨-, M, hnext, hemit⟩ := h
      exact ⟨hstable, M, hnext, fun g p L hg hP => hemit g p L hg (himp g p L hg hP)⟩

/-- A return. -/
theorem Triple.ret {a : α} {P : Assn S σ π ρ κ} (hP : C.Stable P)
    (h : ∀ g p L, P g p L → Q a g p L) : C.Triple D call Q E (.ret a) P :=
  ⟨hP, fun g p L _ hPg => h g p L hPg⟩

/-- A raise. -/
theorem Triple.raise {e : S.Exn} {P : Assn S σ π ρ κ} (hP : C.Stable P)
    (h : ∀ g p L, P g p L → E e g p L) : C.Triple D call Q E (.raise e) P :=
  ⟨hP, fun g p L _ hPg => h g p L hPg⟩

/-- **Sequencing**: a program is annotated part by part. -/
theorem Triple.bind {R : β → Assn S σ π ρ κ} {x : Prog S β} {f : β → Prog S α}
    {P : Assn S σ π ρ κ} (hx : C.Triple D call R E x P)
    (hf : ∀ b, C.Triple D call Q E (f b) (R b)) : C.Triple D call Q E (x >>= f) P := by
  induction x generalizing P with
  -- the end of the first part is where the second begins
  | ret b => exact (hf b).pre hx.1 hx.2
  | raise e => exact hx
  | exec stmt next ih =>
      obtain ⟨hP, M, hnext, hexec⟩ := hx
      exact ⟨hP, M, fun r => ih r (hnext r), hexec⟩
  | commit next ih =>
      obtain ⟨hP, M, hnext, hcommit⟩ := hx
      exact ⟨hP, M, ih hnext, hcommit⟩
  | emit m next ih =>
      obtain ⟨hP, M, hnext, hemit⟩ := hx
      exact ⟨hP, M, ih hnext, hemit⟩

/-- A weaker assertion may stand at the end. -/
theorem Triple.post {R : α → Assn S σ π ρ κ} {x : Prog S α} {P : Assn S σ π ρ κ}
    (h : C.Triple D call R E x P) (himp : ∀ a g p L, R a g p L → Q a g p L) :
    C.Triple D call Q E x P := by
  induction x generalizing P with
  | ret a => exact ⟨h.1, fun g p L hg hP => himp a g p L (h.2 g p L hg hP)⟩
  | raise e => exact h
  | exec stmt next ih =>
      obtain ⟨hP, M, hnext, hexec⟩ := h
      exact ⟨hP, M, fun r => ih r (hnext r), hexec⟩
  | commit next ih =>
      obtain ⟨hP, M, hnext, hcommit⟩ := h
      exact ⟨hP, M, ih hnext, hcommit⟩
  | emit m next ih =>
      obtain ⟨hP, M, hnext, hemit⟩ := h
      exact ⟨hP, M, ih hnext, hemit⟩

/-- A program may start from any of several assertions. -/
theorem Triple.exists {ι : Sort*} {x : Prog S α} {P : ι → Assn S σ π ρ κ}
    (h : ∀ i, C.Triple D call Q E x (P i)) :
    C.Triple D call Q E x (fun g p L => ∃ i, P i g p L) := by
  have hstable : C.Stable (fun g p L => ∃ i, P i g p L) :=
    Stable.exists fun i => (h i).stable
  induction x generalizing P with
  | ret a => exact ⟨hstable, fun g p L hg ⟨i, hP⟩ => (h i).2 g p L hg hP⟩
  | raise e => exact ⟨hstable, fun g p L hg ⟨i, hP⟩ => (h i).2 g p L hg hP⟩
  | exec stmt next ih =>
      choose _ M hnext hexec using h
      -- the assertion after the statement is the union of those after it
      refine ⟨hstable, fun r g p L => ∃ i, M i r g p L, fun r => ?_, ?_⟩
      · exact ih r (fun i => hnext i r) (Stable.exists fun i => (hnext i r).stable)
      · rintro g p L hg ⟨i, hP⟩
        refine ⟨(hexec i g p L hg hP).1, fun L' hL hreq hL' => ?_⟩
        have hpost := (hexec i g p L hg hP).2 L' hL hreq hL'
        cases hres : D.exec g.store p stmt with
        | ok rp => rw [hres] at hpost; exact ⟨i, hpost⟩
        | error e => rw [hres] at hpost; exact hpost
  | commit next ih =>
      choose _ M hnext hcommit using h
      refine ⟨hstable, fun g p L => ∃ i, M i g p L, ?_, ?_⟩
      · exact ih hnext (Stable.exists fun i => (hnext i).stable)
      · rintro g p L hg ⟨i, hP⟩
        obtain ⟨hinv, hM, hrely⟩ := hcommit i g p L hg hP
        exact ⟨hinv, ⟨i, hM⟩, hrely⟩
  | emit m next ih =>
      choose _ M hnext hemit using h
      refine ⟨hstable, fun g p L => ∃ i, M i g p L, ?_, ?_⟩
      · exact ih hnext (Stable.exists fun i => (hnext i).stable)
      · rintro g p L hg ⟨i, hP⟩
        obtain ⟨hinv, hM, hrely⟩ := hemit i g p L hg hP
        exact ⟨hinv, ⟨i, hM⟩, hrely⟩

/-- Nothing is asked of a program that is never reached. -/
theorem Triple.absurd {x : Prog S α} {P : Assn S σ π ρ κ} (hP : C.Stable P)
    (h : ∀ g p L, C.inv g → ¬ P g p L) : C.Triple D call Q E x P :=
  (Triple.exists (P := fun i : Empty => i.elim) fun i => i.elim).pre hP
    fun g p L hg hPg => (h g p L hg hPg).elim

/-- A single statement. -/
theorem Triple.stmt {s : S.Stmt} {R : S.Reply s → Assn S σ π ρ κ} {P : Assn S σ π ρ κ}
    (hP : C.Stable P) (hR : ∀ r, C.Stable (R r))
    (hready : ∀ g p L, C.inv g → P g p L → C.ready L s)
    (hexec : ∀ g p L L', C.inv g → P g p L → L ⊆ L' → D.requests g.store p s ⊆ L' →
      L' ⊆ L ++ D.footprint s →
        match D.exec g.store p s with
        | .ok (r, p') => R r g p' L'
        | .error e => E e g p []) :
    C.Triple D call R E (Prog.stmt s) P :=
  ⟨hP, R, fun r => Triple.ret (hR r) (fun _ _ _ h => h), fun g p L hg h =>
    ⟨hready g p L hg h, fun L' => hexec g p L L' hg h⟩⟩

/-- **An annotated program on its own** ends as annotated, after committing as often as it may. -/
theorem Triple.eval {x : Prog S α} {P : Assn S σ π ρ κ} (h : C.Triple D call Q E x P) {n : ℕ}
    (hn : x.CommitsAtMost n) {g : Shared S σ κ} {p : π} {L : List (Lock ρ)} (hg : C.inv g)
    (hP : P g p L) :
    ∃ g' L' k, k ≤ n ∧ g'.log = g.log ++ List.replicate k call ∧ C.inv g' ∧
      g'.store = (D.eval x g.store p).store ∧
      (∀ a, (D.eval x g.store p).result = .ok a → Q a g' (D.eval x g.store p).pending L') ∧
      ∀ e, (D.eval x g.store p).result = .error e → E e g' (D.eval x g.store p).pending L' := by
  induction x generalizing P n g p L with
  | ret a =>
      refine ⟨g, L, 0, Nat.zero_le n, by simp, hg, rfl, ?_, nofun⟩
      rintro _ ⟨⟩
      exact h.2 g p L hg hP
  | raise e =>
      refine ⟨g, L, 0, Nat.zero_le n, by simp, hg, rfl, nofun, ?_⟩
      rintro _ ⟨⟩
      exact h.2 g p L hg hP
  | exec stmt next ih =>
      obtain ⟨-, M, hnext, hexec⟩ := h
      -- alone, a session is granted every lock its statement may want
      have hpost := (hexec g p L hg hP).2 (L ++ D.footprint stmt) (List.subset_append_left _ _)
        (List.Subset.trans (D.requests_subset _ _ _) (List.subset_append_right _ _))
        (List.Subset.refl _)
      cases hres : D.exec g.store p stmt with
      | ok rp =>
          obtain ⟨r, p'⟩ := rp
          rw [hres] at hpost
          rw [D.eval_exec_ok hres]
          exact ih r (hnext r) (hn r) hg hpost
      | error e =>
          rw [hres] at hpost
          rw [D.eval_exec_error hres]
          refine ⟨g, [], 0, Nat.zero_le n, by simp, hg, rfl, nofun, ?_⟩
          rintro _ ⟨⟩
          exact hpost
  | commit next ih =>
      obtain ⟨-, M, hnext, hcommit⟩ := h
      obtain ⟨hinv, hM, -⟩ := hcommit g p L hg hP
      cases n with
      | zero => exact hn.elim
      -- one of the commits that are allowed is spent
      | succ n =>
          obtain ⟨g', L', k, hk, hlog, hrest⟩ := ih hnext hn hinv hM
          refine ⟨g', L', k + 1, Nat.succ_le_succ hk, ?_, hrest⟩
          rw [hlog, Shared.commit_log, List.append_assoc, List.replicate_succ]
          rfl
  | emit m next ih =>
      obtain ⟨-, M, hnext, hemit⟩ := h
      obtain ⟨hinv, hM, -⟩ := hemit g p L hg hP
      have hrest := ih hnext hn hinv hM
      exact hrest

end Contract

/-! ## Soundness -/

/-- A running session is at an annotated point of its program, where it has taken a first part of
the locks its next statement wants. -/
structure Session.Sound (C : Contract S σ π ρ κ) (Y : System S σ π ρ κ α)
    (Q : κ → α → Assn S σ π ρ κ) (E : κ → S.Exn → Assn S σ π ρ κ) (g : Shared S σ κ)
    (s : Session S π ρ κ α) : Prop where
  /-- The assertion that stands before the rest of the program is true. -/
  annotated : ∃ P, C.Triple Y.toStore s.call (Q s.call) (E s.call) s.prog P ∧
    P g s.pending s.held
  /-- Locks are taken in order. -/
  acquired : ∃ taken, taken <+: Y.wants s.prog ∧ s.acquired ⊆ taken ∧ taken ⊆ s.locks

/-- The invariant of annotated systems. -/
structure World.Sound (C : Contract S σ π ρ κ) (Y : System S σ π ρ κ α)
    (Q : κ → α → Assn S σ π ρ κ) (E : κ → S.Exn → Assn S σ π ρ κ)
    (w : World S σ π ρ κ α) : Prop where
  /-- The shared state is as the contract says. -/
  inv : C.inv w.shared
  /-- No two sessions hold conflicting locks. -/
  compatible : ∀ i j s t, j ≠ i → w.Running i s → w.Running j t → Compatible s.locks t.locks
  /-- Every running session is sound. -/
  session : ∀ i s, w.Running i s → s.Sound C Y Q E w.shared

/-- A commit beside other sessions satisfies the contract's condition on them. -/
def Contract.Admits (C : Contract S σ π ρ κ) (w : World S σ π ρ κ α) (a : System.Action κ) : Prop :=
  ∀ i s next, a = .advance i → w.Running i s → s.prog = .commit next →
    ∀ j t, j ≠ i → w.Running j t → C.beside s.pending t.pending

section Soundness

variable {C : Contract S σ π ρ κ} {Y : System S σ π ρ κ α} {Q : κ → α → Assn S σ π ρ κ}
  {E : κ → S.Exn → Assn S σ π ρ κ} {w w' : World S σ π ρ κ α}

/-- In a sound world a session about to return has established its postcondition. -/
theorem World.Sound.returned (hw : w.Sound C Y Q E) {i : ℕ} {s : Session S π ρ κ α}
    (hs : w.Running i s) {a : α} (hprog : s.prog = .ret a) :
    Q s.call a w.shared s.pending s.held := by
  obtain ⟨P, hT, hP⟩ := (hw.session i s hs).annotated
  rw [hprog] at hT
  exact hT.2 _ _ _ hw.inv hP

/-- In a sound world a session about to raise has established its exceptional postcondition. -/
theorem World.Sound.raised (hw : w.Sound C Y Q E) {i : ℕ} {s : Session S π ρ κ α}
    (hs : w.Running i s) {e : S.Exn} (hprog : s.prog = .raise e) :
    E s.call e w.shared s.pending s.held := by
  obtain ⟨P, hT, hP⟩ := (hw.session i s hs).annotated
  rw [hprog] at hT
  exact hT.2 _ _ _ hw.inv hP

/-- In a sound world a session whose next statement would fail has established its exceptional
postcondition for that failure. -/
theorem World.Sound.failed (hw : w.Sound C Y Q E) {i : ℕ} {s : Session S π ρ κ α}
    (hs : w.Running i s) {stmt : S.Stmt} {next : S.Reply stmt → Prog S α}
    (hprog : s.prog = .exec stmt next) {e : S.Exn}
    (hexec : Y.exec w.shared.store s.pending stmt = .error e) :
    E s.call e w.shared s.pending [] := by
  obtain ⟨P, hT, hP⟩ := (hw.session i s hs).annotated
  rw [hprog] at hT
  obtain ⟨-, M, -, hstmt⟩ := hT
  -- whatever it waits for, it would fail with the same exception if it were granted all its locks
  have hpost := (hstmt _ _ _ hw.inv hP).2 (s.held ++ Y.footprint stmt)
    (List.subset_append_left _ _)
    (List.Subset.trans (Y.requests_subset _ _ _) (List.subset_append_right _ _))
    (List.Subset.refl _)
  rwa [hexec] at hpost

/-- In a sound world a session holds the locks its next statement must be issued under. -/
theorem World.Sound.ready (hw : w.Sound C Y Q E) {i : ℕ} {s : Session S π ρ κ α}
    (hs : w.Running i s) {stmt : S.Stmt} {next : S.Reply stmt → Prog S α}
    (hprog : s.prog = .exec stmt next) : C.ready s.held stmt := by
  obtain ⟨P, hT, hP⟩ := (hw.session i s hs).annotated
  rw [hprog] at hT
  obtain ⟨-, M, -, hexec⟩ := hT
  exact (hexec _ _ _ hw.inv hP).1

/-- Soundness of a session survives what it relies on. -/
theorem Session.Sound.of_rely {g g' : Shared S σ κ} {s : Session S π ρ κ α}
    (hs : s.Sound C Y Q E g) (hg : C.inv g) (hg' : C.inv g')
    (hrely : C.rely s.pending s.held g g') : s.Sound C Y Q E g' := by
  obtain ⟨⟨P, hT, hP⟩, hacq⟩ := hs
  exact ⟨⟨P, hT, hT.stable hg hg' hrely hP⟩, hacq⟩

/-- A world stays sound when one slot changes to a sound session, or to none, and the shared state
changes as the other sessions rely on. -/
theorem World.Sound.replace (hw : w.Sound C Y Q E) {i : ℕ} {g' : Shared S σ κ}
    {x : Slot S π ρ κ α} (hinv : C.inv g')
    (hrely : ∀ j t, j ≠ i → w.Running j t →
      g' = w.shared ∨ C.rely t.pending t.held w.shared g')
    (hx : ∀ s', x = .running s' → s'.Sound C Y Q E g' ∧
      ∀ j t, j ≠ i → w.Running j t → Compatible s'.locks t.locks) :
    World.Sound C Y Q E ⟨g', w.slots.set i x⟩ := by
  refine ⟨hinv, ?_, ?_⟩
  · intro j k t u hkj ht hu
    rcases World.running_set ht with ⟨rfl, rfl⟩ | ⟨hji, ht⟩ <;>
      rcases World.running_set hu with ⟨hki, hxu⟩ | ⟨hki, hu⟩
    · exact absurd hki hkj
    · exact (hx t rfl).2 k u hki hu
    · exact ((hx u hxu).2 j t hji ht).symm
    · exact hw.compatible j k t u hkj ht hu
  · intro j t ht
    -- the changed slot, or one whose session relies on how the shared state has changed
    rcases World.running_set ht with ⟨rfl, hxt⟩ | ⟨hji, ht⟩
    · exact (hx t hxt).1
    · rcases hrely j t hji ht with rfl | hr
      · exact hw.session j t ht
      · exact (hw.session j t ht).of_rely hw.inv hinv hr

/-- The calls' annotations: one triple for each call, and exceptional postconditions that survive
the commits of others until the session is closed. -/
structure Annotated (C : Contract S σ π ρ κ) (Y : System S σ π ρ κ α)
    (Q : κ → α → Assn S σ π ρ κ) (E : κ → S.Exn → Assn S σ π ρ κ) : Prop where
  /-- Every call is annotated from its start. -/
  triple : ∀ call, C.Triple Y.toStore call (Q call) (E call) (Y.program call)
    (Contract.Fresh Y.toStore)
  /-- What a raise establishes is stable. -/
  stable : ∀ call e, C.Stable (E call e)

/-- A fresh session is sound. -/
theorem Annotated.fresh (hA : Annotated C Y Q E) (g : Shared S σ κ) (call : κ) :
    (Y.fresh call).Sound C Y Q E g :=
  ⟨⟨_, hA.triple call, rfl, rfl⟩, [], List.nil_prefix, List.Subset.refl _, List.nil_subset _⟩

/-- A first part of a list that misses an element ends before it. -/
theorem prefix_of_not_mem {γ : Type} {taken pre post : List γ} {l : γ}
    (h : taken <+: pre ++ l :: post) (hl : l ∉ taken) : taken <+: pre := by
  rw [← List.singleton_append, ← List.append_assoc] at h
  -- it ends before `l`, or it would contain it
  rcases List.prefix_or_prefix_of_prefix h (List.prefix_append (pre ++ [l]) post) with h | h
  · rcases List.prefix_concat_iff.mp h with rfl | h
    · exact absurd (by simp) hl
    · exact h
  · exact absurd (h.subset (by simp)) hl

/-- What a waiting session has taken for its statement comes before the lock it waits for. -/
theorem Session.Sound.acquired_subset [DecidableEq ρ] {g : Shared S σ κ} {s : Session S π ρ κ α}
    (hs : s.Sound C Y Q E g) {stmt : S.Stmt} {next : S.Reply stmt → Prog S α}
    (hprog : s.prog = .exec stmt next) {pre post : List (Lock ρ)} {l : Lock ρ}
    (hfoot : Y.footprint stmt = pre ++ l :: post) (hl : l ∉ s.locks) : s.acquired ⊆ pre := by
  obtain ⟨-, taken, htaken, hacq, hheld⟩ := hs
  rw [hprog, System.wants, hfoot] at htaken
  have hpre : taken <+: pre := prefix_of_not_mem htaken (fun h => hl (hheld h))
  exact fun x hx => hpre.subset (hacq hx)

/-- The locks taken so far stay a first part of the wanted ones when the next one is taken. -/
theorem Session.Sound.acquire [DecidableEq ρ] {g : Shared S σ κ} {s : Session S π ρ κ α}
    (hs : s.Sound C Y Q E g) {l : Lock ρ} {rest : List (Lock ρ)}
    (hmiss : Y.missing g s = l :: rest) :
    Session.Sound C Y Q E g { s with acquired := s.acquired ++ [l] } := by
  obtain ⟨stmt, next, pre, post, hprog, hfoot, hheld, hnew⟩ := System.missing_eq_cons hmiss
  have hacq := hs.acquired_subset hprog hfoot hnew
  refine ⟨hs.annotated, pre ++ [l], ?_, ?_, ?_⟩
  · rw [hprog, System.wants, hfoot]
    exact ⟨post, by simp⟩
  · exact List.append_subset.mpr ⟨fun x hx => List.mem_append_left _ (hacq hx),
      List.subset_append_right _ _⟩
  · intro x hx
    simp only [Session.locks, ← List.append_assoc]
    rcases List.mem_append.mp hx with hx | hx
    · exact List.mem_append_left _ (hheld hx)
    · exact List.mem_append_right _ hx

/-- When a session has all the locks of its next statement, those it requests are among its locks,
and it holds none but those it held before and those the statement wants. -/
theorem Session.Sound.locks_of_missing_nil [DecidableEq ρ] {g : Shared S σ κ}
    {s : Session S π ρ κ α} (hs : s.Sound C Y Q E g) {stmt : S.Stmt}
    {next : S.Reply stmt → Prog S α} (hprog : s.prog = .exec stmt next)
    (hmiss : Y.missing g s = []) :
    s.held ⊆ s.locks ∧ Y.requests g.store s.pending stmt ⊆ s.locks ∧
      s.locks ⊆ s.held ++ Y.footprint stmt := by
  obtain ⟨-, taken, hpre, hacq, -⟩ := hs
  rw [hprog] at hpre
  refine ⟨List.subset_append_left _ _, fun l hl => ?_, ?_⟩
  · simp only [System.missing, hprog, List.filter_eq_nil_iff, decide_eq_true_eq,
      Decidable.not_not] at hmiss
    exact hmiss l hl
  · exact List.append_subset.mpr ⟨List.subset_append_left _ _, fun l hl =>
      List.mem_append_right _ (hpre.subset (hacq hl))⟩

/-- Starting a session keeps a world sound. -/
theorem World.Sound.start (hA : Annotated C Y Q E) (hw : w.Sound C Y Q E) (call : κ) :
    World.Sound C Y Q E { w with slots := w.slots ++ [.running (Y.fresh call)] } := by
  refine ⟨hw.inv, ?_, ?_⟩
  · intro j k t u hkj ht hu
    -- a session that holds nothing conflicts with none
    rcases World.running_append ht with ht | ⟨rfl, rfl⟩ <;>
      rcases World.running_append hu with hu | ⟨rfl, rfl⟩
    · exact hw.compatible j k t u hkj ht hu
    · exact fun _ _ y hy => by cases hy
    · exact fun x hx => by cases hx
    · exact absurd rfl hkj
  · intro j t ht
    rcases World.running_append ht with ht | ⟨rfl, rfl⟩
    · exact hw.session j t ht
    · exact hA.fresh _ call

/-- What one session does next keeps a world sound. -/
theorem World.Sound.advance [DecidableEq ρ] (hA : Annotated C Y Q E) (hw : w.Sound C Y Q E) {i : ℕ}
    {s : Session S π ρ κ α} (hs : w.Running i s) (hmiss : Y.missing w.shared s = [])
    (hadm : C.Admits w (.advance i)) :
    World.Sound C Y Q E ⟨(Y.advance w.shared s).1, w.slots.set i (Y.advance w.shared s).2⟩ := by
  obtain ⟨P, hT, hP⟩ := (hw.session i s hs).annotated
  unfold System.advance
  cases hprog : s.prog with
  -- a session that ends leaves nothing to assert
  | ret a => exact hw.replace hw.inv (fun _ _ _ _ => Or.inl rfl) (fun s' hs' => by cases hs')
  | raise e => exact hw.replace hw.inv (fun _ _ _ _ => Or.inl rfl) (fun s' hs' => by cases hs')
  | exec stmt next =>
      rw [hprog] at hT
      obtain ⟨-, M, hnext, hexec⟩ := hT
      obtain ⟨hheld, hreq, hlocks⟩ := (hw.session i s hs).locks_of_missing_nil hprog hmiss
      have hpost := (hexec _ _ _ hw.inv hP).2 s.locks hheld hreq hlocks
      have hcompat : ∀ j t, j ≠ i → w.Running j t → Compatible (s.locks ++ []) t.locks := by
        rw [List.append_nil]
        exact fun j t hji ht => hw.compatible i j s t hji hs ht
      dsimp only
      cases hres : Y.exec w.shared.store s.pending stmt with
      | ok rp =>
          obtain ⟨r, p⟩ := rp
          rw [hres] at hpost
          refine hw.replace hw.inv (fun _ _ _ _ => Or.inl rfl) (fun s' hs' => ?_)
          obtain rfl := (Slot.running.inj hs').symm
          exact ⟨⟨⟨M r, hnext r, hpost⟩, [], List.nil_prefix, List.Subset.refl _,
            List.nil_subset _⟩, hcompat⟩
      | error e =>
          rw [hres] at hpost
          refine hw.replace hw.inv (fun _ _ _ _ => Or.inl rfl) (fun s' hs' => ?_)
          obtain rfl := (Slot.running.inj hs').symm
          -- what is left of the program is the raise, which the exceptional assertion annotates
          have hraise : C.Triple Y.toStore s.call (Q s.call) (E s.call) (.raise e) (E s.call e) :=
            Contract.Triple.raise (hA.stable s.call e) fun _ _ _ h => h
          exact ⟨⟨⟨E s.call e, hraise, hpost⟩, [],
            List.nil_prefix, List.Subset.refl _, List.nil_subset _⟩,
            fun _ _ _ _ x hx => by cases hx⟩
  | commit next =>
      rw [hprog] at hT
      obtain ⟨-, M, hnext, hcommit⟩ := hT
      obtain ⟨hinv, hM, hrely⟩ := hcommit _ _ _ hw.inv hP
      -- the locks of the others are compatible with those held, so they rely on this commit
      have hbeside := hadm i s next rfl hs hprog
      refine hw.replace hinv (fun j t hji ht => Or.inr ?_) (fun s' hs' => ?_)
      · refine hrely _ _ ((hw.compatible i j s t hji hs ht).mono ?_ ?_) (hbeside j t hji ht)
        · exact List.subset_append_left _ _
        · exact List.subset_append_left _ _
      · obtain rfl := (Slot.running.inj hs').symm
        exact ⟨⟨⟨M, hnext, hM⟩, [], List.nil_prefix, List.Subset.refl _, List.nil_subset _⟩,
          fun _ _ _ _ x hx => by cases hx⟩
  | emit m next =>
      rw [hprog] at hT
      obtain ⟨-, M, hnext, hemit⟩ := hT
      obtain ⟨hinv, hM, hrely⟩ := hemit _ _ _ hw.inv hP
      obtain ⟨taken, hpre, hacq, -⟩ := (hw.session i s hs).acquired
      rw [hprog] at hpre
      refine hw.replace hinv (fun j t hji ht => Or.inr ?_) (fun s' hs' => ?_)
      · exact hrely _ _ ((hw.compatible i j s t hji hs ht).mono
          (List.subset_append_left _ _) (List.subset_append_left _ _))
      · obtain rfl := (Slot.running.inj hs').symm
        refine ⟨⟨⟨M, hnext, hM⟩, [], List.nil_prefix, ?_, List.nil_subset _⟩,
          fun j t hji ht => hw.compatible i j s t hji hs ht⟩
        -- a message wants no locks, so none were taken for it
        exact List.prefix_nil.mp hpre ▸ hacq

/-- **Step lemma**: every step a scheduler can take keeps a world sound, whichever sessions run. -/
theorem World.Sound.step [DecidableEq ρ] (hA : Annotated C Y Q E) (hw : w.Sound C Y Q E)
    {a : System.Action κ} (hadm : C.Admits w a) (h : Y.step w a = some w') :
    w'.Sound C Y Q E := by
  rcases System.step_cases h with ⟨call, -, rfl⟩ | ⟨i, s, l, rest, -, hs, hl, hgrant, rfl⟩ |
    ⟨i, s, rfl, hs, hmiss, rfl⟩ | ⟨i, s, -, hs, rfl⟩
  · exact hw.start hA call
  · -- a lock is granted
    refine hw.replace hw.inv (fun _ _ _ _ => Or.inl rfl) ?_
    intro s' hs'
    obtain rfl := (Slot.running.inj hs').symm
    refine ⟨(hw.session i s hs).acquire hl, fun j t hji ht => ?_⟩
    intro x hx y hy
    simp only [Session.locks, ← List.append_assoc] at hx
    rcases List.mem_append.mp hx with hx | hx
    · exact hw.compatible i j s t hji hs ht x hx y hy
    · rw [List.mem_singleton.mp hx]
      exact hgrant.not_conflicts ht hji hy
  · exact hw.advance hA hs hmiss hadm
  · -- a session is lost
    exact hw.replace hw.inv (fun _ _ _ _ => Or.inl rfl) (fun s' hs' => by cases hs')

/-- **Run lemma**: annotated systems only reach sound worlds. -/
theorem World.Sound.of_reaches [DecidableEq ρ] (hA : Annotated C Y Q E)
    {adm : World S σ π ρ κ α → System.Action κ → Prop} {w₀ : World S σ π ρ κ α}
    (hadm : ∀ w a, adm w a → C.Admits w a) (hw₀ : w₀.Sound C Y Q E)
    (h : Y.Reaches adm w₀ w) : w.Sound C Y Q E := by
  induction h with
  | refl => exact hw₀
  | step _ ha hstep ih => exact ih.step hA (hadm _ _ ha) hstep

/-- The world in which no call has been made is sound. -/
theorem World.Sound.init {s : σ} (h : C.inv ⟨s, [], []⟩) :
    (World.init s : World S σ π ρ κ α).Sound C Y Q E :=
  ⟨h, fun _ _ _ _ _ hi _ => by simp [World.Running, World.init] at hi,
    fun _ _ hi => by simp [World.Running, World.init] at hi⟩

end Soundness

end Sessions
