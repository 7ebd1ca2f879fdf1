import Mathlib.Data.List.Forall2
import LedgerApi.Library.Faults
import LedgerApi.Library.Provenance
import LedgerApi.Library.Reading

/-! # A system with readers

A system of writers, extended by sessions that only read and by requests that are refused before
they touch the store: `Extension` says what each call of the larger system does, and
`Extension.system` is that system.

* `Extension.simulate` — **refinement**: every run of the larger system is shadowed by a run of the
  writers alone, with the same committed rows, the same messages, the writing calls in the log, and
  the same answers to them. What is known of all runs of the writers so holds of the larger system.
* `Extension.along` — what a reader answers is evaluated along the run (`Along`), from the world
  in which it was not yet started to the one in which it has ended. -/

namespace Sessions

/-! ## Lists related place by place -/

section Places

variable {γ δ : Type*} {R : γ → δ → Prop} {xs : List γ} {ys : List δ}

/-- What stands at the same place on the other side. -/
theorem exists_of_forall₂ (h : List.Forall₂ R xs ys) {i : ℕ} {x : γ} (hx : xs[i]? = some x) :
    ∃ y, ys[i]? = some y ∧ R x y := by
  induction h generalizing i with
  | nil => cases hx
  | @cons a b as bs hab _ ih =>
      cases i with
      | zero =>
          rw [List.getElem?_cons_zero] at hx
          obtain rfl := Option.some.inj hx
          exact ⟨b, List.getElem?_cons_zero, hab⟩
      | succ i =>
          rw [List.getElem?_cons_succ] at hx ⊢
          exact ih hx

/-- One place changes on both sides. -/
theorem forall₂_set (h : List.Forall₂ R xs ys) (i : ℕ) {x : γ} {y : δ} (hxy : R x y) :
    List.Forall₂ R (xs.set i x) (ys.set i y) := by
  induction h generalizing i with
  | nil => exact .nil
  | cons hab hrest ih =>
      cases i with
      | zero => exact .cons hxy hrest
      | succ i => exact .cons hab (ih i)

/-- One place changes on one side. -/
theorem forall₂_set_left (h : List.Forall₂ R xs ys) {i : ℕ} {x : γ} {y : δ}
    (hy : ys[i]? = some y) (hxy : R x y) : List.Forall₂ R (xs.set i x) ys := by
  have hset : ys.set i y = ys := by
    obtain ⟨hlt, rfl⟩ := List.getElem?_eq_some_iff.mp hy
    exact List.set_getElem_self hlt
  have hboth := forall₂_set h i hxy
  rwa [hset] at hboth

/-- A place is added on both sides. -/
theorem forall₂_append_singleton (h : List.Forall₂ R xs ys) {x : γ} {y : δ} (hxy : R x y) :
    List.Forall₂ R (xs ++ [x]) (ys ++ [y]) :=
  List.rel_append h (.cons hxy .nil)

end Places

/-! ## The larger system -/

/-- Statements and queries in one vocabulary. The exceptions are those of the readers. -/
abbrev Signature.withQueries (S Q : Signature) : Signature where
  Stmt := S.Stmt ⊕ Q.Stmt
  Reply := Sum.elim S.Reply Q.Reply
  Msg := S.Msg
  Exn := Q.Exn

/-- The writers' vocabulary in the larger one. -/
def Signature.writing {S Q : Signature} (exn : S.Exn → Q.Exn) : S.Hom (S.withQueries Q) where
  stmt := .inl
  reply _ r := r
  msg m := m
  exn := exn

/-- The readers' vocabulary in the larger one. -/
def Signature.querying (S Q : Signature) [IsEmpty Q.Msg] : Q.Hom (S.withQueries Q) where
  stmt := .inr
  reply _ r := r
  msg m := isEmptyElim m
  exn e := e

/-- What a call of the larger system does. -/
inductive Task (Q : Signature) (κ' α' α : Type) : Type
  /-- It is a call of the writers, and its result is one of these under `result`. -/
  | write (call : κ') (result : α' → α)
  /-- It reads, or it ends at once. -/
  | read (x : Prog Q α)

/-- The committed rows of a world. -/
abbrev World.store {S : Signature} {σ π ρ κ α : Type} (w : World S σ π ρ κ α) : σ := w.shared.store

/-- An extension of the writers `Y'` by calls that read. -/
structure Extension {S : Signature} {σ π ρ κ' α' : Type} (Y' : System S σ π ρ κ' α')
    (Q : Signature) (κ α : Type) where
  /-- The exceptions of the writers. -/
  exn : S.Exn → Q.Exn
  /-- The answers to queries. -/
  answer : σ → (q : Q.Stmt) → Q.Reply q
  /-- What the calls do. -/
  task : κ → Task Q κ' α' α
  /-- Who only reads has nothing to commit. -/
  quiet : ∀ {c x}, task c = .read x → x.CommitsAtMost 0
  /-- Some call of the writers. -/
  idle : κ'

/-- Worlds are ordered by the runs from one to the other. -/
instance {S : Signature} {σ π ρ κ α : Type} [DecidableEq ρ] {Y : System S σ π ρ κ α}
    {adm : World S σ π ρ κ α → System.Action κ → Prop} :
    IsTrans (World S σ π ρ κ α) (Y.Reaches adm) := ⟨fun _ _ _ => System.Reaches.trans⟩

instance {S : Signature} {σ π ρ κ α : Type} [DecidableEq ρ] {Y : System S σ π ρ κ α}
    {adm : World S σ π ρ κ α → System.Action κ → Prop} : Std.Refl (Y.Reaches adm) :=
  ⟨fun _ => .refl⟩

namespace Extension

variable {S Q : Signature} [IsEmpty Q.Msg] {σ π ρ κ κ' α α' : Type} {Y' : System S σ π ρ κ' α'}
  (X : Extension Y' Q κ α)

/-- The writers and the readers in one system. Queries take no locks and write nothing. -/
def system : System (S.withQueries Q) σ π ρ κ α where
  blank := Y'.blank
  footprint
    | .inl stmt => Y'.footprint stmt
    | .inr _ => []
  engaged s p
    | .inl stmt => Y'.engaged s p stmt
    | .inr _ => true
  exec s p
    | .inl stmt => (Y'.exec s p stmt).mapError X.exn
    | .inr q => .ok (X.answer s q, p)
  merge := Y'.merge
  program c :=
    match X.task c with
    | .write c' result => (Y'.program c').translate (Signature.writing X.exn) result
    | .read x => x.translate (Signature.querying S Q) id

/-- The writers' call that a call is, if it is one. -/
def writer (c : κ) : Option κ' :=
  match X.task c with
  | .write c' _ => some c'
  | .read _ => none

/-- The program of a writing call. -/
theorem program_of_write {c : κ} {c' : κ'} {result : α' → α} (h : X.task c = .write c' result) :
    X.system.program c = (Y'.program c').translate (Signature.writing X.exn) result := by
  simp only [system, h]

/-- The program of a reading call. -/
theorem program_of_read {c : κ} {x : Prog Q α} (h : X.task c = .read x) :
    X.system.program c = x.translate (Signature.querying S Q) id := by
  simp only [system, h]

/-! ## Shadows -/

/-- A slot of a run and the same slot of its shadow: a writer is at the same point or has ended in
the same way, and for a reader there is a call that was lost. -/
inductive Shadow :
    Slot (S.withQueries Q) π ρ κ α → Slot S π ρ κ' α' → Prop
  | writing {c : κ} {c' : κ'} {result : α' → α} {prog : Prog S α'} {p : π}
      {held acquired : List (Lock ρ)} (htask : X.task c = .write c' result) :
      Shadow (.running ⟨c, prog.translate (Signature.writing X.exn) result, p, held, acquired⟩)
        (.running ⟨c', prog, p, held, acquired⟩)
  | returned {c : κ} {c' : κ'} {result : α' → α} {a : α'} (htask : X.task c = .write c' result) :
      Shadow (.finished c (.returned (result a))) (.finished c' (.returned a))
  | raised {c : κ} {c' : κ'} {result : α' → α} {e : S.Exn} (htask : X.task c = .write c' result) :
      Shadow (.finished c (.raised (X.exn e))) (.finished c' (.raised e))
  | lost {c : κ} {c' : κ'} {result : α' → α} (htask : X.task c = .write c' result) :
      Shadow (.finished c .lost) (.finished c' .lost)
  | reading {c : κ} {x₀ x : Prog Q α} {p : π} (htask : X.task c = .read x₀)
      (hquiet : x.CommitsAtMost 0) :
      Shadow (.running ⟨c, x.translate (Signature.querying S Q) id, p, [], []⟩)
        (.finished X.idle .lost)
  | read {c : κ} {x₀ : Prog Q α} {v : Verdict (S.withQueries Q) α} (htask : X.task c = .read x₀) :
      Shadow (.finished c v) (.finished X.idle .lost)

/-- A world and its shadow. -/
structure Shadows (w : World (S.withQueries Q) σ π ρ κ α) (w' : World S σ π ρ κ' α') :
    Prop where
  store : w'.shared.store = w.shared.store
  log : w'.shared.log = w.shared.log.filterMap X.writer
  sent : w'.shared.sent = w.shared.sent
  slots : List.Forall₂ X.Shadow w.slots w'.slots

variable {X} {w v : World (S.withQueries Q) σ π ρ κ α} {w' v' : World S σ π ρ κ' α'}

/-- Before the first call a world is its own shadow. -/
theorem shadows_init (s : σ) : X.Shadows (World.init s) (World.init s) := ⟨rfl, rfl, rfl, .nil⟩

/-- A writer whose statement has failed is at the same point. -/
theorem Shadow.failing {c : κ} {c' : κ'} {result : α' → α} {e : S.Exn} {p : π}
    {held acquired : List (Lock ρ)} (htask : X.task c = .write c' result) :
    X.Shadow (.running ⟨c, .raise (X.exn e), p, held, acquired⟩)
      (.running ⟨c', .raise e, p, held, acquired⟩) := by
  have hwriting : X.Shadow (.running ⟨c, (Prog.raise e).translate (Signature.writing X.exn) result,
      p, held, acquired⟩) (.running ⟨c', .raise e, p, held, acquired⟩) := .writing htask
  exact hwriting

/-- A slot holds the same locks in the shadow. -/
theorem Shadow.locks_eq {x : Slot (S.withQueries Q) π ρ κ α} {x' : Slot S π ρ κ' α'}
    (h : X.Shadow x x') : x'.locks = x.locks := by
  cases h <;> rfl

/-- What can be granted can be granted in the shadow. -/
theorem Shadows.grantable (h : X.Shadows w w') {i : ℕ} {l : Lock ρ}
    (hg : System.Grantable w i l) : System.Grantable w' i l := by
  intro j hj hji x' hx' l' hl'
  rw [← h.slots.length_eq] at hj
  have hlt : j < w.slots.length := List.mem_range.mp hj
  have hx : w.slots[j]? = some w.slots[j] := List.getElem?_eq_getElem hlt
  obtain ⟨y', hy', hshadow⟩ := exists_of_forall₂ h.slots hx
  obtain rfl := Option.some.inj (hx'.symm.trans hy')
  rw [hshadow.locks_eq] at hl'
  exact hg j hj hji _ hx l' hl'

/-- A writer needs the same locks in the shadow. -/
theorem missing_translate [DecidableEq ρ] {g : Shared (S.withQueries Q) σ κ} {g' : Shared S σ κ'}
    (hg : g'.store = g.store) (c : κ) (c' : κ') (result : α' → α) (prog : Prog S α') (p : π)
    (held acquired : List (Lock ρ)) :
    X.system.missing g
        ⟨c, prog.translate (Signature.writing X.exn) result, p, held, acquired⟩ =
      Y'.missing g' ⟨c', prog, p, held, acquired⟩ := by
  cases prog <;> simp only [System.missing, Prog.translate]
  rw [hg]
  rfl

/-- A reader needs no locks. -/
theorem missing_query [DecidableEq ρ] (g : Shared (S.withQueries Q) σ κ) (c : κ) (x : Prog Q α)
    (p : π) (held acquired : List (Lock ρ)) :
    X.system.missing g ⟨c, x.translate (Signature.querying S Q) id, p, held, acquired⟩ = [] := by
  cases x with
  | emit m next => exact isEmptyElim m
  | _ => rfl

/-- What a reader does next changes nothing for the others. -/
theorem Shadows.advance_reading (h : X.Shadows w w') {i : ℕ} {c : κ} {x₀ x : Prog Q α} {p : π}
    (htask : X.task c = .read x₀) (hquiet : x.CommitsAtMost 0)
    (hx' : w'.slots[i]? = some (.finished X.idle .lost)) :
    X.Shadows
      ⟨(X.system.advance w.shared ⟨c, x.translate (Signature.querying S Q) id, p, [], []⟩).1,
        w.slots.set i
          (X.system.advance w.shared
            ⟨c, x.translate (Signature.querying S Q) id, p, [], []⟩).2⟩ w' := by
  cases x with
  | ret a => exact ⟨h.store, h.log, h.sent, forall₂_set_left h.slots hx' (.read htask)⟩
  | raise e => exact ⟨h.store, h.log, h.sent, forall₂_set_left h.slots hx' (.read htask)⟩
  | exec q next =>
      exact ⟨h.store, h.log, h.sent, forall₂_set_left h.slots hx' (.reading htask (hquiet _))⟩
  | commit next => exact hquiet.elim
  | emit m next => exact isEmptyElim m

/-- What a writing call is answered here it is answered in the shadow. -/
theorem Shadows.answered (h : X.Shadows w w') {i : ℕ} {c : κ} {c' : κ'} {result : α' → α}
    {res : Except Q.Exn α} (htask : X.task c = .write c' result)
    (hend : w.slots[i]? = some (.finished c (Store.verdict res))) :
    ∃ res', w'.slots[i]? = some (.finished c' (Store.verdict res')) ∧
      res = (res'.map result).mapError X.exn := by
  obtain ⟨slot, hslot, hshadow⟩ := exists_of_forall₂ h.slots hend
  rw [hslot]
  generalize hverdict : (Store.verdict res : Verdict (S.withQueries Q) α) = verdict at hshadow
  cases hshadow with
  | @returned _ _ _ a htask' =>
      obtain ⟨rfl, rfl⟩ := Task.write.inj (htask.symm.trans htask')
      cases res with
      | ok b =>
          obtain rfl := Verdict.returned.inj hverdict
          exact ⟨.ok a, rfl, rfl⟩
      | error e => cases hverdict
  | @raised _ _ _ e htask' =>
      obtain ⟨rfl, rfl⟩ := Task.write.inj (htask.symm.trans htask')
      cases res with
      | ok b => cases hverdict
      | error e' =>
          obtain rfl := Verdict.raised.inj hverdict
          exact ⟨.error e, rfl, rfl⟩
  | lost => cases res <;> cases hverdict
  | read htask' => cases htask.symm.trans htask'

/-! ## Simulation -/

section Simulation

variable [DecidableEq ρ]

/-- A session that is lost here is lost in the shadow. -/
theorem Shadows.fault (h : X.Shadows w w') {i : ℕ} {s : Session (S.withQueries Q) π ρ κ α}
    (hs : w.Running i s) :
    ∃ v', Y'.Reachable w' v' ∧
      X.Shadows { w with slots := w.slots.set i (.finished s.call .lost) } v' := by
  obtain ⟨x', hx', hshadow⟩ := exists_of_forall₂ h.slots hs
  cases hshadow with
  | @writing c c' result prog p held acquired htask =>
      have hstep : Y'.step w' (.fault i) =
          some { w' with slots := w'.slots.set i (.finished c' .lost) } := by
        simp only [System.step, hx']
      refine ⟨_, System.Reaches.refl.step trivial hstep, h.store, h.log, h.sent, ?_⟩
      exact forall₂_set h.slots i (.lost htask)
  | reading htask =>
      refine ⟨w', .refl, h.store, h.log, h.sent, ?_⟩
      exact forall₂_set_left h.slots hx' (.read htask)

/-- A call that starts here starts in the shadow, where one stands for it that is lost at once if it
only reads. -/
theorem Shadows.start (h : X.Shadows w w') (c : κ) :
    ∃ v', Y'.Reachable w' v' ∧
      X.Shadows { w with slots := w.slots ++ [.running (X.system.fresh c)] } v' := by
  cases htask : X.task c with
  | write c' result =>
      refine ⟨_, System.Reaches.refl.step trivial (a := .start c') rfl, h.store, h.log, h.sent, ?_⟩
      apply forall₂_append_singleton h.slots
      rw [System.fresh, X.program_of_write htask]
      exact .writing htask
  | read x =>
      have hlost : Y'.step { w' with slots := w'.slots ++ [.running (Y'.fresh X.idle)] }
          (.fault w'.slots.length) =
            some { w' with slots := w'.slots ++ [.finished X.idle .lost] } := by
        simp [System.step, System.fresh]
      refine ⟨_, (System.Reaches.refl.step trivial (a := .start X.idle) rfl).step trivial hlost,
        h.store, h.log, h.sent, ?_⟩
      apply forall₂_append_singleton h.slots
      rw [System.fresh, X.program_of_read htask]
      exact .reading htask (X.quiet htask)

/-- A lock that is granted here is granted in the shadow. -/
theorem Shadows.acquire (h : X.Shadows w w') {i : ℕ} {s : Session (S.withQueries Q) π ρ κ α}
    {l : Lock ρ} {rest : List (Lock ρ)} (hs : w.Running i s)
    (hl : X.system.missing w.shared s = l :: rest) (hgrant : System.Grantable w i l) :
    ∃ v', Y'.Reachable w' v' ∧ X.Shadows
      { w with slots := w.slots.set i (.running { s with acquired := s.acquired ++ [l] }) } v' := by
  obtain ⟨x', hx', hshadow⟩ := exists_of_forall₂ h.slots hs
  cases hshadow with
  | @writing c c' result prog p held acquired htask =>
      rw [missing_translate h.store c c'] at hl
      have hstep : Y'.step w' (.acquire i) = some { w' with
          slots := w'.slots.set i (.running ⟨c', prog, p, held, acquired ++ [l]⟩) } := by
        simp only [System.step, hx', hl, if_pos (h.grantable hgrant)]
      refine ⟨_, System.Reaches.refl.step trivial hstep, h.store, h.log, h.sent, ?_⟩
      exact forall₂_set h.slots i (.writing htask)
  -- a reader waits for nothing
  | reading =>
      rw [missing_query] at hl
      cases hl

/-- What a writer does next it does in the shadow. -/
theorem Shadows.advance_writing (h : X.Shadows w w') {i : ℕ} {c : κ} {c' : κ'} {result : α' → α}
    {prog : Prog S α'} {p : π} {held acquired : List (Lock ρ)}
    (htask : X.task c = .write c' result)
    (hs' : w'.Running i ⟨c', prog, p, held, acquired⟩)
    (hmiss : Y'.missing w'.shared ⟨c', prog, p, held, acquired⟩ = []) :
    ∃ v', Y'.Reachable w' v' ∧ X.Shadows
      ⟨(X.system.advance w.shared
          ⟨c, prog.translate (Signature.writing X.exn) result, p, held, acquired⟩).1,
        w.slots.set i (X.system.advance w.shared
          ⟨c, prog.translate (Signature.writing X.exn) result, p, held, acquired⟩).2⟩ v' := by
  have hstep : Y'.step w' (.advance i) =
      some ⟨(Y'.advance w'.shared ⟨c', prog, p, held, acquired⟩).1,
        w'.slots.set i (Y'.advance w'.shared ⟨c', prog, p, held, acquired⟩).2⟩ := by
    unfold World.Running at hs'
    simp only [System.step, hs', hmiss, if_pos]
  refine ⟨_, System.Reaches.refl.step trivial hstep, ?_⟩
  cases prog with
  | ret a => exact ⟨h.store, h.log, h.sent, forall₂_set h.slots i (.returned htask)⟩
  | raise e => exact ⟨h.store, h.log, h.sent, forall₂_set h.slots i (.raised htask)⟩
  | exec stmt next =>
      have hexec : X.system.exec w.shared.store p (.inl stmt) =
          (Y'.exec w'.shared.store p stmt).mapError X.exn := by
        rw [h.store]
        rfl
      simp only [System.advance, Prog.translate, Signature.writing, hexec]
      cases hres : Y'.exec w'.shared.store p stmt with
      | ok rp => exact ⟨h.store, h.log, h.sent, forall₂_set h.slots i (.writing htask)⟩
      | error e =>
          refine ⟨h.store, h.log, h.sent, forall₂_set h.slots i ?_⟩
          exact .failing htask
  | commit next =>
      refine ⟨?_, ?_, h.sent, forall₂_set h.slots i (.writing htask)⟩
      · show Y'.merge w'.shared.store p = Y'.merge w.shared.store p
        rw [h.store]
      · have hwriter : X.writer c = some c' := by simp only [writer, htask]
        show w'.shared.log ++ [c'] = (w.shared.log ++ [c]).filterMap X.writer
        rw [h.log, List.filterMap_append, List.filterMap_cons_some hwriter, List.filterMap_nil]
  | emit m next =>
      refine ⟨h.store, h.log, ?_, forall₂_set h.slots i (.writing htask)⟩
      show w'.shared.sent ++ [m] = w.shared.sent ++ [m]
      rw [h.sent]

/-- **Step lemma**: what happens here happens in the shadow. -/
theorem Shadows.step (h : X.Shadows w w') {a : System.Action κ}
    (hstep : X.system.step w a = some v) :
    ∃ v', Y'.Reachable w' v' ∧ X.Shadows v v' := by
  rcases System.step_cases hstep with ⟨c, -, rfl⟩ | ⟨i, s, l, rest, -, hs, hl, hgrant, rfl⟩ |
    ⟨i, s, -, hs, hmiss, rfl⟩ | ⟨i, s, -, hs, rfl⟩
  · exact h.start c
  · exact h.acquire hs hl hgrant
  · obtain ⟨x', hx', hshadow⟩ := exists_of_forall₂ h.slots hs
    cases hshadow with
    | @writing c c' result prog p held acquired htask =>
        rw [missing_translate h.store c c'] at hmiss
        exact h.advance_writing htask hx' hmiss
    | reading htask hquiet => exact ⟨w', .refl, h.advance_reading htask hquiet hx'⟩
  · exact h.fault hs

/-- **Refinement**: every run is shadowed by a run of the writers alone. -/
theorem Shadows.reachable (h : X.Shadows w w') (hrun : X.system.Reachable w v) :
    ∃ v', Y'.Reachable w' v' ∧ X.Shadows v v' := by
  induction hrun with
  | refl => exact ⟨w', .refl, h⟩
  | step _ _ hstep ih =>
      obtain ⟨u', hu', hshadows⟩ := ih
      obtain ⟨v', hv', hshadows'⟩ := hshadows.step hstep
      exact ⟨v', hu'.trans hv', hshadows'⟩

/-- What the shadow of a reachable world is. -/
theorem exists_shadow {s : σ} (hrun : X.system.Reachable (World.init s) w) :
    ∃ w', Y'.Reachable (World.init s) w' ∧ X.Shadows w w' :=
  (shadows_init s).reachable hrun

/-- A relation that the committed rows of the writers move along is one that those of the larger
system move along. -/
theorem rel_of_reachable {s : σ} {R : σ → σ → Prop}
    (hR : ∀ w' v', Y'.Reachable (World.init s) w' → Y'.Reachable w' v' →
      R w'.shared.store v'.shared.store)
    (hw : X.system.Reachable (World.init s) w) (hrun : X.system.Reachable w v) :
    R w.shared.store v.shared.store := by
  obtain ⟨w', hw', hshadows⟩ := exists_shadow hw
  obtain ⟨v', hv', hshadows'⟩ := hshadows.reachable hrun
  rw [← hshadows.store, ← hshadows'.store]
  exact hR w' v' hw' hv'

/-- Sessions that only read change nothing that is shared. -/
theorem Shadows.shared_step (h : X.Shadows w w') {a : System.Action κ}
    (hstep : X.system.step w a = some v) (hread : ∀ i s, w.Running i s → X.writer s.call = none) :
    v.shared = w.shared := by
  have hreading : ∀ {i : ℕ} {s : Session (S.withQueries Q) π ρ κ α}, w.Running i s →
      ∃ x : Prog Q α, s.prog = x.translate (Signature.querying S Q) id ∧ x.CommitsAtMost 0 := by
    intro i s hs
    obtain ⟨x', -, hshadow⟩ := exists_of_forall₂ h.slots hs
    cases hshadow with
    | @writing c c' result prog p held acquired htask =>
        have hnone := hread i _ hs
        simp only [writer, htask] at hnone
        cases hnone
    | @reading c x₀ x p htask hquiet => exact ⟨x, rfl, hquiet⟩
  rcases System.shared_step hstep with hsame | ⟨i, s, next, -, hs, hprog, -⟩ |
    ⟨i, s, m, next, -, hs, hprog, -⟩
  · exact hsame
  · obtain ⟨x, hx, hquiet⟩ := hreading hs
    rw [hprog] at hx
    cases x with
    | commit next' => exact hquiet.elim
    | _ => cases hx
  · obtain ⟨x, hx, -⟩ := hreading hs
    rw [hprog] at hx
    cases x with
    | emit m' next' => exact isEmptyElim m'
    | _ => cases hx

end Simulation

/-! ## What readers answer -/

section Readers

variable [DecidableEq ρ]
  {adm : World (S.withQueries Q) σ π ρ κ α → System.Action κ → Prop}
  {w₁ : World (S.withQueries Q) σ π ρ κ α}

variable (X) in
/-- The answer to a query in a world of the run. -/
def answerIn (w : World (S.withQueries Q) σ π ρ κ α) (q : Q.Stmt) : Q.Reply q :=
  X.answer w.shared.store q

variable (X adm) in
/-- A reader in a slot of the world `w`, when it was started in `w₁` or later: what the rest of its
program answers from here the whole program answers from `w₁`. -/
def ReadsFrom (w₁ w : World (S.withQueries Q) σ π ρ κ α) :
    Slot (S.withQueries Q) π ρ κ α → Prop
  | .running t => ∀ x₀, X.task t.call = .read x₀ →
      ∃ x : Prog Q α, t.prog = x.translate (Signature.querying S Q) id ∧ x.CommitsAtMost 0 ∧
        ∀ res w', Along X.answerIn (X.system.Reaches adm) x w res w' →
          Along X.answerIn (X.system.Reaches adm) x₀ w₁ res w'
  | .finished c v => ∀ x₀, X.task c = .read x₀ → ∀ res, v = Store.verdict res →
      Along X.answerIn (X.system.Reaches adm) x₀ w₁ res w

/-- The run may go on. -/
theorem ReadsFrom.mono {slot : Slot (S.withQueries Q) π ρ κ α} (h : X.ReadsFrom adm w₁ w slot)
    (hrun : X.system.Reaches adm w v) : X.ReadsFrom adm w₁ v slot := by
  cases slot with
  | running t =>
      intro x₀ htask
      obtain ⟨x, hprog, hquiet, hx⟩ := h x₀ htask
      exact ⟨x, hprog, hquiet, fun res w' halong => hx res w' (halong.left hrun)⟩
  | finished c v =>
      intro x₀ htask res hres
      exact (h x₀ htask res hres).right hrun

/-- A reader that starts has everything before it. -/
theorem readsFrom_fresh (hrun : X.system.Reaches adm w₁ w) (c : κ) :
    X.ReadsFrom adm w₁ w (.running (X.system.fresh c)) := by
  intro x₀ htask
  refine ⟨x₀, ?_, X.quiet htask, fun res w' halong => halong.left hrun⟩
  rw [System.fresh]
  exact X.program_of_read htask

/-- A reader that ends has answered, and one that goes on has one query less before it. -/
theorem ReadsFrom.advance {t : Session (S.withQueries Q) π ρ κ α}
    (h : X.ReadsFrom adm w₁ w (.running t)) {x₀ : Prog Q α} (htask : X.task t.call = .read x₀) :
    X.ReadsFrom adm w₁ w (X.system.advance w.shared t).2 := by
  obtain ⟨c, prog, p, held, acquired⟩ := t
  obtain ⟨x, rfl, hquiet, hx⟩ := h x₀ htask
  cases x with
  | ret a =>
      intro y₀ hy₀ res hres
      obtain rfl := Task.read.inj (htask.symm.trans hy₀)
      cases res with
      | ok b =>
          obtain rfl := Verdict.returned.inj hres
          exact hx _ _ (.ret .refl)
      | error e => cases hres
  | raise e =>
      intro y₀ hy₀ res hres
      obtain rfl := Task.read.inj (htask.symm.trans hy₀)
      cases res with
      | ok b => cases hres
      | error e =>
          obtain rfl := Verdict.raised.inj hres
          exact hx _ _ (.raise .refl)
  | exec q next =>
      intro y₀ hy₀
      obtain rfl := Task.read.inj (htask.symm.trans hy₀)
      exact ⟨_, rfl, hquiet _, fun res w' halong => hx res w' (.exec .refl halong)⟩
  | commit next => exact hquiet.elim
  | emit m next => exact isEmptyElim m

/-- Of other calls nothing is said. -/
theorem readsFrom_of_write {slot : Slot (S.withQueries Q) π ρ κ α}
    (h : ∀ x₀, X.task slot.call ≠ .read x₀) : X.ReadsFrom adm w₁ w slot := by
  cases slot with
  | running t => exact fun x₀ htask => absurd htask (h x₀)
  | finished c v => exact fun x₀ htask => absurd htask (h x₀)

/-- Every reader that is started in the world `w₁` or later reads from there. -/
theorem readsFrom_of_reaches (hrun : X.system.Reaches adm w₁ w) {j : ℕ}
    {slot : Slot (S.withQueries Q) π ρ κ α} (hj : w₁.slots.length ≤ j)
    (hslot : w.slots[j]? = some slot) : X.ReadsFrom adm w₁ w slot := by
  induction hrun generalizing slot with
  | refl =>
      rw [List.getElem?_eq_none hj] at hslot
      cases hslot
  | @step w v a hw hadm hstep ih =>
      have hnext : X.system.Reaches adm w v := System.Reaches.refl.step hadm hstep
      rcases System.step_cases hstep with ⟨c, -, rfl⟩ | ⟨i, t, l, rest, -, ht, -, -, rfl⟩ |
        ⟨i, t, -, ht, -, rfl⟩ | ⟨i, t, -, ht, rfl⟩
      · rcases System.mem_append_cases hslot with ⟨-, rfl⟩ | hslot
        · exact readsFrom_fresh (hw.trans hnext) c
        · exact (ih hslot).mono hnext
      · rcases System.mem_set_cases hslot with ⟨rfl, rfl⟩ | ⟨-, hslot⟩
        · exact (ih ht).mono hnext
        · exact (ih hslot).mono hnext
      · rcases System.mem_set_cases hslot with ⟨rfl, rfl⟩ | ⟨-, hslot⟩
        · cases htask : X.task t.call with
          | write c' result =>
              apply readsFrom_of_write
              rw [System.call_advance, htask]
              exact fun x₀ => nofun
          | read x₀ => exact ((ih ht).advance htask).mono hnext
        · exact (ih hslot).mono hnext
      · rcases System.mem_set_cases hslot with ⟨rfl, rfl⟩ | ⟨-, hslot⟩
        -- a reader that is lost has answered nothing
        · intro x₀ _ res hres
          cases res <;> cases hres
        · exact (ih hslot).mono hnext

/-- **What readers answer**: a reader that is started in the world `w₁` or later, and has ended in
`w`, was evaluated along the run from `w₁` to `w`. -/
theorem along (hrun : X.system.Reaches adm w₁ w) {i : ℕ} (hi : w₁.slots.length ≤ i) {c : κ}
    {res : Except Q.Exn α} (hend : w.slots[i]? = some (.finished c (Store.verdict res)))
    {x : Prog Q α} (htask : X.task c = .read x) :
    Along X.answerIn (X.system.Reaches adm) x w₁ res w :=
  readsFrom_of_reaches hrun hi hend x htask res rfl

end Readers

end Extension

end Sessions
