import Mathlib.Order.Defs.Unbundled
import LedgerApi.Library.Program

/-! # Reading while others write

A session that only reads issues *queries*: `answer s q` is what a query replies on the committed
rows `s`. Under READ COMMITTED every statement is answered on the rows committed at its moment, so
between two queries of a session the others may have committed.

* `Prog.answered` — what a program answers when all its queries meet the same rows.
* `Along` — what it answers while the others move the committed rows along a relation `R`.
* `Along.bind`, `along_bind_iff` — evaluation function by function.
* `LinearizableFrom` — the answer is one that the program gives on the rows of a single moment
  between its start and its end. It is so of a program with one query (`linearizableFrom_single`),
  and of one whose earlier queries are answered once and for all (`linearizableFrom_exec`).

A program is moved to a larger vocabulary by `Prog.translate`; its evaluation moves along
(`along_translate_iff`). -/

namespace Sessions

/-! ## Translation -/

/-- A vocabulary within another one. -/
structure Signature.Hom (S T : Signature) where
  /-- The statement that stands for one of `S`. -/
  stmt : S.Stmt → T.Stmt
  /-- Its reply, as one of `S`. -/
  reply : ∀ s, T.Reply (stmt s) → S.Reply s
  msg : S.Msg → T.Msg
  exn : S.Exn → T.Exn

namespace Prog

variable {S T : Signature} {α β γ : Type}

/-- A program in a larger vocabulary, with its result under `f`. -/
def translate (h : S.Hom T) (f : α → β) : Prog S α → Prog T β
  | ret a => ret (f a)
  | raise e => raise (h.exn e)
  | exec stmt next => exec (h.stmt stmt) fun r => translate h f (next (h.reply stmt r))
  | commit next => commit (translate h f next)
  | emit m next => emit (h.msg m) (translate h f next)

/-- Translation adds no commits. -/
theorem CommitsAtMost.translate {n : ℕ} {x : Prog S α} (hx : x.CommitsAtMost n) (h : S.Hom T)
    (f : α → β) : (x.translate h f).CommitsAtMost n := by
  induction x generalizing n with
  | ret a => exact trivial
  | raise e => exact trivial
  | exec stmt next ih => exact fun r => ih _ (hx _)
  | commit next ih =>
      cases n with
      | zero => exact hx.elim
      | succ n => exact ih hx
  | emit m next ih => exact ih hx

/-- The result of a program whose queries are all answered by one function. -/
def answered (answer : (q : S.Stmt) → S.Reply q) : Prog S α → Except S.Exn α
  | ret a => .ok a
  | raise e => .error e
  | exec q next => answered answer (next (answer q))
  | commit next => answered answer next
  | emit _ next => answered answer next

/-- The program ends at once. -/
inductive Ended : Prog S α → Prop
  | ret (a : α) : Ended (.ret a)
  | raise (e : S.Exn) : Ended (.raise e)

/-- A sequence is answered by its parts. -/
theorem answered_bind (answer : (q : S.Stmt) → S.Reply q) (x : Prog S α) (f : α → Prog S β) :
    (x >>= f).answered answer =
      match x.answered answer with
      | .ok a => (f a).answered answer
      | .error e => .error e := by
  induction x with
  | ret a => rfl
  | raise e => rfl
  | exec q next ih => exact ih (answer q)
  | commit next ih => exact ih
  | emit m next ih => exact ih

/-- A translated program answers what the program does. -/
theorem answered_translate (h : S.Hom T) (f : α → β) {answer : (q : S.Stmt) → S.Reply q}
    {answer' : (q : T.Stmt) → T.Reply q} (hanswer : ∀ q, h.reply q (answer' (h.stmt q)) = answer q)
    (x : Prog S α) :
    (x.translate h f).answered answer' = ((x.answered answer).map f).mapError h.exn := by
  induction x with
  | ret a => rfl
  | raise e => rfl
  | exec q next ih =>
      rw [translate, answered, hanswer, ih]
      rfl
  | commit next ih => exact ih
  | emit m next ih => exact ih

/-- What a program answers is what a store that answers alike runs it to. -/
theorem run_eq_answered {σ π ρ : Type} {D : Store S σ π ρ} {s : σ}
    {answer : (q : S.Stmt) → S.Reply q} (hD : ∀ p q, D.exec s p q = .ok (answer q, p))
    {x : Prog S α} (hx : x.CommitsAtMost 0) (p : π) :
    (D.eval x s p).result = x.answered answer := by
  induction x generalizing p with
  | ret a => rfl
  | raise e => rfl
  | exec q next ih =>
      rw [D.eval_exec_ok (hD p q)]
      exact ih (answer q) (hx _) p
  | commit next ih => exact hx.elim
  | emit m next ih => exact ih hx p

end Prog

/-! ## Evaluation along a changing store -/

section Along

variable {S T : Signature} {σ α β : Type}

/-- **Evaluation while others write**: before every query, and before the end, they move the
committed rows along `R`. -/
inductive Along (answer : σ → (q : S.Stmt) → S.Reply q) (R : σ → σ → Prop) :
    Prog S α → σ → Except S.Exn α → σ → Prop
  | ret {a : α} {s s' : σ} (h : R s s') : Along answer R (.ret a) s (.ok a) s'
  | raise {e : S.Exn} {s s' : σ} (h : R s s') : Along answer R (.raise e) s (.error e) s'
  | exec {q : S.Stmt} {next : S.Reply q → Prog S α} {s s₁ s' : σ} {res : Except S.Exn α}
      (h : R s s₁) (hrest : Along answer R (next (answer s₁ q)) s₁ res s') :
      Along answer R (.exec q next) s res s'

variable {answer : σ → (q : S.Stmt) → S.Reply q} {R R' : σ → σ → Prop} {s s₁ s' : σ}

theorem along_ret_iff {a : α} {res : Except S.Exn α} :
    Along answer R (.ret a) s res s' ↔ res = .ok a ∧ R s s' := by
  constructor
  · rintro ⟨h⟩
    exact ⟨rfl, ‹_›⟩
  · rintro ⟨rfl, h⟩
    exact .ret h

theorem along_raise_iff {e : S.Exn} {res : Except S.Exn α} :
    Along answer R (.raise e) s res s' ↔ res = .error e ∧ R s s' := by
  constructor
  · rintro ⟨h⟩
    exact ⟨rfl, ‹_›⟩
  · rintro ⟨rfl, h⟩
    exact .raise h

/-- A query is answered at some moment after the start. -/
theorem along_exec_iff {q : S.Stmt} {next : S.Reply q → Prog S α} {res : Except S.Exn α} :
    Along answer R (.exec q next) s res s' ↔
      ∃ s₁, R s s₁ ∧ Along answer R (next (answer s₁ q)) s₁ res s' := by
  constructor
  · intro h
    cases h with
    | exec h hrest => exact ⟨_, h, hrest⟩
  · rintro ⟨s₁, h, hrest⟩
    exact .exec h hrest

/-- What may happen before the start may happen after it. -/
theorem Along.left [IsTrans σ R] {x : Prog S α} {res : Except S.Exn α} (h : R s s₁)
    (hx : Along answer R x s₁ res s') : Along answer R x s res s' := by
  cases hx with
  | ret h' => exact .ret (IsTrans.trans _ _ _ h h')
  | raise h' => exact .raise (IsTrans.trans _ _ _ h h')
  | exec h' hrest => exact .exec (IsTrans.trans _ _ _ h h') hrest

/-- What may happen after the end may happen before it. -/
theorem Along.right [IsTrans σ R] {x : Prog S α} {res : Except S.Exn α}
    (hx : Along answer R x s res s₁) (h : R s₁ s') : Along answer R x s res s' := by
  induction hx with
  | ret h' => exact .ret (IsTrans.trans _ _ _ h' h)
  | raise h' => exact .raise (IsTrans.trans _ _ _ h' h)
  | exec h' _ ih => exact .exec h' (ih h)

/-- The rows have moved along `R` in the meantime. -/
theorem Along.rel [IsTrans σ R] {x : Prog S α} {res : Except S.Exn α}
    (hx : Along answer R x s res s') : R s s' := by
  induction hx with
  | ret h => exact h
  | raise h => exact h
  | exec h _ ih => exact IsTrans.trans _ _ _ h ih

/-- Others that may do more may do the same. -/
theorem Along.mono {x : Prog S α} {res : Except S.Exn α} (hx : Along answer R x s res s')
    (hR : ∀ a b, R a b → R' a b) : Along answer R' x s res s' := by
  induction hx with
  | ret h => exact .ret (hR _ _ h)
  | raise h => exact .raise (hR _ _ h)
  | exec h _ ih => exact .exec (hR _ _ h) ih

/-- A sequence is evaluated part by part. -/
theorem Along.bind [IsTrans σ R] {x : Prog S α} {f : α → Prog S β} {a : α}
    {res : Except S.Exn β} (hx : Along answer R x s (.ok a) s₁)
    (hf : Along answer R (f a) s₁ res s') : Along answer R (x >>= f) s res s' := by
  generalize hok : (.ok a : Except S.Exn α) = first at hx
  induction hx with
  | ret h =>
      obtain rfl := Except.ok.inj hok
      exact hf.left h
  | raise h => cases hok
  | exec h _ ih => exact .exec h (ih hf hok)

/-- **Evaluation along a changing store is compositional.** -/
theorem along_bind_iff [IsTrans σ R] [Std.Refl R] {x : Prog S α} {f : α → Prog S β}
    {res : Except S.Exn β} :
    Along answer R (x >>= f) s res s' ↔
      (∃ a s₁, Along answer R x s (.ok a) s₁ ∧ Along answer R (f a) s₁ res s') ∨
        ∃ e, res = .error e ∧ Along answer R x s (.error e) s' := by
  constructor
  · intro h
    induction x generalizing s with
    | ret a => exact Or.inl ⟨a, s, .ret (Std.Refl.refl s), h⟩
    | raise e =>
        rw [Prog.raise_bind, along_raise_iff] at h
        exact Or.inr ⟨e, h.1, .raise h.2⟩
    | exec q next ih =>
        rw [Prog.exec_bind, along_exec_iff] at h
        obtain ⟨s₁, h, hrest⟩ := h
        rcases ih _ hrest with ⟨a, s₂, hx, hf⟩ | ⟨e, hres, hx⟩
        · exact Or.inl ⟨a, s₂, .exec h hx, hf⟩
        · exact Or.inr ⟨e, hres, .exec h hx⟩
    -- a session that reads neither commits nor sends
    | commit next => cases h
    | emit m next => cases h
  · rintro (⟨a, s₁, hx, hf⟩ | ⟨e, rfl, hx⟩)
    · exact hx.bind hf
    · generalize herr : (.error e : Except S.Exn α) = first at hx
      induction hx with
      | ret h => cases herr
      | raise h =>
          obtain rfl := Except.error.inj herr
          exact .raise h
      | exec h _ ih => exact .exec h (ih herr)

/-- When nobody writes, a program is answered on the rows as they are. -/
theorem along_eq_iff {x : Prog S α} (hx : x.CommitsAtMost 0) [IsEmpty S.Msg]
    {res : Except S.Exn α} :
    Along answer Eq x s res s' ↔ s' = s ∧ res = x.answered (answer s) := by
  induction x generalizing s with
  | ret a =>
      rw [along_ret_iff, Prog.answered]
      exact ⟨fun h => ⟨h.2.symm, h.1⟩, fun h => ⟨h.2, h.1.symm⟩⟩
  | raise e =>
      rw [along_raise_iff, Prog.answered]
      exact ⟨fun h => ⟨h.2.symm, h.1⟩, fun h => ⟨h.2, h.1.symm⟩⟩
  | exec q next ih =>
      rw [along_exec_iff, Prog.answered]
      constructor
      · rintro ⟨s₁, rfl, hrest⟩
        exact (ih _ (hx _)).mp hrest
      · intro h
        exact ⟨s, rfl, (ih _ (hx _)).mpr h⟩
  | commit next => exact hx.elim
  | emit m next => exact isEmptyElim m

/-- So may it be while others could write. -/
theorem along_answered [Std.Refl R] {x : Prog S α} (hx : x.CommitsAtMost 0) [IsEmpty S.Msg]
    (s : σ) : Along answer R x s (x.answered (answer s)) s := by
  have hstill : Along answer Eq x s (x.answered (answer s)) s := (along_eq_iff hx).mpr ⟨rfl, rfl⟩
  refine hstill.mono ?_
  rintro a _ rfl
  exact Std.Refl.refl a

/-- **A translated program is evaluated as the program is**, when its queries are answered alike. -/
theorem along_translate_iff {h : S.Hom T} {f : α → β} {answer' : σ → (q : T.Stmt) → T.Reply q}
    (hanswer : ∀ s q, h.reply q (answer' s (h.stmt q)) = answer s q) {x : Prog S α}
    {res : Except T.Exn β} :
    Along answer' R (x.translate h f) s res s' ↔
      ∃ res₀, Along answer R x s res₀ s' ∧ res = (res₀.map f).mapError h.exn := by
  induction x generalizing s with
  | ret a =>
      simp only [Prog.translate, along_ret_iff]
      constructor
      · rintro ⟨rfl, hR⟩
        exact ⟨_, ⟨rfl, hR⟩, rfl⟩
      · rintro ⟨_, ⟨rfl, hR⟩, rfl⟩
        exact ⟨rfl, hR⟩
  | raise e =>
      simp only [Prog.translate, along_raise_iff]
      constructor
      · rintro ⟨rfl, hR⟩
        exact ⟨_, ⟨rfl, hR⟩, rfl⟩
      · rintro ⟨_, ⟨rfl, hR⟩, rfl⟩
        exact ⟨rfl, hR⟩
  | exec q next ih =>
      simp only [Prog.translate, along_exec_iff, hanswer, ih]
      constructor
      · rintro ⟨s₁, hR, res₀, hrest, rfl⟩
        exact ⟨res₀, ⟨s₁, hR, hrest⟩, rfl⟩
      · rintro ⟨res₀, ⟨s₁, hR, hrest⟩, rfl⟩
        exact ⟨s₁, hR, res₀, hrest, rfl⟩
  | commit next =>
      constructor
      · intro hcommit
        cases hcommit
      · rintro ⟨res₀, hcommit, -⟩
        cases hcommit
  | emit m next =>
      constructor
      · intro hemit
        cases hemit
      · rintro ⟨res₀, hemit, -⟩
        cases hemit

/-- What a translated program returns is a result under `f`. -/
theorem Along.exists_eq {h : S.Hom T} {f : α → β} {answer' : σ → (q : T.Stmt) → T.Reply q}
    {x : Prog S α} {b : β} (hx : Along answer' R (x.translate h f) s (.ok b) s') :
    ∃ a, b = f a := by
  induction x generalizing s with
  | ret a => exact ⟨a, Except.ok.inj (along_ret_iff.mp hx).1⟩
  | raise e => cases (along_raise_iff.mp hx).1
  | exec q next ih =>
      obtain ⟨s₁, -, hrest⟩ := along_exec_iff.mp hx
      exact ih _ hrest
  | commit next => cases hx
  | emit m next => cases hx

/-! ## Linearizable readers -/

/-- From `s` on, the program answers as it does on the rows of one moment between its start and its
end. -/
def LinearizableFrom (answer : σ → (q : S.Stmt) → S.Reply q) (R : σ → σ → Prop) (x : Prog S α)
    (s : σ) : Prop :=
  ∀ res s', Along answer R x s res s' →
    ∃ s₁, R s s₁ ∧ R s₁ s' ∧ res = x.answered (answer s₁)

/-- A program that ends at once answers alike at any moment. -/
theorem Along.ended {x : Prog S α} {res : Except S.Exn α} (h : Along answer R x s res s')
    (hx : x.Ended) : R s s' ∧ ∀ answered, res = x.answered answered := by
  cases hx with
  | ret a =>
      obtain ⟨rfl, hR⟩ := along_ret_iff.mp h
      exact ⟨hR, fun _ => rfl⟩
  | raise e =>
      obtain ⟨rfl, hR⟩ := along_raise_iff.mp h
      exact ⟨hR, fun _ => rfl⟩

theorem linearizableFrom_ended [Std.Refl R] {x : Prog S α} (hx : x.Ended) (s : σ) :
    LinearizableFrom answer R x s := by
  intro res s' h
  obtain ⟨hR, hres⟩ := h.ended hx
  exact ⟨s, Std.Refl.refl s, hR, hres _⟩

/-- **Rule for a query**: wherever it is answered, the program ends there, or the answer stays and
the rest of the program is linearizable. -/
theorem linearizableFrom_exec [IsTrans σ R] [Std.Refl R] {q : S.Stmt}
    {next : S.Reply q → Prog S α}
    (h : ∀ s₁, R s s₁ → (next (answer s₁ q)).Ended ∨
      (∀ s₂, R s₁ s₂ → answer s₂ q = answer s₁ q) ∧
        LinearizableFrom answer R (next (answer s₁ q)) s₁) :
    LinearizableFrom answer R (.exec q next) s := by
  intro res s' halong
  obtain ⟨s₁, hR, hrest⟩ := along_exec_iff.mp halong
  rcases h s₁ hR with hended | ⟨hstays, hnext⟩
  · -- then this is the moment
    exact ⟨s₁, hR, hrest.rel, (hrest.ended hended).2 (answer s₁)⟩
  · obtain ⟨s₂, h₁, h₂, hres⟩ := hnext _ _ hrest
    refine ⟨s₂, IsTrans.trans _ _ _ hR h₁, h₂, ?_⟩
    rw [hres, Prog.answered, hstays s₂ h₁]

/-- **A program of one query** is linearizable. -/
theorem linearizableFrom_single [IsTrans σ R] [Std.Refl R] {q : S.Stmt} (f : S.Reply q → α)
    (s : σ) : LinearizableFrom answer R (.exec q fun r => .ret (f r)) s :=
  linearizableFrom_exec fun _ _ => Or.inl (.ret _)

/-- A linearizable program stays so in a larger vocabulary. -/
theorem LinearizableFrom.translate {h : S.Hom T} {f : α → β}
    {answer' : σ → (q : T.Stmt) → T.Reply q}
    (hanswer : ∀ s q, h.reply q (answer' s (h.stmt q)) = answer s q) {x : Prog S α}
    (hx : LinearizableFrom answer R x s) : LinearizableFrom answer' R (x.translate h f) s := by
  intro res s' halong
  obtain ⟨res₀, hread, rfl⟩ := (along_translate_iff hanswer).mp halong
  obtain ⟨s₁, h₁, h₂, rfl⟩ := hx _ _ hread
  exact ⟨s₁, h₁, h₂, (Prog.answered_translate h f (hanswer s₁) x).symm⟩

end Along

end Sessions
