import LedgerApi.AppendOnly

/-! # How the committed rows move

Whatever requests run, the committed rows only grow (`Grows`): by the commits of writers, and by the
marks of relays. Every run of the application moves them so (`grows_of_api`). Consistent tables stay
consistent as they grow, and what a session has found in them it finds again later: accounts,
transactions, entries and their sums change by additions only. -/

namespace LedgerApi

open Sessions System

variable {H : HexHash} {db db' db₀ : Database}

/-- **Growth**: any number of commits. -/
def Grows (H : HexHash) : Database → Database → Prop := Relation.ReflTransGen (GrowsBy H)

instance : Std.Refl (Grows H) := ⟨fun _ => .refl⟩

instance : IsTrans Database (Grows H) := ⟨fun _ _ _ => .trans⟩

/-- **Rule**: what every commit keeps is kept. -/
theorem Grows.invariant {Inv : Database → Prop} (h : Grows H db db') (hdb : Inv db)
    (hcommit : ∀ db call w, Inv db → Commits H db call w → Inv (db.view w))
    (hmark : ∀ db marks, Inv db → Inv (db.view (markWrites marks))) : Inv db' := by
  induction h with
  | refl => exact hdb
  | tail _ hstep ih =>
      cases hstep with
      | commit hcall => exact hcommit _ _ _ ih hcall
      | mark marks => exact hmark _ marks ih

/-- Consistent tables stay consistent. -/
theorem Grows.consistent (h : Grows H db db') (hdb : Consistent H db) : Consistent H db' :=
  h.invariant hdb (fun _ _ _ hdb hcall => hdb.commit hcall) fun _ marks hdb => hdb.mark marks

/-- Every row stays at its place. -/
theorem Grows.extends (h : Grows H db db') (hdb : Consistent H db) :
    Extends SameEvent db db' := by
  have hboth : Consistent H db' ∧ Extends SameEvent db db' := by
    have hstart : Consistent H db ∧ Extends SameEvent db db := ⟨hdb, .refl SameEvent.refl db⟩
    apply h.invariant hstart
    · rintro db₁ call w ⟨h₁, hextends⟩ hcall
      have h₂ := h₁.commit hcall
      refine ⟨h₂, hextends.trans (fun _ _ _ hsame hsame' => hsame'.trans hsame) ?_⟩
      exact (GrowsBy.commit hcall).extends h₁ OutboxEvent.unmarked_mark
    · rintro db₁ marks ⟨h₁, hextends⟩
      have h₂ := h₁.mark marks
      refine ⟨h₂, hextends.trans (fun _ _ _ hsame hsame' => hsame'.trans hsame) ?_⟩
      exact (GrowsBy.mark marks).extends h₁ OutboxEvent.unmarked_mark
  exact hboth.2

/-! ## What is found again -/

/-- A row found in a table is found in a longer one. -/
theorem find?_of_prefix {Row : Type} {rows rows' : List Row} {p : Row → Bool} {row : Row}
    (h : rows <+: rows') (hrow : rows.find? p = some row) : rows'.find? p = some row := by
  obtain ⟨more, rfl⟩ := h
  rw [List.find?_append, hrow, Option.some_or]

/-- An account stays. -/
theorem Grows.accountById (h : Grows H db db') (hdb : Consistent H db) {id : UUID} {a : Account}
    (ha : db.accountById id = some a) : db'.accountById id = some a :=
  find?_of_prefix (h.extends hdb).accounts ha

/-- A transaction stays. -/
theorem Grows.transactionById (h : Grows H db db') (hdb : Consistent H db) {id : UUID}
    {t : Transaction ℤ} (ht : db.transactions.find? (·.id = id) = some t) :
    db'.transactions.find? (·.id = id) = some t :=
  find?_of_prefix (h.extends hdb).transactions ht

/-- An entry stays. -/
theorem Grows.entryById (h : Grows H db db') (hdb : Consistent H db) {id : UUID} {e : LedgerEntry}
    (he : db.ledgerEntries.find? (·.id = id) = some e) :
    db'.ledgerEntries.find? (·.id = id) = some e :=
  find?_of_prefix (h.extends hdb).ledgerEntries he

/-- As many transactions are the same transactions. -/
theorem Grows.transactions_eq (h : Grows H db db') (hdb : Consistent H db)
    (hlength : db'.transactions.length = db.transactions.length) :
    db'.transactions = db.transactions :=
  ((h.extends hdb).transactions.eq_of_length hlength.symm).symm

/-! ## Moments -/

/-- The moments of a run from `a` on, ordered by `R`, with the committed rows of each: at first they
are consistent, and they grow from one moment to the next. -/
structure Moments (H : HexHash) {σ : Type} (rows : σ → Database) (R : σ → σ → Prop) (a : σ) :
    Prop where
  consistent : Consistent H (rows a)
  grows : ∀ b c, R a b → R b c → Grows H (rows b) (rows c)

section Moments

variable {σ : Type} {rows : σ → Database} {R : σ → σ → Prop} {a b : σ}

/-- Rows that grow are their own moments. -/
theorem Consistent.moments (h : Consistent H db) : Moments H id (Grows H) db :=
  ⟨h, fun _ _ _ h => h⟩

variable [Std.Refl R]

/-- The rows of a later moment. -/
theorem Moments.grows_to (h : Moments H rows R a) (hab : R a b) : Grows H (rows a) (rows b) :=
  h.grows a b (Std.Refl.refl a) hab

/-- The moments from a later one on. -/
theorem Moments.later [IsTrans σ R] (h : Moments H rows R a) (hab : R a b) : Moments H rows R b :=
  ⟨(h.grows_to hab).consistent h.consistent,
    fun c d hbc => h.grows c d (IsTrans.trans _ _ _ hab hbc)⟩

/-- Every row stays at its place. -/
theorem Moments.extends (h : Moments H rows R a) (hab : R a b) :
    Extends SameEvent (rows a) (rows b) := (h.grows_to hab).extends h.consistent

end Moments

/-! ## Runs -/

section Runs

variable {w w' : World sql Database Writes Resource Request Response}

/-- A step of the application moves the rows by growth. -/
theorem grows_of_step (h : (api H).Reachable (World.init db₀) w) {a : System.Action Request}
    (hstep : (api H).step w a = some w') : Grows H w.shared.store w'.shared.store := by
  rcases growsBy_of_step h hstep with hsame | hgrows
  · rw [hsame]
    exact .refl
  · exact .single hgrows

/-- **So does every run.** -/
theorem grows_of_api (h : (api H).Reachable (World.init db₀) w)
    (h' : (api H).Reachable w w') : Grows H w.shared.store w'.shared.store := by
  induction h' with
  | refl => exact .refl
  | step hreach _ hstep ih => exact ih.trans (grows_of_step (h.trans hreach) hstep)

end Runs

end LedgerApi
