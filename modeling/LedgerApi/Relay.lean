import LedgerApi.Application

/-! # What relays do

A relay session reads a batch, hands its events to the transport one after the other, and marks in
one commit those that were accepted (`RelayAt`). Any number of relays and writers may run
interleaved, and any of them may be lost at any point; `RelayInvariant` is the rule for what holds
of all of them: what a reading, a message, a commit of marks and a commit of a writer keep. -/

namespace LedgerApi

open Sessions System

variable {H : HexHash} {db : Database}

/-! ## Pending events -/

theorem Database.mem_pendingEvents {e : OutboxEvent} :
    e ∈ db.pendingEvents ↔ e ∈ db.outboxEvents ∧ e.publishedAt = none := by
  rw [Database.pendingEvents, List.mem_insertionSort, List.mem_filter, decide_eq_true_eq]

/-- They are read oldest first. -/
theorem Database.pairwise_pendingEvents (db : Database) :
    db.pendingEvents.Pairwise fun e f => e.createdAt ≤ f.createdAt := by
  have htotal : Std.Total fun e f : OutboxEvent => e.createdAt ≤ f.createdAt :=
    ⟨fun e f => Int.le_total e.createdAt f.createdAt⟩
  have htrans : IsTrans OutboxEvent fun e f => e.createdAt ≤ f.createdAt :=
    ⟨fun _ _ _ => Int.le_trans⟩
  exact List.pairwise_insertionSort _ _

/-! ## A relay session -/

/-- The marks of the events that have been accepted. -/
def marksOf (now : UUID → Timestamp) (done : List OutboxEvent) : List (UUID × Timestamp) :=
  done.map fun e => (e.id, now e.id)

@[simp] theorem map_fst_marksOf (now : UUID → Timestamp) (done : List OutboxEvent) :
    (marksOf now done).map Prod.fst = done.map (·.id) := by
  rw [marksOf, List.map_map]
  rfl

/-- A commit makes the writes of a session visible. -/
theorem commit_postgres_store (g : Shared sql Database Request) (r : Request) (p : Writes) :
    (g.commit postgres r p).store = g.store.view p := rfl

/-- The end of a relay call, from the flush of its marks. -/
def finishPublish (size : ℕ) (marks : List (UUID × Timestamp)) : Prog sql Response := do
  execute (.updatePublishedAt marks)
  Prog.commitNow
  return .published ⟨marks.length, size - marks.length⟩

variable (H) in
/-- Where a relay session is. `I` relates the events of its batch that the transport has accepted
and those that it has yet to be handed. -/
inductive RelayAt (limit : ℕ) (accepts : Message → Bool) (now : UUID → Timestamp)
    (I : List OutboxEvent → List OutboxEvent → Prop) : Prog sql Response → Writes → Prop
  /-- It has not read its batch. -/
  | reading :
      RelayAt limit accepts now I ((Request.outboxPublish limit accepts now).program H) .blank
  /-- It is in the loop. -/
  | publishing {size : ℕ} {done rest : List OutboxEvent} (h : I done rest) :
      RelayAt limit accepts now I (publishEach accepts now rest >>= fun marks =>
        finishPublish size (marksOf now done ++ marks)) .blank
  /-- It has flushed its marks. -/
  | marking {result : Response} {done rest : List OutboxEvent} (h : I done rest) :
      RelayAt limit accepts now I (.commit (.ret result)) (markWrites (marksOf now done))
  /-- It has committed. -/
  | ended {result : Response} : RelayAt limit accepts now I (.ret result) .blank

/-- A relay call reads its batch and goes on with it. -/
theorem program_outboxPublish (limit : ℕ) (accepts : Message → Bool) (now : UUID → Timestamp) :
    (Request.outboxPublish limit accepts now).program H =
      .exec (.selectPendingEvents limit) fun events =>
        publishEach accepts now events >>= fun marks => finishPublish events.length marks := by
  refine congrArg (Prog.exec (S := sql) _) (funext fun events => ?_)
  show (publishEach accepts now events >>= fun marks => _) >>= _ = _
  rw [Prog.bind_assoc]
  rfl

/-- The loop hands the next event to the transport, or it ends. -/
theorem publishEach_bind (accepts : Message → Bool) (now : UUID → Timestamp)
    (done rest : List OutboxEvent) (size : ℕ) :
    (∃ e rest', rest = e :: rest' ∧ accepts e.message = true ∧
      (publishEach accepts now rest >>= fun marks =>
          finishPublish size (marksOf now done ++ marks)) =
        .emit e.message (publishEach accepts now rest' >>= fun marks =>
          finishPublish size (marksOf now (done ++ [e]) ++ marks))) ∨
      (publishEach accepts now rest >>= fun marks =>
          finishPublish size (marksOf now done ++ marks)) =
        finishPublish size (marksOf now done) := by
  have hend : ((.ret [] : Prog sql (List (UUID × Timestamp))) >>= fun marks =>
      finishPublish size (marksOf now done ++ marks)) = finishPublish size (marksOf now done) := by
    rw [Prog.ret_bind, List.append_nil]
  cases rest with
  | nil => exact Or.inr hend
  | cons e rest' =>
      rw [publishEach]
      split
      case isTrue haccepts =>
        refine Or.inl ⟨e, rest', rfl, haccepts, ?_⟩
        refine congrArg (Prog.emit (S := sql) e.message) ?_
        show (publishEach accepts now rest' >>= fun marks => _) >>= _ = _
        rw [Prog.bind_assoc]
        congr 1
        funext marks
        -- the mark of the event comes after those of the events before it
        rw [Prog.pure_eq, Prog.ret_bind, marksOf, marksOf, List.map_append, List.append_assoc]
        rfl
      case isFalse => exact Or.inr hend

/-! ## The rule -/

section Rule

variable {db₀ : Database} {w : World sql Database Writes Resource Request Response}

/-- The state of a session: relays are where `RelayAt` says. -/
def RelayState (H : HexHash)
    (I : Shared sql Database Request → List OutboxEvent → List OutboxEvent → Prop)
    (g : Shared sql Database Request) (r : Request) (prog : Prog sql Response) (p : Writes) :
    Prop :=
  ∀ limit accepts now, r = .outboxPublish limit accepts now →
    RelayAt H limit accepts now (I g) prog p

theorem RelayAt.mono {limit : ℕ} {accepts : Message → Bool} {now : UUID → Timestamp}
    {I I' : List OutboxEvent → List OutboxEvent → Prop} {prog : Prog sql Response} {p : Writes}
    (h : RelayAt H limit accepts now I prog p) (hI : ∀ done rest, I done rest → I' done rest) :
    RelayAt H limit accepts now I' prog p := by
  cases h with
  | reading => exact .reading
  | publishing h => exact .publishing (hI _ _ h)
  | marking h => exact .marking (hI _ _ h)
  | ended => exact .ended

/-- An invariant of the whole application: `G` of what is shared, and `I` of what is shared and the
batch of a relay. A relay that reads its batch establishes `I`; messages, commits of marks and
commits of writers keep both. -/
structure RelayInvariant (H : HexHash) (db₀ : Database)
    (adm : World sql Database Writes Resource Request Response → System.Action Request → Prop)
    (G : Shared sql Database Request → Prop)
    (I : Shared sql Database Request → List OutboxEvent → List OutboxEvent → Prop) : Prop where
  read : ∀ w i s limit next, (api H).Reachable (World.init db₀) w → adm w (.advance i) →
    w.Running i s → s.prog = .exec (.selectPendingEvents limit) next → G w.shared →
      I w.shared [] (w.shared.store.pendingEvents.take limit)
  emit : ∀ g done e rest, G g → I g done (e :: rest) →
    G (g.emit e.message) ∧ I (g.emit e.message) (done ++ [e]) rest ∧
      ∀ done' rest', I g done' rest' → I (g.emit e.message) done' rest'
  mark : ∀ w r done rest now, (api H).Reachable (World.init db₀) w → G w.shared →
    I w.shared done rest →
      G (w.shared.commit postgres r (markWrites (marksOf now done))) ∧
        ∀ done' rest', I w.shared done' rest' →
          I (w.shared.commit postgres r (markWrites (marksOf now done))) done' rest'
  commit : ∀ w i s next call written, (api H).Reachable (World.init db₀) w →
    adm w (.advance i) → w.Running i s → s.call = .call call → s.prog = .commit next →
    G w.shared → Commits H w.shared.store call written →
    w.shared.store.view s.pending = w.shared.store.view written →
      G (w.shared.commit postgres s.call s.pending) ∧
        ∀ done rest, I w.shared done rest →
          I (w.shared.commit postgres s.call s.pending) done rest

variable {adm : World sql Database Writes Resource Request Response → System.Action Request → Prop}
  {G : Shared sql Database Request → Prop}
  {I : Shared sql Database Request → List OutboxEvent → List OutboxEvent → Prop} {i : ℕ}
  {prog : Prog sql Response} {p : Writes} {held acquired : List (Lock Resource)}

theorem RelayState.mono {g g' : Shared sql Database Request}
    (hI : ∀ done rest, I g done rest → I g' done rest) (r : Request) (prog : Prog sql Response)
    (p : Writes) (h : RelayState H I g r prog p) : RelayState H I g' r prog p :=
  fun limit accepts now hr => (h limit accepts now hr).mono hI

theorem RelayState.of_relayAt {g : Shared sql Database Request} {limit : ℕ}
    {accepts : Message → Bool} {now : UUID → Timestamp}
    (h : RelayAt H limit accepts now (I g) prog p) :
    RelayState H I g (.outboxPublish limit accepts now) prog p := by
  rintro _ _ _ ⟨⟩
  exact h

/-- A writer keeps the invariant: it does so when it commits, and else it changes nothing. -/
theorem RelayInvariant.keeps_call (R : RelayInvariant H db₀ adm G I) {call : Call}
    (hw : (api H).Reaches adm (World.init db₀) w) (hadm : adm w (.advance i))
    (hs : w.Running i ⟨.call call, prog, p, held, acquired⟩) (hG : G w.shared) :
    (api H).Keeps G (RelayState H I) w.shared ⟨.call call, prog, p, held, acquired⟩ := by
  have hown : ∀ g' t, ((api H).advance w.shared ⟨.call call, prog, p, held, acquired⟩).2 =
      .running t → RelayState H I g' t.call t.prog t.pending := by
    intro g' t ht limit accepts now hr
    rw [(api H).advance_call ht] at hr
    cases hr
  cases prog with
  | ret a => exact ⟨hG, hown _, fun _ _ _ h => h⟩
  | raise e => exact ⟨hG, hown _, fun _ _ _ h => h⟩
  | exec stmt next =>
      have hshared := System.advance_exec (api H) w.shared
        ⟨.call call, .exec stmt next, p, held, acquired⟩ rfl
      constructor
      case shared => rwa [hshared]
      case own => exact hown _
      case others =>
        rw [hshared]
        exact fun _ _ _ h => h
  | commit next =>
      obtain ⟨written, hcommits, hview⟩ := commits_of_running hw.reachable hs rfl rfl
      obtain ⟨hG', hI⟩ :=
        R.commit w i _ next call written hw.reachable hadm hs rfl rfl hG hcommits hview
      exact ⟨hG', hown _, RelayState.mono hI⟩
  | emit m next => exact (not_emit_of_running hw.reachable hs rfl rfl).elim

/-- So does a relay, wherever it is. -/
theorem RelayInvariant.keeps_relay (R : RelayInvariant H db₀ adm G I) {limit : ℕ}
    {accepts : Message → Bool} {now : UUID → Timestamp}
    (hw : (api H).Reaches adm (World.init db₀) w) (hadm : adm w (.advance i))
    (hs : w.Running i ⟨.outboxPublish limit accepts now, prog, p, held, acquired⟩)
    (hG : G w.shared) (hstate : RelayAt H limit accepts now (I w.shared) prog p) :
    (api H).Keeps G (RelayState H I) w.shared
      ⟨.outboxPublish limit accepts now, prog, p, held, acquired⟩ := by
  cases hstate with
  | reading =>
      have hbatch := R.read w i _ limit _ hw.reachable hadm hs
        (program_outboxPublish (H := H) limit accepts now) hG
      rw [← Database.view_blank w.shared.store] at hbatch
      rw [program_outboxPublish]
      refine ⟨hG, ?_, fun _ _ _ h => h⟩
      rintro t ⟨⟩
      exact RelayState.of_relayAt (.publishing hbatch)
  | @publishing size done rest h =>
      rcases publishEach_bind accepts now done rest size with ⟨e, rest', rfl, -, hnext⟩ | hnext
      · rw [hnext]
        obtain ⟨hG', hI, hI'⟩ := R.emit _ done e rest' hG h
        refine ⟨hG', ?_, RelayState.mono hI'⟩
        rintro t ⟨⟩
        exact RelayState.of_relayAt (.publishing hI)
      -- the loop is over, or the transport has failed
      · rw [hnext]
        refine ⟨hG, ?_, fun _ _ _ h => h⟩
        rintro t ⟨⟩
        exact RelayState.of_relayAt (.marking h)
  | @marking result done rest h =>
      obtain ⟨hG', hI'⟩ := R.mark w (.outboxPublish limit accepts now) done rest now hw.reachable
        hG h
      refine ⟨hG', ?_, RelayState.mono hI'⟩
      rintro t ⟨⟩
      exact RelayState.of_relayAt .ended
  | ended =>
      refine ⟨hG, ?_, fun _ _ _ h => h⟩
      rintro t ⟨⟩

/-- **Rule** for the whole application: an invariant of it holds in every run. -/
theorem RelayInvariant.of_reaches (R : RelayInvariant H db₀ adm G I)
    (h : (api H).Reaches adm (World.init db₀) w) (hG : G ⟨db₀, [], []⟩) : G w.shared := by
  have hrule := h.local_invariant (J := RelayState H I) hG rfl ?_ ?_
  · exact hrule.1
  · rintro g r limit accepts now rfl
    exact .reading
  · rintro w i ⟨r, prog, p, held, acquired⟩ hw hadm hs hGw hJ
    cases r with
    | call call => exact R.keeps_call hw hadm hs hGw
    | outboxPublish limit accepts now =>
        exact R.keeps_relay hw hadm hs hGw (hJ limit accepts now rfl)

/-- **Rule** for the tables alone: what commits of writers and marks keep. -/
theorem api_store_invariant {Inv : Database → Prop}
    (h : (api H).Reachable (World.init db₀) w) (h₀ : Inv db₀)
    (hcommit : ∀ db call w, Inv db → Commits H db call w → Inv (db.view w))
    (hmark : ∀ db marks, Inv db → Inv (db.view (markWrites marks))) : Inv w.shared.store := by
  have R : RelayInvariant H db₀ (fun _ _ => True) (fun g => Inv g.store) fun _ _ _ => True := by
    constructor
    case read =>
      intro _ _ _ _ _ _ _ _ _ _
      trivial
    case emit => exact fun g done e rest hG _ => ⟨hG, trivial, fun _ _ _ => trivial⟩
    case mark => exact fun w r done rest now _ hG _ => ⟨hmark _ _ hG, fun _ _ _ => trivial⟩
    case commit =>
      intro w i s next call written _ _ _ _ _ hG hcall hview
      refine ⟨?_, fun _ _ _ => trivial⟩
      show Inv (w.shared.store.view s.pending)
      rw [hview]
      exact hcommit _ _ _ hG hcall
  exact R.of_reaches h h₀

end Rule

end LedgerApi
