import LedgerApi.Library.Outcomes
import LedgerApi.ServiceRuns

/-! # What answers are worth

Under any interleaving, with requests that fail, wait or are lost: the log is that of pairwise
different requests, each of which has committed once. Who is refused with an `HTTPException` has
left no trace, and who is answered with a row finds that row committed; a status `500`, or no answer
at all, leaves open whether the request has committed, for it may be the refresh after the commit
that failed, and if it has its row is there (`answers_tell`). Behind the endpoints what has been
acknowledged stays (`acknowledged_durable`). -/

namespace LedgerApi

open Sessions System

variable {H : HexHash} {db₀ : Database} {data : TransactionCreate} {gen : Generated}

/-! ## Programs -/

/-- What a request has left to do after its commit. -/
def Request.AfterCommit : Request → Prog sql Response → Prop
  | .call (.postAccount _ id _), prog =>
      prog = execute (.refreshAccount id) >>= fun account => .ret (.account account)
  | .call (.createTransaction _ gen), prog =>
      prog = execute (.refreshTransaction gen.transactionId) >>= fun row =>
        .ret (.transaction row.load)
  | .outboxPublish _ _ _, prog => ∃ result, prog = .ret (.published result)

/-- What a request may return without a commit. -/
def Request.Uncommitted : Request → Response → Prop
  | .call (.createTransaction _ _), _ => True
  | _, _ => False

/-- Where a request is that has not committed. -/
def BeforeCommit (request : Request) (prog : Prog sql Response) : Prop :=
  prog.Committing request.AfterCommit request.Uncommitted

/-- The branches record the transaction that was drawn. -/
theorem results_recordTransaction :
    (recordTransaction H data gen).Results fun result => result.1.id = gen.transactionId := by
  have hadd : ∀ debit credit, (addTransaction H data gen debit credit).Results
      fun result => result.1.id = gen.transactionId := fun _ _ _ => rfl
  unfold recordTransaction
  cases data.type with
  | deposit =>
      show (deposit H data gen).Results _
      unfold deposit
      cases data.accountId with
      | none => exact trivial
      | some accountId =>
          refine Prog.Results.bind (Prog.results_true _) fun clearing _ => ?_
          exact Prog.Results.bind (Prog.results_true _) fun _ _ => hadd _ _
  | withdrawal =>
      show (withdrawal H data gen).Results _
      unfold withdrawal
      cases data.accountId with
      | none => exact trivial
      | some accountId =>
          refine Prog.Results.bind (Prog.results_true _) fun clearing _ => ?_
          refine Prog.Results.bind (Prog.results_true _) fun _ _ => ?_
          refine Prog.Results.bind (Prog.results_true _) fun balance _ => ?_
          split
          · exact trivial
          · exact hadd _ _
  | transfer =>
      show (transfer H data gen).Results _
      unfold transfer
      split
      case h_2 => exact trivial
      case h_1 =>
        split
        · exact trivial
        · refine Prog.Results.bind (Prog.results_true _) fun _ _ => ?_
          refine Prog.Results.bind (Prog.results_true _) fun balance _ => ?_
          split
          · exact trivial
          · exact hadd _ _

/-- The relay's loop does not commit. -/
theorem commitsAtMost_publishEach (accepts : Message → Bool) (now : UUID → Timestamp)
    (events : List OutboxEvent) : (publishEach accepts now events).CommitsAtMost 0 := by
  induction events with
  | nil => exact trivial
  | cons event events ih =>
      rw [publishEach]
      split
      · exact ih.zero_bind fun marks => trivial
      · exact trivial

/-- `finish_transaction` ends with a refresh of its transaction. -/
theorem committing_finishTransaction {txn : Transaction Decimal} {entries : List LedgerEntry}
    {R : Transaction Decimal → Prop} : (finishTransaction H gen txn entries).Committing
      (· = execute (.refreshTransaction txn.id) >>= fun row => .ret row.load) R :=
  fun _ _ _ _ _ => rfl

/-- **Every request commits at most once**, and then it has its row to read back, if anything. -/
theorem committing_program (request : Request) : BeforeCommit request (request.program H) := by
  cases request with
  | call call =>
      cases call with
      | postAccount body id now =>
          show Prog.Committing _ _ (postAccount body id now >>= fun account => _)
          refine Prog.Committing.bind (A := (· = execute (.refreshAccount id)))
            (R := fun _ => False) ?_ ?_ fun _ h => h
          · intro existing
            cases existing with
            | some account => exact trivial
            | none => exact fun _ => rfl
          · rintro _ rfl
            rfl
      | createTransaction data gen =>
          show Prog.Committing _ _ (createTransaction H data gen >>= fun txn => _)
          refine Prog.Committing.bind
            (A := (· = execute (.refreshTransaction gen.transactionId) >>= fun row =>
              .ret row.load)) (R := fun _ => True) ?_ ?_ fun _ h => h
          · intro existing
            cases existing with
            | some row =>
                show Prog.Committing _ _ (replay H data row)
                unfold replay
                split <;> exact trivial
            | none =>
                show Prog.Committing _ _ (recordTransaction H data gen >>= fun result =>
                  finishTransaction H gen result.1 result.2)
                refine Prog.Committing.zero_bind commitsAtMost_recordTransaction
                  results_recordTransaction fun result hid => ?_
                rw [← hid]
                exact committing_finishTransaction
          · rintro _ rfl
            rfl
  | outboxPublish limit accepts now =>
      refine Prog.Committing.bind (A := fun next => ∃ result, next = .ret result)
        (R := fun _ => False) ?_ ?_ fun _ h => h
      · intro events
        show Prog.Committing _ _ (publishEach accepts now events >>= fun marks => _)
        refine Prog.Committing.zero_bind (commitsAtMost_publishEach accepts now events)
          (Prog.results_true _) fun marks _ => ?_
        exact fun _ => ⟨_, rfl⟩
      · rintro _ ⟨result, rfl⟩
        exact ⟨result, rfl⟩

/-! ## After the commit -/

variable {w w' : World sql Database Writes Resource Request Response}

variable (H) in
/-- What is known of a request that has committed: its row is there, and is read back. -/
def Told (g : Shared sql Database Request) : Request → Prog sql Response → Writes → Prop
  | .call (.postAccount data id now), prog, _ => postedAccount data id now ∈ g.store.accounts ∧
      (Request.AfterCommit (.call (.postAccount data id now)) prog ∨
        prog = .ret (.account (postedAccount data id now)))
  | .call (.createTransaction data gen), prog, p => p = .blank ∧
      ∃ row ∈ g.store.transactions, row.id = gen.transactionId ∧
        row.idempotencyKey = data.idempotencyKey ∧ row.requestHash = requestHash H data ∧
        (Request.AfterCommit (.call (.createTransaction data gen)) prog ∨
          prog = .ret (.transaction row.load))
  | .outboxPublish _ _ _, prog, _ => ∃ result, prog = .ret (.published result)

/-- A commit leaves it so. -/
theorem told_commit (h : (api H).Reachable (World.init db₀) w) {i : ℕ}
    {s : Session sql Writes Resource Request Response} (hs : w.Running i s)
    {next : Prog sql Response} (hprog : s.prog = .commit next) (hnext : s.call.AfterCommit next) :
    Told H (w.shared.commit (api H).toStore s.call s.pending) s.call next .blank := by
  cases hcall : s.call with
  | call call =>
      obtain ⟨written, hcommits, hview⟩ := commits_of_running h hs hcall hprog
      have hstore : (w.shared.commit (api H).toStore (.call call) s.pending).store =
          w.shared.store.view written := hview
      rw [hcall] at hnext
      cases hcommits with
      | @postAccount data id now =>
          refine ⟨?_, Or.inl hnext⟩
          rw [hstore]
          exact List.mem_append_right _ (.head _)
      | @createTransaction data gen post =>
          refine ⟨rfl, postedRow H w.shared.store data gen, ?_, rfl, rfl, rfl, Or.inl hnext⟩
          rw [hstore]
          exact List.mem_append_right _ (.head _)
  | outboxPublish limit accepts now =>
      rw [hcall] at hnext
      exact hnext

/-- Rows stay. -/
theorem told_step (h₀ : Reachable H db₀) (h : (api H).Reachable (World.init db₀) w)
    {a : System.Action Request} (hstep : (api H).step w a = some w') {request : Request}
    {prog : Prog sql Response} {p : Writes} (htold : Told H w.shared request prog p) :
    Told H w'.shared request prog p := by
  have hextends := extends_step SameEvent.refl OutboxEvent.unmarked_mark h₀ h hstep
  rcases request with (⟨data, id, now⟩ | ⟨data, gen⟩) | ⟨limit, accepts, now⟩
  · exact ⟨hextends.accounts.subset htold.1, htold.2⟩
  · obtain ⟨hp, row, hrow, hrest⟩ := htold
    exact ⟨hp, row, hextends.transactions.subset hrow, hrest⟩
  · exact htold

/-- The row is read back. -/
theorem told_advance (h₀ : Reachable H db₀) (h : (api H).Reachable (World.init db₀) w)
    {s : Session sql Writes Resource Request Response}
    (htold : Told H w.shared s.call s.prog s.pending)
    {B : Request → Prog sql Response → Prop} :
    ((api H).advance w.shared s).1.log = w.shared.log ∧
      Outcome B (Told H) ((api H).advance w.shared s).1 True ((api H).advance w.shared s).2 := by
  have hkeys := (consistent_of_api h₀ h).keys
  obtain ⟨call, prog, p, held, acquired⟩ := s
  rcases call with (⟨data, id, now⟩ | ⟨data, gen⟩) | ⟨limit, accepts, now⟩
  · obtain ⟨hmem, rfl | rfl⟩ := htold
    · have hfound : w.shared.store.accountById id = some (postedAccount data id now) :=
        Database.accountById_of_mem hkeys hmem
      have hexec : (api H).exec w.shared.store p (.refreshAccount id) =
          .ok (postedAccount data id now, p) := by
        refine (exec_of_free rfl).trans ?_
        rw [perform, Database.accountById, Database.view_accounts, List.find?_append,
          ← Database.accountById, hfound]
        rfl
      have hadvance : (api H).advance w.shared ⟨.call (.postAccount data id now),
          execute (.refreshAccount id) >>= fun account => .ret (.account account), p, held,
          acquired⟩ = (w.shared, .running ⟨.call (.postAccount data id now),
            .ret (.account (postedAccount data id now)), p, held ++ acquired, []⟩) :=
        advance_exec_ok rfl hexec rfl
      rw [hadvance]
      exact ⟨rfl, Or.inr ⟨trivial, hmem, Or.inr rfl⟩⟩
    · exact ⟨rfl, Or.inr ⟨trivial, p, hmem, Or.inr rfl⟩⟩
  · obtain ⟨rfl, row, hmem, hid, hkey, hhash, rfl | rfl⟩ := htold
    · have hfound : w.shared.store.transactions.find? (·.id = gen.transactionId) = some row := by
        rw [← hid]
        exact Grouping.find?_eq_some (Database.nodup_transactionIds hkeys) hmem
      have hexec : (api H).exec w.shared.store .blank (.refreshTransaction gen.transactionId) =
          .ok (row, .blank) := by
        refine (exec_of_free rfl).trans ?_
        rw [perform, Database.view_blank, hfound]
      have hadvance : (api H).advance w.shared ⟨.call (.createTransaction data gen),
          execute (.refreshTransaction gen.transactionId) >>= fun row =>
            .ret (.transaction row.load), .blank, held, acquired⟩ =
          (w.shared, .running ⟨.call (.createTransaction data gen), .ret (.transaction row.load),
            .blank, held ++ acquired, []⟩) :=
        advance_exec_ok rfl hexec rfl
      rw [hadvance]
      exact ⟨rfl, Or.inr ⟨trivial, rfl, row, hmem, hid, hkey, hhash, Or.inr rfl⟩⟩
    · exact ⟨rfl, Or.inr ⟨trivial, .blank, rfl, row, hmem, hid, hkey, hhash, Or.inr rfl⟩⟩
  · obtain ⟨result, rfl⟩ := htold
    exact ⟨rfl, Or.inr ⟨trivial, p, result, rfl⟩⟩

/-! ## Answers -/

/-- **What a session does tells whether it has committed**, under every interleaving. -/
theorem outcomes_of_api (h₀ : Reachable H db₀) (h : (api H).Reachable (World.init db₀) w) :
    ∃ who, Outcomes BeforeCommit (Told H) w who := by
  apply h.outcomes
  case hstart => exact committing_program
  case hexec => exact fun _ _ _ r hB => hB r
  case hemit => exact fun _ _ _ hB => hB
  case hraise => exact fun _ _ => trivial
  case hcommit =>
    intro w i s next hw hs hprog hB
    rw [hprog] at hB
    exact told_commit hw hs hprog hB
  case hafter => exact fun w i s hw hs htold => told_advance h₀ hw htold
  case hstays => exact fun w w' a request prog p hw hstep => told_step h₀ hw hstep

/-- A transaction that has been answered is committed, under the key of the request and for the same
parameters. -/
theorem committed_of_returned (h₀ : Reachable H db₀) (h : (api H).Reachable (World.init db₀) w)
    {i : ℕ} {answer : Response}
    (hend : w.slots[i]? = some (.finished (.call (.createTransaction data gen))
      (.returned answer))) :
    ∃ row ∈ w.shared.store.transactions, answer = .transaction row.load ∧
      row.idempotencyKey = data.idempotencyKey ∧ row.requestHash = requestHash H data := by
  let K (g : Shared sql Database Request) (request : Request) (answer : Response) : Prop :=
    ∀ data gen, request = .call (.createTransaction data gen) →
      ∃ row ∈ g.store.transactions, answer = .transaction row.load ∧
        row.idempotencyKey = data.idempotencyKey ∧ row.requestHash = requestHash H data
  refine h.returned (K := K) ?_ ?_ i _ answer hend data gen rfl
  · intro w i s a hw hs hprog data gen hcall
    obtain ⟨w', hw', hshadows⟩ := (hideRelay H).exists_shadow SameRows.refl hw
    have hvisible : (hideRelay H).visible s.call = some (.createTransaction data gen) := by
      rw [hcall]
      rfl
    obtain ⟨hs', -, -⟩ := hshadows.running hs hvisible
    have halike : SameRows w.shared.store w'.shared.store := hshadows.alike
    obtain ⟨txn, rfl, row, hrow, hkey, hhash, rfl⟩ := (sound_of_ledger hw').returned hs' hprog
    exact ⟨row, halike.transactions ▸ hrow, rfl, hkey, hhash⟩
  · intro w w' a request answer hw hstep hK data gen hcall
    obtain ⟨row, hrow, hrest⟩ := hK data gen hcall
    have hextends := extends_step SameEvent.refl OutboxEvent.unmarked_mark h₀ hw hstep
    exact ⟨row, hextends.transactions.subset hrow, hrest⟩

/-- What a client is answered. -/
inductive ClientAnswer
  | response (response : Response)
  /-- The status of an `HTTPException`. -/
  | error (statusCode : ℕ) (detail : String)
  /-- `500`, for any other exception. -/
  | internalServerError
  /-- The client sees its connection break. -/
  | nothing

/-- What a client may be answered when its session has ended so. When the server lives, what a
session is lost by is an exception, of the connection to the database for one, which may come after
the commit: at its acknowledgement or at the refresh. -/
inductive Tells : Verdict sql Response → ClientAnswer → Prop
  | returned (response : Response) : Tells (.returned response) (.response response)
  | http (statusCode : ℕ) (detail : String) :
      Tells (.raised (.http statusCode detail)) (.error statusCode detail)
  | raised {e : Exn} (he : ∀ statusCode detail, e ≠ .http statusCode detail) :
      Tells (.raised e) .internalServerError
  | lost : Tells .lost .internalServerError
  | silent : Tells .lost .nothing

/-- The client of a slot may have been given an answer. -/
def Answered (w : World sql Database Writes Resource Request Response) (i : ℕ) (request : Request)
    (answer : ClientAnswer) : Prop :=
  ∃ verdict, w.slots[i]? = some (.finished request verdict) ∧ Tells verdict answer

/-- What a request has committed is there. -/
def Request.Done (H : HexHash) (db : Database) : Request → Prop
  | .call (.postAccount data id now) => postedAccount data id now ∈ db.accounts
  | .call (.createTransaction data gen) => ∃ row ∈ db.transactions, row.id = gen.transactionId ∧
      row.idempotencyKey = data.idempotencyKey ∧ row.requestHash = requestHash H data
  | .outboxPublish _ _ _ => True

/-- It is what is known of a request that has committed. -/
theorem Told.done {g : Shared sql Database Request} {request : Request} {prog : Prog sql Response}
    {p : Writes} (h : Told H g request prog p) : request.Done H g.store := by
  rcases request with (⟨data, id, now⟩ | ⟨data, gen⟩) | ⟨limit, accepts, now⟩
  · exact h.1
  · obtain ⟨-, row, hrow, hid, hkey, hhash, -⟩ := h
    exact ⟨row, hrow, hid, hkey, hhash⟩
  · exact trivial

/-- What answers tell, when `who` are the slots that have committed. -/
structure AnswersTell (H : HexHash) (w : World sql Database Writes Resource Request Response)
    (who : List ℕ) : Prop where
  /-- No request commits twice. -/
  nodup : who.Nodup
  /-- The log is theirs. -/
  log : w.shared.log.map some = who.map fun i => (w.slots[i]?).map Slot.call
  /-- What the handler raises, or the server for a broken constraint, comes before the commit. -/
  raised : ∀ (i : ℕ) request e, w.slots[i]? = some (.finished request (.raised e)) → i ∉ who
  /-- Who is answered with an `HTTPException` has not committed. -/
  error : ∀ (i : ℕ) request statusCode detail,
    Answered w i request (.error statusCode detail) → i ∉ who
  /-- Who is answered otherwise than with a response may have, and if so what it has committed is
  there. -/
  unknown : ∀ (i : ℕ) request answer, Answered w i request answer → i ∈ who →
    request.Done H w.shared.store
  /-- Who is answered with an account has, and the account is there. -/
  account : ∀ (i : ℕ) data id now answer,
    Answered w i (.call (.postAccount data id now)) (.response answer) →
      i ∈ who ∧ answer = .account (postedAccount data id now) ∧
        postedAccount data id now ∈ w.shared.store.accounts
  /-- Who is answered with a transaction has, or the transaction was there already. -/
  transaction : ∀ (i : ℕ) data gen answer,
    Answered w i (.call (.createTransaction data gen)) (.response answer) →
      ∃ row ∈ w.shared.store.transactions, answer = .transaction row.load ∧
        row.idempotencyKey = data.idempotencyKey ∧ row.requestHash = requestHash H data ∧
        (i ∈ who → row.id = gen.transactionId)
  /-- A relay that answers has committed its marks. -/
  published : ∀ (i : ℕ) limit accepts now answer,
    Answered w i (.outboxPublish limit accepts now) (.response answer) →
      i ∈ who ∧ ∃ result, answer = .published result

/-- **Answers tell what has happened**, under every interleaving. -/
theorem answers_tell (h₀ : Reachable H db₀) (h : (api H).Reachable (World.init db₀) w) :
    ∃ who, AnswersTell H w who := by
  obtain ⟨who, hwho⟩ := outcomes_of_api h₀ h
  refine ⟨who, hwho.nodup, hwho.log, fun i request e hslot => hwho.slots i _ hslot, ?_, ?_, ?_, ?_,
    ?_⟩
  · rintro i request statusCode detail ⟨verdict, hslot, ⟨⟩⟩
    exact hwho.slots i _ hslot
  · rintro i request answer ⟨verdict, hslot, -⟩ hi
    cases verdict with
    | returned response =>
        rcases hwho.slots i _ hslot with ⟨hnot, -⟩ | ⟨-, p, htold⟩
        · exact absurd hi hnot
        · exact htold.done
    | raised e => exact absurd hi (hwho.slots i _ hslot)
    | lost =>
        obtain ⟨prog, p, htold⟩ := hwho.slots i _ hslot hi
        exact htold.done
  · rintro i data id now answer ⟨verdict, hslot, ⟨⟩⟩
    rcases hwho.slots i _ hslot with ⟨-, hB⟩ | ⟨hi, p, hmem, hrefresh | hret⟩
    · exact hB.elim
    · cases hrefresh
    · exact ⟨hi, Prog.ret.inj hret, hmem⟩
  · rintro i data gen answer ⟨verdict, hslot, ⟨⟩⟩
    obtain ⟨row, hrow, rfl, hkey, hhash⟩ := committed_of_returned h₀ h hslot
    refine ⟨row, hrow, rfl, hkey, hhash, fun hi => ?_⟩
    rcases hwho.slots i _ hslot with ⟨hnot, -⟩ | ⟨-, p, -, row', -, hid, -, -, hrefresh | hret⟩
    · exact absurd hi hnot
    · cases hrefresh
    · have hload := Response.transaction.inj (Prog.ret.inj hret)
      rw [Transaction.load_injective hload]
      exact hid
  · rintro i limit accepts now answer ⟨verdict, hslot, ⟨⟩⟩
    rcases hwho.slots i _ hslot with ⟨-, hB⟩ | ⟨hi, p, result, hret⟩
    · exact hB.elim
    · exact ⟨hi, result, Prog.ret.inj hret⟩

/-- Two copies of a deposit look up their key before either commits. -/
def overtakenDeposits : Option (World sql Database Writes Resource Request Response) :=
  (api sha256).run (fun _ _ => True) sampleDatabase
    [.call (.createTransaction sampleDeposit (sampleGenerated 1)),
      .call (.createTransaction sampleDeposit (sampleGenerated 2))]
    ([0, 1] ++ List.replicate 13 0 ++ List.replicate 5 1)

/-- The second copy violates the unique index. -/
theorem overtakenDeposits_outcome :
    (overtakenDeposits.map fun w => match w.slots[1]? with
      | some (.finished _ (.raised (.uniqueViolation _))) => true
      | _ => false) = some true := by
  decide +kernel

/-- A deposit whose session is lost at the refresh, after its commit. -/
def lostDeposit : Option (World sql Database Writes Resource Request Response) :=
  ((api sha256).run (fun _ _ => True) sampleDatabase
    [.call (.createTransaction sampleDeposit (sampleGenerated 1))] (List.replicate 12 0)).bind
    fun w => (api sha256).step w (.fault 0)

theorem lostDeposit_outcome :
    (lostDeposit.map fun w => match w.slots with
      | [.finished _ .lost] => w.shared.log.length
      | _ => 0) = some 1 := by
  decide +kernel

/-- The state is that of a run. -/
theorem reachable_lostDeposit {w : World sql Database Writes Resource Request Response}
    (h : lostDeposit = some w) : (api sha256).Reachable (World.init sampleDatabase) w := by
  obtain ⟨v, hrun, hstep⟩ := Option.bind_eq_some_iff.mp h
  exact (Reaches.of_run hrun).reachable.step trivial hstep

/-- Of two deposits that are answered with `500` one has left no trace, and the other has been
recorded. -/
theorem answers_tell_internalServerErrors :
    (∃ w who request, overtakenDeposits = some w ∧ AnswersTell sha256 w who ∧
        Answered w 1 request .internalServerError ∧ 1 ∉ who) ∧
      ∃ w who request, lostDeposit = some w ∧ AnswersTell sha256 w who ∧
        Answered w 0 request .internalServerError ∧ 0 ∈ who := by
  constructor
  · obtain ⟨w, hw, houtcome⟩ := Option.map_eq_some_iff.mp overtakenDeposits_outcome
    obtain ⟨who, hwho⟩ :=
      answers_tell (.initial initial_sampleDatabase) (Reaches.of_run hw).reachable
    split at houtcome
    case h_2 => cases houtcome
    case h_1 request key hslot =>
      exact ⟨w, who, request, hw, hwho, ⟨_, hslot, .raised nofun⟩, hwho.raised 1 request _ hslot⟩
  · obtain ⟨w, hw, houtcome⟩ := Option.map_eq_some_iff.mp lostDeposit_outcome
    obtain ⟨who, hwho⟩ := answers_tell (.initial initial_sampleDatabase) (reachable_lostDeposit hw)
    split at houtcome
    case h_2 => cases houtcome
    case h_1 request hslots =>
      have hslot : w.slots[0]? = some (.finished request .lost) := by rw [hslots]; rfl
      refine ⟨w, who, request, hw, hwho, ⟨_, hslot, .lost⟩, ?_⟩
      -- something has committed, and there is one slot
      obtain ⟨c, hc⟩ : ∃ c, c ∈ w.shared.log := List.exists_mem_of_length_pos (by omega)
      have hmem : some c ∈ who.map fun i => (w.slots[i]?).map Slot.call :=
        hwho.log ▸ List.mem_map_of_mem hc
      obtain ⟨i, hi, hcall⟩ := List.mem_map.mp hmem
      obtain ⟨slot, hsome, -⟩ := Option.map_eq_some_iff.mp hcall
      have hlt := (List.getElem?_eq_some_iff.mp hsome).1
      rw [hslots, List.length_singleton, Nat.lt_one_iff] at hlt
      exact hlt ▸ hi

/-! ## Behind the endpoints -/

/-- **What has been acknowledged stays**: a transaction that was answered is in the tables from then
on, linked into the chain and with both of its entries. -/
theorem acknowledged_durable {D : Deployment} {w w' : ServiceWorld} {i : ℕ} {r : HttpRequest}
    {txn : Transaction Decimal} (h₀ : Reachable D.H db₀)
    (h : D.service.Reachable (World.init db₀) w)
    (hend : w.slots[i]? = some (.finished r (.returned (.transaction txn))))
    (h' : D.service.Reachable w w') :
    ∃ data gen row, r.endpoint = .postTransaction data gen ∧ row ∈ w'.store.transactions ∧
      txn = row.load ∧ row.idempotencyKey = data.idempotencyKey ∧
      row.requestHash = requestHash D.H data ∧ row ∈ w'.store.chain ∧
      (w'.store.entriesOf row.id).map (·.amount) = [-row.amount, row.amount] := by
  have htask := D.task_of_ok (authorize_of_returned h hend)
  have hend : w.slots[i]? = some (.finished r (Store.verdict (.ok (.transaction txn)))) := hend
  rcases D.task_cases r with ⟨x, hread, -⟩ | ⟨request, hwrite, hwriter⟩
  · have halong := Extension.along (X := D.extension) h (Nat.zero_le i) hend hread
    rw [htask] at hread
    have hgives := gives_of_along hread halong
    cases hendpoint : r.endpoint <;> rw [hendpoint] at hgives <;> exact hgives.elim
  · obtain ⟨v, hv, hshadows⟩ := Extension.exists_shadow h
    obtain ⟨res', hslot, hres⟩ := hshadows.answered (D.task_of_writer hwriter) hend
    obtain ⟨who, hwho⟩ := outcomes_of_api h₀ hv
    cases res' with
    | error e => cases hres
    | ok response =>
        rw [htask] at hwrite
        have hresponse : response = .transaction txn := by
          cases response <;> cases hres
          rfl
        subst hresponse
        rcases request with (⟨data, id, now⟩ | ⟨data, gen⟩) | ⟨limit, accepts, now⟩
        · rcases hwho.slots i _ hslot with ⟨-, hB⟩ | ⟨-, -, -, hrefresh | hret⟩
          · exact hB.elim
          · cases hrefresh
          · cases hret
        · obtain ⟨row, hrow, hload, hkey, hhash⟩ := committed_of_returned h₀ hv hslot
          rw [hshadows.store] at hrow
          have hmoments := moments_of_service h₀ h
          have hlater := (hmoments.later h').consistent
          have hrow' := (hmoments.extends h').transactions.subset hrow
          refine ⟨data, gen, row, ?_, hrow', Response.transaction.inj hload, hkey, hhash, ?_,
            hlater.entries row hrow'⟩
          · cases hendpoint : r.endpoint <;> rw [hendpoint] at hwrite <;> cases hwrite
            rfl
          · rw [hlater.chain_eq]
            exact hrow'
        · rcases hwho.slots i _ hslot with ⟨-, hB⟩ | ⟨-, -, result, hret⟩
          · exact hB.elim
          · cases hret

/-- A deposit that is answered. -/
theorem lateReadsRun_deposit :
    (lateReadsRun.bind fun w => ((w.slots[0]?).bind Slot.answer).bind fun answer =>
      match answer with
      | .transaction txn => some txn.idempotencyKey
      | _ => none) = some "deposit-1" := by
  decide +kernel

/-- The deposit stays. -/
theorem acknowledged_durable_lateReadsRun :
    ∃ (w : ServiceWorld) (data : TransactionCreate) (gen : Generated) (row : Transaction ℤ)
      (txn : Transaction Decimal),
      lateReadsRun = some w ∧ Endpoint.postTransaction sampleDeposit (sampleGenerated 1) =
        .postTransaction data gen ∧ row ∈ w.store.transactions ∧ txn = row.load ∧
      row.idempotencyKey = data.idempotencyKey ∧
      row.requestHash = requestHash sha256 data ∧ row ∈ w.store.chain ∧
      (w.store.entriesOf row.id).map (·.amount) = [-row.amount, row.amount] := by
  obtain ⟨w, hw, houtcome⟩ := Option.bind_eq_some_iff.mp lateReadsRun_deposit
  obtain ⟨answer, hanswer, htxn⟩ := Option.bind_eq_some_iff.mp houtcome
  have hend := finished_of_answer (congrArg (·[0]?) (calls_of_run hw)) hanswer
  cases answer with
  | transaction txn =>
      obtain ⟨data, gen, row, h⟩ := acknowledged_durable (.initial initial_sampleDatabase)
        (Reaches.of_run hw).reachable hend .refl
      exact ⟨w, data, gen, row, txn, hw, h⟩
  | _ => cases htxn

end LedgerApi
