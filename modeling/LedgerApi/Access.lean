import LedgerApi.ServiceRuns

/-! # Who may do what

Access control over whole runs of the service. Every row of the tables is one that a committed
request writes (`WrittenBy`), and that request was admitted, so its token names a user with a role
that may do this (`every_row_requested`). Signatures enter as a condition on the requests that
arrive: a token that is accepted has been answered to a login (`Deployment.Unforged`). Then whoever
is admitted has logged in, with a password that their hash accepts, within the hour
(`answered_after_login`), and all that is recorded goes back to such logins
(`recorded_after_login`). -/

namespace LedgerApi

open Sessions System

variable {H : HexHash} {db db₀ : Database}

/-! ## Rows and their requests -/

/-- Every row of the tables was there at first, or is one that a request of the kind `P` writes. -/
structure WrittenBy (H : HexHash) (P : Request → Prop) (db₀ db : Database) : Prop where
  accounts : ∀ a ∈ db.accounts, a ∈ db₀.accounts ∨
    (∃ data id now, P (.call (.postAccount data id now)) ∧ a = postedAccount data id now) ∨
    ∃ data gen, P (.call (.createTransaction data gen)) ∧ a = newClearingAccount gen
  transactions : ∀ t ∈ db.transactions, t ∈ db₀.transactions ∨
    ∃ data gen before, P (.call (.createTransaction data gen)) ∧ t = postedRow H before data gen
  ledgerEntries : ∀ e ∈ db.ledgerEntries, e ∈ db₀.ledgerEntries ∨
    ∃ data gen debit credit, P (.call (.createTransaction data gen)) ∧
      e ∈ newEntries data gen debit credit
  outboxEvents : ∀ e ∈ db.outboxEvents, e.unmarked ∈ db₀.outboxEvents.map (·.unmarked) ∨
    ∃ data gen before, P (.call (.createTransaction data gen)) ∧
      e.unmarked = writeTransactionEvent gen (linkedTransaction H before data gen)
  /-- Events that have been published since. -/
  published : ∀ e ∈ db.outboxEvents, e.publishedAt ≠ none →
    (∃ e₀ ∈ db₀.outboxEvents, e₀.unmarked = e.unmarked ∧ e₀.publishedAt ≠ none) ∨
    ∃ limit accepts now, P (.outboxPublish limit accepts now)

theorem WrittenBy.refl (P : Request → Prop) (db : Database) : WrittenBy H P db db :=
  ⟨fun _ ha => Or.inl ha, fun _ ht => Or.inl ht, fun _ he => Or.inl he,
    fun _ he => Or.inl (List.mem_map_of_mem he),
    fun e he hpublished => Or.inl ⟨e, he, rfl, hpublished⟩⟩

/-- What requests of the kind `P` write is written by requests of a wider kind. -/
theorem WrittenBy.mono {P Q : Request → Prop} (h : WrittenBy H P db₀ db) (hPQ : ∀ r, P r → Q r) :
    WrittenBy H Q db₀ db := by
  constructor
  case accounts =>
    intro a ha
    rcases h.accounts a ha with h₀ | ⟨data, id, now, hP, rfl⟩ | ⟨data, gen, hP, rfl⟩
    · exact Or.inl h₀
    · exact Or.inr (Or.inl ⟨data, id, now, hPQ _ hP, rfl⟩)
    · exact Or.inr (Or.inr ⟨data, gen, hPQ _ hP, rfl⟩)
  case transactions =>
    intro t ht
    refine (h.transactions t ht).imp_right ?_
    rintro ⟨data, gen, before, hP, rfl⟩
    exact ⟨data, gen, before, hPQ _ hP, rfl⟩
  case ledgerEntries =>
    intro e he
    refine (h.ledgerEntries e he).imp_right ?_
    rintro ⟨data, gen, debit, credit, hP, hmem⟩
    exact ⟨data, gen, debit, credit, hPQ _ hP, hmem⟩
  case outboxEvents =>
    intro e he
    refine (h.outboxEvents e he).imp_right ?_
    rintro ⟨data, gen, before, hP, hevent⟩
    exact ⟨data, gen, before, hPQ _ hP, hevent⟩
  case published =>
    intro e he hpublished
    refine (h.published e he hpublished).imp_right ?_
    rintro ⟨limit, accepts, now, hP⟩
    exact ⟨limit, accepts, now, hPQ _ hP⟩

section Steps

variable {P : Request → Prop} (h : WrittenBy H P db₀ db)
include h

/-- **Step lemma** for writers. -/
theorem WrittenBy.commit {call : Call} {written : Writes} (hcall : Commits H db call written)
    (hP : P (.call call)) : WrittenBy H P db₀ (db.view written) := by
  have hevents : (db.view written).outboxEvents = db.outboxEvents ++ written.outboxEvents :=
    Database.view_outboxEvents hcall.published
  constructor
  case accounts =>
    intro a ha
    rw [Database.view_accounts, List.mem_append] at ha
    rcases ha with ha | ha
    · exact h.accounts a ha
    · right
      cases hcall with
      | @postAccount data id now => exact Or.inl ⟨data, id, now, hP, List.mem_singleton.mp ha⟩
      | @createTransaction data gen post hs =>
          have ha : a ∈ post.opened := ha
          rcases opened_of_posting hs.posting with hnil | ⟨hopened, -⟩
          · rw [hnil] at ha
            cases ha
          · rw [hopened, List.mem_singleton] at ha
            exact Or.inr ⟨data, gen, hP, ha⟩
  case transactions =>
    intro t ht
    rw [Database.view_transactions hcall.fresh.rechained, List.mem_append] at ht
    rcases ht with ht | ht
    · exact h.transactions t ht
    · right
      cases hcall with
      | postAccount => cases ht
      | @createTransaction data gen post hs => exact ⟨data, gen, db, hP, List.mem_singleton.mp ht⟩
  case ledgerEntries =>
    intro e he
    rw [Database.view_ledgerEntries, List.mem_append] at he
    rcases he with he | he
    · exact h.ledgerEntries e he
    · right
      cases hcall with
      | postAccount => cases he
      | @createTransaction data gen post hs => exact ⟨data, gen, post.debit, post.credit, hP, he⟩
  case outboxEvents =>
    intro e he
    rw [hevents, List.mem_append] at he
    rcases he with he | he
    · exact h.outboxEvents e he
    · right
      cases hcall with
      | postAccount => cases he
      | @createTransaction data gen post hs =>
          obtain rfl := List.mem_singleton.mp he
          exact ⟨data, gen, db, hP, rfl⟩
  case published =>
    intro e he hpublished
    rw [hevents, List.mem_append] at he
    rcases he with he | he
    · exact h.published e he hpublished
    -- an event is inserted unpublished
    · cases hcall with
      | postAccount => cases he
      | createTransaction =>
          obtain rfl := List.mem_singleton.mp he
          exact absurd rfl hpublished

/-- **Step lemma** for relays. -/
theorem WrittenBy.mark {limit : ℕ} {accepts : Message → Bool} {now : UUID → Timestamp}
    (hP : P (.outboxPublish limit accepts now)) (marks : List (UUID × Timestamp)) :
    WrittenBy H P db₀ (db.view (markWrites marks)) := by
  constructor
  case accounts => simpa only [view_markWrites_accounts] using h.accounts
  case transactions => simpa only [view_markWrites_transactions] using h.transactions
  case ledgerEntries => simpa only [view_markWrites_ledgerEntries] using h.ledgerEntries
  case outboxEvents =>
    intro e he
    rw [view_markWrites_outboxEvents] at he
    obtain ⟨e', he', rfl⟩ := List.mem_map.mp he
    rw [OutboxEvent.unmarked_mark]
    exact h.outboxEvents e' he'
  case published => exact fun _ _ _ => Or.inr ⟨limit, accepts, now, hP⟩

end Steps

/-- **Run lemma**: all rows are those of requests that have committed. -/
theorem writtenBy_of_api {w : World sql Database Writes Resource Request Response}
    (h : (api H).Reachable (World.init db₀) w) :
    WrittenBy H (· ∈ w.shared.log) db₀ w.shared.store := by
  induction h with
  | refl => exact .refl _ db₀
  | @step w w' a hw _ hstep ih =>
      rcases shared_step hstep with hsame | ⟨i, s, next, -, hs, hprog, hcommit⟩ |
        ⟨i, s, m, next, -, -, -, hemit⟩
      · rwa [hsame]
      · rw [hcommit]
        have hlater := ih.mono fun r hr => List.mem_append_left [s.call] hr
        have hown : s.call ∈ w.shared.log ++ [s.call] := List.mem_append_right _ (.head _)
        show WrittenBy H (· ∈ w.shared.log ++ [s.call]) db₀ (w.shared.store.view s.pending)
        cases hcall : s.call with
        | call call =>
            rw [hcall] at hlater hown
            obtain ⟨written, hcommits, hview⟩ := commits_of_running hw hs hcall hprog
            rw [hview]
            exact hlater.commit hcommits hown
        | outboxPublish limit accepts now =>
            rw [hcall] at hlater hown
            obtain ⟨marks, hmarks⟩ := marks_of_running hw hs hcall
            rw [hmarks]
            exact hlater.mark hown marks
      · rw [hemit]
        exact ih

/-! ## Roles -/

/-- The roles that may have a request of `api` run. -/
def Request.roles : Request → List Role
  | .call (.postAccount _ _ _) => [.admin]
  | .call (.createTransaction _ _) => [.admin, .customer]
  | .outboxPublish _ _ _ => [.admin]

variable {D : Deployment} {w : ServiceWorld} {r : HttpRequest} {answer : Answer}

/-- **Who is admitted**: anyone, or a user whom the endpoint admits. -/
theorem authorize_eq_ok_iff : D.authorize r = .ok () ↔
    r.endpoint.access = .anyone ∨
      ∃ user, D.currentUser r = .ok user ∧ r.endpoint.access.Admits user := by
  unfold Deployment.authorize
  cases r.endpoint.access with
  | anyone => simp [pure, Except.pure]
  | user =>
      cases D.currentUser r with
      | error e => simp [bind, Except.bind]
      | ok user => simp [bind, Except.bind, pure, Except.pure, Access.Admits]
  | role allowed =>
      cases D.currentUser r with
      | error e => simp [bind, Except.bind]
      | ok user =>
          cases hrole : requireRole allowed user with
          | error e =>
              have hnot : user.role ∉ allowed := fun hmem => by
                rw [requireRole_eq_ok_iff.mpr ⟨rfl, hmem⟩] at hrole
                cases hrole
              simp [bind, Except.bind, hrole, Access.Admits, hnot]
          | ok user' =>
              have hmem := (requireRole_eq_ok_iff.mp hrole).2
              simp [bind, Except.bind, pure, Except.pure, hrole, Access.Admits, hmem]

/-- A request that runs one of `api` is that of a user with a role that may. -/
theorem roles_of_writer {request : Request} (h : D.writer r = some request) :
    ∃ user, D.currentUser r = .ok user ∧ user.role ∈ request.roles := by
  have hauth := D.authorize_of_writer h
  have htask := D.task_of_writer h
  rw [D.task_of_ok hauth] at htask
  obtain ⟨token, clock, endpoint⟩ := r
  rcases authorize_eq_ok_iff.mp hauth with hanyone | ⟨user, huser, hadmits⟩
  · cases endpoint <;> cases htask <;> cases hanyone
  · refine ⟨user, huser, ?_⟩
    cases endpoint <;> cases htask <;> exact hadmits

/-- Every row of the tables was there at first, or is one that a committed request writes. -/
theorem writtenBy_of_service (h : D.service.Reachable (World.init db₀) w) :
    WrittenBy D.H (fun request => ∃ r ∈ w.shared.log, D.writer r = some request) db₀ w.store := by
  obtain ⟨w', hw', hshadows⟩ := Extension.exists_shadow h
  show WrittenBy D.H _ db₀ w.shared.store
  rw [← hshadows.store]
  refine (writtenBy_of_api hw').mono fun request hrequest => ?_
  rw [hshadows.log] at hrequest
  exact List.mem_filterMap.mp hrequest

/-- **Access control**: every row of the tables was there at first, or is one that a committed
request writes, whose token names a user with a role that may. -/
theorem every_row_requested (h : D.service.Reachable (World.init db₀) w) :
    WrittenBy D.H (fun request => ∃ r ∈ w.shared.log, D.writer r = some request ∧
      ∃ user, D.currentUser r = .ok user ∧ user.role ∈ request.roles) db₀ w.store := by
  refine (writtenBy_of_service h).mono fun request hrequest => ?_
  obtain ⟨r, hr, hwriter⟩ := hrequest
  exact ⟨r, hr, hwriter, roles_of_writer hwriter⟩

/-- The rows of a run with one deposit. -/
theorem every_row_requested_lateReadsRun :
    ∃ w, lateReadsRun = some w ∧
      WrittenBy sha256 (fun request => ∃ r ∈ w.shared.log,
        sampleDeployment.writer r = some request ∧
        ∃ user, sampleDeployment.currentUser r = .ok user ∧ user.role ∈ request.roles)
        sampleDatabase w.store := by
  obtain ⟨w, hw, -⟩ := Option.map_eq_some_iff.mp lateReadsRun_outcome
  exact ⟨w, hw, every_row_requested (Reaches.of_run hw).reachable⟩

/-- **Auditors change nothing**: as long as all requests come from auditors, or from nobody, the
tables stay as they are, and no message is sent. -/
theorem read_only (h : D.service.Reachable (World.init db₀) w)
    (hauditors : ∀ r ∈ w.slots.map Slot.call, ∀ user, D.currentUser r = .ok user →
      user.role = .auditor) :
    w.store = db₀ ∧ w.shared.sent = [] := by
  suffices hshared : w.shared = ⟨db₀, [], []⟩ by simp [World.store, hshared]
  induction h with
  | refl => rfl
  | @step v w a hv _ hstep ih =>
      have hcalls := calls_of_step (Y := D.service) hstep
      rw [hcalls] at hauditors
      have hshared := ih fun r hr => hauditors r (List.mem_append_left _ hr)
      obtain ⟨v', -, hshadows⟩ := Extension.exists_shadow hv
      rw [hshadows.shared_step hstep, hshared]
      intro i s hs
      by_contra hne
      obtain ⟨request, hwriter⟩ := Option.ne_none_iff_exists'.mp hne
      obtain ⟨user, huser, hrole⟩ := roles_of_writer (D := D) hwriter
      have hmem : s.call ∈ v.slots.map Slot.call :=
        List.mem_map.mpr ⟨_, List.mem_of_getElem? hs, rfl⟩
      -- none of the roles is that of an auditor
      rw [hauditors s.call (List.mem_append_left _ hmem) user huser] at hrole
      rcases request with (_ | _) | _ <;> simp [Request.roles] at hrole

/-- An auditor tries to deposit, and audits. -/
def auditorRun : Option ServiceWorld :=
  sampleDeployment.service.run (fun _ _ => True) sampleDatabase
    [sampleRequest .auditor (.postTransaction sampleDeposit (sampleGenerated 1)),
      sampleRequest .auditor .auditVerify] (0 :: List.replicate 14 1)

theorem auditorRun_outcome :
    (auditorRun.bind fun w => ((w.slots[1]?).bind Slot.answer).bind Answer.verdict) =
      some .pass := by
  decide +kernel

/-- The tables of the auditor's run. -/
theorem read_only_auditorRun :
    ∃ w, auditorRun = some w ∧ w.store = sampleDatabase ∧ w.shared.sent = [] := by
  obtain ⟨w, hw, -⟩ := Option.bind_eq_some_iff.mp auditorRun_outcome
  refine ⟨w, hw, read_only (D := sampleDeployment) (Reaches.of_run hw).reachable ?_⟩
  rw [calls_of_run hw]
  intro r hr user huser
  obtain ⟨endpoint, rfl⟩ : ∃ endpoint, r = sampleRequest .auditor endpoint := by
    rcases List.mem_pair.mp hr with rfl | rfl
    · exact ⟨_, rfl⟩
    · exact ⟨_, rfl⟩
  rw [currentUser_sampleRequest] at huser
  rw [← Except.ok.inj huser]

/-! ## Logins -/

/-- A token that is answered is one of a login. -/
theorem login_of_token (h : D.service.Reachable (World.init db₀) w) {i : ℕ} {token : String}
    (hend : w.slots[i]? = some (.finished r (.returned (.token token)))) :
    ∃ username password user, r.endpoint = .login username password ∧
      authenticateUser D.crypto username password = some user ∧
      token = createAccessToken D.crypto D.secretKey user r.clock := by
  have htask := D.task_of_ok (authorize_of_returned h hend)
  have hend : w.slots[i]? = some (.finished r (Store.verdict (.ok (.token token)))) := hend
  rcases D.task_cases r with ⟨x, hread, -⟩ | ⟨request, -, hwriter⟩
  · have halong := Extension.along (X := D.extension) h (Nat.zero_le i) hend hread
    rw [htask] at hread
    obtain ⟨bearer, clock, endpoint⟩ := r
    have hgives := gives_of_along hread halong
    cases endpoint with
    | login username password =>
        obtain rfl := Task.read.inj hread
        unfold Deployment.login at halong
        cases huser : authenticateUser D.crypto username password with
        | none =>
            rw [huser] at halong
            cases (along_raise_iff.mp halong).1
        | some user =>
            rw [huser] at halong
            have htoken := Answer.token.inj (Except.ok.inj (along_ret_iff.mp halong).1)
            exact ⟨username, password, user, rfl, huser, htoken⟩
    | _ => exact hgives.elim
  -- what is written is not answered with a token
  · obtain ⟨w', -, hshadows⟩ := Extension.exists_shadow h
    obtain ⟨res', -, hres⟩ := hshadows.answered (D.task_of_writer hwriter) hend
    cases res' with
    | error e => cases hres
    | ok response => cases response <;> cases hres

/-- The request of slot `i` carries the token that an earlier request has been answered with, which
was a login of the user: their password was accepted, and the hour of the token, counted in whole
seconds, was not over at the request. -/
def Deployment.LoggedIn (D : Deployment) (w : ServiceWorld) (i : ℕ) (r : HttpRequest)
    (user : TokenData) : Prop :=
  ∃ (j : ℕ) (login : HttpRequest) (password token : String), j < i ∧
    w.slots[j]? = some (.finished login (.returned (.token token))) ∧ r.token = some token ∧
      login.endpoint = .login user.username password ∧
      authenticateUser D.crypto user.username password = some user ∧
      second r.clock ≤ second (login.clock + accessTokenExpireMinutes * 60 * secondMicroseconds)

/-- **Signatures cannot be forged**: a token that a request comes with, and that is accepted, has
been answered to some request before. -/
def Deployment.Unforged (D : Deployment) (w : ServiceWorld) : System.Action HttpRequest → Prop
  | .start r => ∀ token ∈ r.token, (D.crypto.decode token D.secretKey r.clock).isSome →
      ∃ (j : ℕ) (login : HttpRequest),
        w.slots[j]? = some (.finished login (.returned (.token token)))
  | .acquire _ | .advance _ | .fault _ => True

/-- Who is recognised has logged in. -/
def Deployment.Authentic (D : Deployment) (w : ServiceWorld) (i : ℕ) (r : HttpRequest) : Prop :=
  ∀ user, D.currentUser r = .ok user → D.LoggedIn w i r user

/-- A request that starts is recognised by a token of an earlier login. -/
theorem authentic_start (hcrypto : D.crypto.ReadsTokens)
    (h : D.service.Reachable (World.init db₀) w) (hadm : D.Unforged w (.start r)) :
    D.Authentic w w.slots.length r := by
  intro user huser
  cases htoken : r.token with
  | none =>
      unfold Deployment.currentUser at huser
      rw [htoken] at huser
      cases huser
  | some token =>
      rw [D.currentUser_of_token htoken] at huser
      obtain ⟨exp, hdecode⟩ := getCurrentUser_eq_ok_iff.mp huser
      obtain ⟨j, login, hj⟩ := hadm token htoken (by rw [hdecode]; rfl)
      obtain ⟨username, password, data, hendpoint, hauth, rfl⟩ := login_of_token h hj
      -- the token is worth what it was issued for
      rw [currentUser_createAccessToken hcrypto] at huser
      split at huser
      case isFalse => cases huser
      case isTrue hlate =>
        obtain rfl := Except.ok.inj huser
        obtain ⟨entry, -, -, hdata⟩ := (authenticateUser_eq_some_iff D.crypto).mp hauth
        have hname : data.username = username := congrArg TokenData.username hdata
        rw [← hname] at hendpoint hauth
        have hearlier := (List.getElem?_eq_some_iff.mp hj).1
        exact ⟨j, login, password, _, hearlier, hj, htoken, hendpoint, hauth, hlate⟩

/-- **Authentication over runs**: whoever is recognised, in a request that has arrived, has logged
in. -/
theorem authentic (hcrypto : D.crypto.ReadsTokens)
    (h : D.service.Reaches D.Unforged (World.init db₀) w) {i : ℕ}
    (hr : (w.slots.map Slot.call)[i]? = some r) : D.Authentic w i r := by
  have hstays : ∀ (v v' : ServiceWorld) (a : System.Action HttpRequest) i r,
      D.service.step v a = some v' → D.Authentic v i r → D.Authentic v' i r := by
    intro v v' a i r hstep hr user huser
    obtain ⟨j, login, password, token, hearlier, hj, hlogin⟩ := hr user huser
    have hj' := finished_step (Y := D.service) hstep hj
    exact ⟨j, login, password, token, hearlier, hj', hlogin⟩
  refine h.provenance (P := D.Authentic) ?hslots ?hstart ?hstays hr
  case hslots =>
    intro i r hr
    simp [World.init] at hr
  case hstart =>
    intro v v' r hv hadm hstep
    exact hstays v v' _ _ r hstep (authentic_start hcrypto hv.reachable hadm)
  case hstays => exact fun v v' a i r _ _ => hstays v v' a i r

/-- **Answers come after a login**: whoever is answered by an endpoint that is not open to anyone
has logged in before, within the hour, as a user whom the endpoint admits. -/
theorem answered_after_login (hcrypto : D.crypto.ReadsTokens)
    (h : D.service.Reaches D.Unforged (World.init db₀) w) {i : ℕ}
    (hend : w.slots[i]? = some (.finished r (.returned answer)))
    (haccess : r.endpoint.access ≠ .anyone) :
    ∃ user, r.endpoint.access.Admits user ∧ D.LoggedIn w i r user := by
  rcases authorize_eq_ok_iff.mp (authorize_of_returned h.reachable hend) with
    hanyone | ⟨user, huser, hadmits⟩
  · exact absurd hanyone haccess
  · refine ⟨user, hadmits, authentic hcrypto h ?_ user huser⟩
    rw [List.getElem?_map, hend]
    rfl

/-- **Records come after a login**: every row of the tables was there at first, or is one that a
committed request writes, whose user has logged in before, within the hour, and has a role that
may. -/
theorem recorded_after_login (hcrypto : D.crypto.ReadsTokens)
    (h : D.service.Reaches D.Unforged (World.init db₀) w) :
    WrittenBy D.H (fun request => ∃ r ∈ w.shared.log, D.writer r = some request ∧
      ∃ i user, (w.slots.map Slot.call)[i]? = some r ∧ user.role ∈ request.roles ∧
        D.LoggedIn w i r user) db₀ w.store := by
  refine (writtenBy_of_service h.reachable).mono fun request hrequest => ?_
  obtain ⟨r, hr, hwriter⟩ := hrequest
  obtain ⟨user, huser, hrole⟩ := roles_of_writer hwriter
  obtain ⟨i, hi⟩ := List.mem_iff_getElem?.mp (h.log_subset_calls (List.nil_subset _) hr)
  exact ⟨r, hr, hwriter, i, user, hi, hrole, authentic hcrypto h hi user huser⟩

/-! ## A login -/

/-- The request comes without a token. -/
def Anonymous (_ : ServiceWorld) (a : System.Action HttpRequest) : Prop :=
  ∀ r ∈ a.started, r.token = none

instance (w : ServiceWorld) (a : System.Action HttpRequest) : Decidable (Anonymous w a) :=
  inferInstanceAs (Decidable (∀ r ∈ a.started, r.token = none))

/-- Without a token nothing can be forged. -/
theorem unforged_of_anonymous {a : System.Action HttpRequest} (h : Anonymous w a) :
    D.Unforged w a := by
  cases a with
  | start r =>
      intro token htoken
      rw [h r (.head _)] at htoken
      cases htoken
  | acquire i => exact trivial
  | advance i => exact trivial
  | fault i => exact trivial

/-- The login of the customer. -/
def sampleLogin : HttpRequest := ⟨none, 0, .login "customer" "customer123"⟩

/-- The customer has logged in. -/
def loginRun : Option ServiceWorld :=
  sampleDeployment.service.run Anonymous sampleDatabase [sampleLogin] [0]

/-- The deposit of the customer. -/
def sampleDepositRequest : HttpRequest :=
  sampleRequest .customer (.postTransaction sampleDeposit (sampleGenerated 1))

/-- With the token, they deposit. -/
def loginDepositRun : Option (ServiceWorld × ServiceWorld) :=
  loginRun.bind fun w₁ =>
    (sampleDeployment.service.step w₁ (.start sampleDepositRequest)).bind fun w₂ =>
      (sampleDeployment.service.turns Anonymous w₂ (List.replicate 13 1)).map fun w₃ => (w₁, w₃)

/-- What the login and the deposit are answered. -/
theorem loginDepositRun_outcome :
    (loginDepositRun.map fun v =>
      ((v.1.slots[0]?).bind Slot.answer, ((v.2.slots[1]?).bind Slot.answer).isSome)) =
      some (sampleDepositRequest.token.map .token, true) := by
  decide +kernel

/-- The run is one in which nothing is forged. -/
theorem reaches_loginDepositRun :
    ∃ w answer, sampleDeployment.service.Reaches sampleDeployment.Unforged
        (World.init sampleDatabase) w ∧
      w.slots[1]? = some (.finished sampleDepositRequest (.returned answer)) := by
  obtain ⟨v, hrun, houtcome⟩ := Option.map_eq_some_iff.mp loginDepositRun_outcome
  unfold loginDepositRun at hrun
  obtain ⟨w₁, hlogin, hrun⟩ := Option.bind_eq_some_iff.mp hrun
  obtain ⟨w₂, hstart, hrun⟩ := Option.bind_eq_some_iff.mp hrun
  obtain ⟨w₃, hturns, rfl⟩ := Option.map_eq_some_iff.mp hrun
  obtain ⟨htoken, hanswer⟩ := Prod.mk.inj houtcome
  obtain ⟨answer, hanswer⟩ := Option.isSome_iff_exists.mp hanswer
  refine ⟨w₃, answer, ?_, ?_⟩
  · have hbefore := (Reaches.of_run hlogin).mono fun _ _ _ h =>
      unforged_of_anonymous (D := sampleDeployment) h
    have hafter := (Reaches.refl.of_turns hturns).mono fun _ _ _ h =>
      unforged_of_anonymous (D := sampleDeployment) h
    refine (hbefore.step ?_ hstart).trans hafter
    -- the token is the one that the login was answered with
    intro token h _
    refine ⟨0, sampleLogin, finished_of_answer (congrArg (·[0]?) (calls_of_run hlogin)) ?_⟩
    have htoken : (w₁.slots[0]?).bind Slot.answer = sampleDepositRequest.token.map .token := htoken
    rw [htoken, show sampleDepositRequest.token = some token from h]
    rfl
  · obtain ⟨slot, hslot, hanswer⟩ := Option.bind_eq_some_iff.mp hanswer
    have hcalls := calls_of_turns hturns
    rw [calls_of_step hstart, calls_of_run hlogin] at hcalls
    have hcall : (w₃.slots.map Slot.call)[1]? = some sampleDepositRequest := by
      rw [hcalls]
      rfl
    rw [List.getElem?_map, hslot] at hcall
    rw [hslot, Slot.eq_finished_of_answer hanswer, Option.some.inj hcall]

/-- The deposit is answered to a customer who has logged in. -/
theorem answered_after_login_loginDepositRun :
    ∃ (w : ServiceWorld) (answer : Answer) (user : TokenData),
      w.slots[1]? = some (.finished sampleDepositRequest (.returned answer)) ∧
      sampleDepositRequest.endpoint.access.Admits user ∧
      sampleDeployment.LoggedIn w 1 sampleDepositRequest user := by
  obtain ⟨w, answer, hw, hend⟩ := reaches_loginDepositRun
  obtain ⟨user, h⟩ := answered_after_login readsTokens_plainCryptography hw hend nofun
  exact ⟨w, answer, user, hend, h⟩

/-- The deposit is recorded for a customer who has logged in. -/
theorem recorded_after_login_loginDepositRun :
    ∃ (w : ServiceWorld) (answer : Answer),
      w.slots[1]? = some (.finished sampleDepositRequest (.returned answer)) ∧
      WrittenBy sha256 (fun request => ∃ r ∈ w.shared.log,
        sampleDeployment.writer r = some request ∧
        ∃ i user, (w.slots.map Slot.call)[i]? = some r ∧ user.role ∈ request.roles ∧
          sampleDeployment.LoggedIn w i r user) sampleDatabase w.store := by
  obtain ⟨w, answer, hw, hend⟩ := reaches_loginDepositRun
  exact ⟨w, answer, hend, recorded_after_login readsTokens_plainCryptography hw⟩

end LedgerApi
