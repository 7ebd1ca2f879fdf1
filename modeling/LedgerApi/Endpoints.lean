import LedgerApi.Auth
import LedgerApi.Library.Extension
import LedgerApi.LiveReads

/-! # The service

All endpoints of `app/main.py` behind their authorisation, in one system: requests that write run as
in `api`, requests that read issue their queries one by one, and requests that are not admitted end
before they reach the database. `Deployment.service` is that system; by `service_refines_api` every
run of it is a run of `api` with the same tables and messages, so that all that is known of
interleaved writers and relays holds behind the endpoints as well, beside any number of readers.

Bodies and parameters are taken as validated, and the latencies that `status` and `health` measure
are left out. -/

namespace LedgerApi

open Sessions System

/-! ## Requests -/

/-- The endpoints, with their parameters and with what the environment draws for them. -/
inductive Endpoint
  /-- `POST /auth/token` -/
  | login (username password : String)
  /-- `POST /accounts` -/
  | postAccount (data : AccountCreate) (id : UUID) (now : Timestamp)
  /-- `GET /accounts/{account_id}` -/
  | getAccount (accountId : UUID)
  /-- `GET /accounts/{account_id}/balance` -/
  | getBalance (accountId : UUID)
  /-- `POST /transactions` -/
  | postTransaction (data : TransactionCreate) (gen : Generated)
  /-- `GET /transactions` -/
  | listTransactions (accountId : Option UUID) (type : Option TransactionType)
      (cursor : Option UUID) (limit : ℕ)
  /-- `GET /accounts/{account_id}/entries` -/
  | listEntries (accountId : UUID) (cursor : Option UUID) (limit : ℕ)
  /-- `GET /accounts/{account_id}/statement` -/
  | getStatement (accountId : UUID) (fromDate toDate : Option Date)
  /-- `GET /outbox/pending` -/
  | outboxPending (limit : ℕ)
  /-- `POST /outbox/publish` -/
  | outboxPublish (limit : ℕ) (accepts : Message → Bool) (now : UUID → Timestamp)
  /-- `GET /audit/verify` -/
  | auditVerify
  /-- `GET /audit/chain` -/
  | auditChain
  /-- `GET /status` -/
  | status
  /-- `GET /health` -/
  | health

/-- A request as it arrives. -/
structure HttpRequest where
  /-- The bearer token of its `Authorization` header. -/
  token : Option String
  /-- The time at which it is authorised. -/
  clock : Timestamp
  endpoint : Endpoint

/-- What the service answers. -/
inductive Answer
  | token (accessToken : String)
  | account (account : Account)
  | balance (response : BalanceResponse)
  | transaction (txn : Transaction Decimal)
  | transactions (page : PaginatedResponse (Transaction Decimal))
  | entries (page : PaginatedResponse LedgerEntry)
  | statement (response : StatementResponse)
  | pending (events : List PendingEvent)
  | published (result : PublishResult)
  | audit (report : AuditReport)
  | chain (report : ChainReport)
  | status (counts : StatusCounts)
  | health
  deriving DecidableEq, Repr

/-- The answer to a request that writes. -/
def Answer.ofResponse : Response → Answer
  | .account a => account a
  | .transaction txn => transaction txn
  | .published result => published result

/-! ## Authorisation -/

/-- Whom an endpoint admits. -/
inductive Access
  /-- It has no dependency on a user. -/
  | anyone
  /-- `Depends(get_current_user)` -/
  | user
  /-- `Depends(require_role(*allowed))` -/
  | role (allowed : List Role)

/-- The dependencies of the endpoints. -/
def Endpoint.access : Endpoint → Access
  | login _ _ => .anyone
  | postAccount _ _ _ => .role [.admin]
  | getAccount _ => .user
  | getBalance _ => .user
  | postTransaction _ _ => .role [.admin, .customer]
  | listTransactions _ _ _ _ => .user
  | listEntries _ _ _ => .user
  | getStatement _ _ _ => .user
  | outboxPending _ => .role [.admin]
  | outboxPublish _ _ _ => .role [.admin]
  | auditVerify => .role [.auditor, .admin]
  | auditChain => .role [.auditor, .admin]
  | status => .anyone
  | health => .anyone

/-- A user is among those whom an endpoint admits. -/
def Access.Admits (who : TokenData) : Access → Prop
  | .anyone => True
  | .user => True
  | .role allowed => who.role ∈ allowed

/-- A running deployment. -/
structure Deployment where
  H : HexHash
  planner : Planner
  crypto : Cryptography
  /-- The variables of its environment. -/
  getenv : String → Option String
  /-- `SECRET_KEY` -/
  secretKey : String
  resolved : resolveSecret getenv = some secretKey

/-- The queries of the endpoints that read. -/
abbrev webReads : Signature :=
  ⟨Query ⊕ AuditQuery, Sum.elim Query.Reply AuditQuery.Reply, Empty, WebExn⟩

/-- The handlers' vocabulary in that of the endpoints. -/
def reading : reads.Hom webReads where
  stmt := .inl
  reply _ r := r
  msg m := m
  exn := .handler

/-- The audits' vocabulary in that of the endpoints. -/
def auditing : auditReads.Hom webReads where
  stmt := .inr
  reply _ r := r
  msg m := m
  exn := .handler

/-- The answers to the queries. -/
def webAnswer (planner : Planner) (db : Database) : (q : webReads.Stmt) → webReads.Reply q
  | .inl q => q.answer planner db
  | .inr q => q.answer db

namespace Deployment

variable (D : Deployment)

/-- `get_current_user`, with the header it depends on. -/
def currentUser (r : HttpRequest) : Except WebExn TokenData := do
  let token ← oauth2Scheme r.token
  getCurrentUser D.crypto D.secretKey token r.clock

/-- With a token in the header it is the token that decides. -/
theorem currentUser_of_token {r : HttpRequest} {token : String} (h : r.token = some token) :
    D.currentUser r = getCurrentUser D.crypto D.secretKey token r.clock := by
  unfold currentUser
  rw [h]
  rfl

/-- What the dependencies of its endpoint make of a request. -/
def authorize (r : HttpRequest) : Except WebExn Unit :=
  match r.endpoint.access with
  | .anyone => return ()
  | .user => do
      let _ ← D.currentUser r
      return ()
  | .role allowed => do
      let user ← D.currentUser r
      let _ ← requireRole allowed user
      return ()

/-! ## Handlers -/

/-- `login`, at some time. -/
def login (username password : String) (now : Timestamp) : Prog webReads Answer :=
  match authenticateUser D.crypto username password with
  | none => .raise (.http 401 "Incorrect username or password")
  | some user => .ret (.token (createAccessToken D.crypto D.secretKey user now))

/-- What the handler of an endpoint does: it runs a request of `api`, or it reads. -/
def handler (now : Timestamp) : Endpoint → Task webReads Request Response Answer
  | .login username password => .read (D.login username password now)
  | .postAccount data id now => .write (.call (.postAccount data id now)) .ofResponse
  | .getAccount accountId => .read ((findAccount accountId).translate reading .account)
  | .getBalance accountId => .read ((LedgerApi.getBalance accountId).translate reading .balance)
  | .postTransaction data gen => .write (.call (.createTransaction data gen)) .ofResponse
  | .listTransactions accountId type cursor limit =>
      .read ((LedgerApi.listTransactions accountId type cursor limit).translate reading
        .transactions)
  | .listEntries accountId cursor limit =>
      .read ((LedgerApi.listEntries accountId cursor limit).translate reading .entries)
  | .getStatement accountId fromDate toDate =>
      .read ((LedgerApi.getStatement accountId fromDate toDate).translate reading .statement)
  | .outboxPending limit => .read ((LedgerApi.outboxPending limit).translate reading .pending)
  | .outboxPublish limit accepts now => .write (.outboxPublish limit accepts now) .ofResponse
  | .auditVerify => .read (verifyLedgerSession.translate auditing .audit)
  | .auditChain => .read ((verifyHashChainSession D.H).translate auditing .chain)
  | .status => .read (LedgerApi.status.translate reading .status)
  | .health => .read (.ret .health)

/-- What the service does with a request: its handler runs when its dependencies admit it. -/
def task (r : HttpRequest) : Task webReads Request Response Answer :=
  match D.authorize r with
  | .error e => .read (.raise e)
  | .ok () => D.handler r.clock r.endpoint

/-- What a request that reads answers on tables that nobody changes. -/
def answerOn (db : Database) (r : HttpRequest) : Option (Except WebExn Answer) :=
  match D.task r with
  | .write _ _ => none
  | .read x => some (x.answered (webAnswer D.planner db))

/-- The endpoints that read have nothing to commit. -/
theorem commitsAtMost_handler {now : Timestamp} {endpoint : Endpoint} {x : Prog webReads Answer}
    (h : D.handler now endpoint = .read x) : x.CommitsAtMost 0 := by
  have hfound : ∀ accountId, (findAccount accountId).CommitsAtMost 0 := by
    intro accountId account
    cases account <;> exact trivial
  cases endpoint with
  | login username password =>
      obtain rfl := Task.read.inj h
      unfold login
      split <;> exact trivial
  | postAccount data id now => cases h
  | getAccount accountId =>
      obtain rfl := Task.read.inj h
      exact (hfound accountId).translate reading _
  | getBalance accountId =>
      obtain rfl := Task.read.inj h
      refine Prog.CommitsAtMost.translate ?_ reading _
      exact Prog.CommitsAtMost.zero_bind (hfound accountId) fun _ _ => trivial
  | postTransaction data gen => cases h
  | listTransactions accountId type cursor limit =>
      obtain rfl := Task.read.inj h
      refine Prog.CommitsAtMost.translate ?_ reading _
      cases cursor with
      | none => exact fun _ => trivial
      | some cursor => exact fun _ _ => trivial
  | listEntries accountId cursor limit =>
      obtain rfl := Task.read.inj h
      refine Prog.CommitsAtMost.translate ?_ reading _
      refine Prog.CommitsAtMost.zero_bind (hfound accountId) fun _ => ?_
      cases cursor with
      | none => exact fun _ => trivial
      | some cursor => exact fun _ _ => trivial
  | getStatement accountId fromDate toDate =>
      obtain rfl := Task.read.inj h
      refine Prog.CommitsAtMost.translate ?_ reading _
      exact Prog.CommitsAtMost.zero_bind (hfound accountId) fun _ _ => trivial
  | outboxPending limit =>
      obtain rfl := Task.read.inj h
      exact fun _ => trivial
  | outboxPublish limit accepts now => cases h
  | auditVerify =>
      obtain rfl := Task.read.inj h
      exact commitsAtMost_verifyLedgerSession.translate auditing _
  | auditChain =>
      obtain rfl := Task.read.inj h
      refine Prog.CommitsAtMost.translate ?_ auditing _
      intro transactions
      show Prog.CommitsAtMost 0 (if transactions = [] then _ else _)
      split <;> exact trivial
  | status =>
      obtain rfl := Task.read.inj h
      exact fun _ _ _ _ => trivial
  | health =>
      obtain rfl := Task.read.inj h
      exact trivial

/-- So have requests that are refused. -/
theorem commitsAtMost_task {r : HttpRequest} {x : Prog webReads Answer} (h : D.task r = .read x) :
    x.CommitsAtMost 0 := by
  unfold task at h
  split at h
  · obtain rfl := Task.read.inj h
    exact trivial
  · exact D.commitsAtMost_handler h

/-! ## The system -/

/-- The endpoints as an extension of the requests that write. -/
def extension : Extension (api D.H) webReads HttpRequest Answer where
  exn := .handler
  answer := webAnswer D.planner
  task := D.task
  quiet := D.commitsAtMost_task
  idle := .outboxPublish 0 (fun _ => true) fun _ => 0

/-- **The service**: every request runs in a session of its own. -/
abbrev service : System (sql.withQueries webReads) Database Writes Resource HttpRequest Answer :=
  D.extension.system

/-- The request of `api` that a request is, if it is admitted and writes. -/
def writer (r : HttpRequest) : Option Request := D.extension.writer r

end Deployment

/-- A world of the service. -/
abbrev ServiceWorld :=
  World (sql.withQueries webReads) Database Writes Resource HttpRequest Answer

/-! ## A run -/

/-- A deployment without configuration. -/
def sampleDeployment : Deployment :=
  ⟨sha256, .stable, plainCryptography, fun _ => none, localDevSecret, rfl⟩

/-- A request of a user with a role, who has logged in at the time zero. -/
def sampleRequest (role : Role) (endpoint : Endpoint) : HttpRequest :=
  ⟨some (createAccessToken plainCryptography localDevSecret ⟨role.value, role⟩ 0), 1, endpoint⟩

/-- It is recognised. -/
theorem currentUser_sampleRequest (role : Role) (endpoint : Endpoint) :
    sampleDeployment.currentUser (sampleRequest role endpoint) = .ok ⟨role.value, role⟩ := by
  have huser : sampleDeployment.currentUser (sampleRequest role endpoint) =
      getCurrentUser plainCryptography localDevSecret
        (createAccessToken plainCryptography localDevSecret ⟨role.value, role⟩ 0) 1 :=
    sampleDeployment.currentUser_of_token rfl
  rw [huser, currentUser_createAccessToken readsTokens_plainCryptography, if_pos (by decide)]

/-- A customer deposits while others read. -/
def sampleCalls (others : List (Role × Endpoint)) : List HttpRequest :=
  sampleRequest .customer (.postTransaction sampleDeposit (sampleGenerated 1)) ::
    others.map fun other => sampleRequest other.1 other.2

/-- A customer deposits between the statements of others. -/
def lateReadsRun : Option ServiceWorld :=
  sampleDeployment.service.run (fun _ _ => True) sampleDatabase
    (sampleCalls [(.customer, .getBalance 2), (.auditor, .auditChain), (.customer, .status)])
    ([1, 3, 3] ++ List.replicate 13 0 ++ [1, 1, 2, 2, 3, 3, 3])

theorem lateReadsRun_outcome :
    (lateReadsRun.map fun w => (w.slots.map Slot.answer).tail) =
      some [some (.balance ⟨2, ⟨1000, -2⟩⟩), some (.chain ⟨.pass, 1, none, some []⟩),
        some (.status ⟨2, 0, 2, 1⟩)] := by
  decide +kernel

end LedgerApi
