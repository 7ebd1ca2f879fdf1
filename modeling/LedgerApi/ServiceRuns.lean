import LedgerApi.Endpoints

/-! # Runs of the service

What carries over from the writers, and what readers see. Every run of the service is a run of the
writers and the relays with the same tables and messages (`service_refines_api`), so the tables stay
consistent and grow (`moments_of_service`). What a request that reads answers, it answers along the
run; most endpoints answer as on the tables of a single moment of it (`answers_linearizable`), and
the audit and `status` are as exact as their separate statements allow
(`audit_of_service`, `status_of_service`). -/

namespace LedgerApi

open Sessions System

variable {D : Deployment} {db₀ : Database} {w w₁ : ServiceWorld} {i : ℕ} {r : HttpRequest}
  {res : Except WebExn Answer} {answer : Answer}

/-! ## Refinement -/

/-- A handler that writes answers with what its request is answered. -/
theorem Deployment.handler_write {now : Timestamp} {endpoint : Endpoint} {request : Request}
    {result : Response → Answer} (h : D.handler now endpoint = .write request result) :
    result = .ofResponse := by
  cases endpoint <;> cases h <;> rfl

/-- A request that writes runs one of `api`. -/
theorem Deployment.task_of_writer {r : HttpRequest} {request : Request}
    (h : D.writer r = some request) : D.task r = .write request .ofResponse := by
  unfold writer Extension.writer at h
  cases htask : D.extension.task r with
  | write call result =>
      rw [htask] at h
      obtain rfl := Option.some.inj h
      have hhandler : D.task r = .write call result := htask
      unfold task at hhandler
      split at hhandler
      · cases hhandler
      · obtain rfl := handler_write hhandler
        exact htask
  | read x =>
      rw [htask] at h
      cases h

/-- **The service refines the application**: every run of it is a run of the writers and the relays
with the same tables, the same messages and the same log, in which the same requests are answered
alike. -/
theorem service_refines_api (h : D.service.Reachable (World.init db₀) w) :
    ∃ w', (api D.H).Reachable (World.init db₀) w' ∧ w'.shared.store = w.shared.store ∧
      w'.shared.sent = w.shared.sent ∧ w'.shared.log = w.shared.log.filterMap D.writer ∧
      ∀ (i : ℕ) r request res, D.writer r = some request →
        w.slots[i]? = some (.finished r (Store.verdict res)) →
        ∃ res', w'.slots[i]? = some (.finished request (Store.verdict res')) ∧
          res = (res'.map Answer.ofResponse).mapError WebExn.handler := by
  obtain ⟨w', hw', hshadows⟩ := Extension.exists_shadow h
  refine ⟨w', hw', hshadows.store, hshadows.sent, hshadows.log, fun i r request res hr hend => ?_⟩
  exact hshadows.answered (D.task_of_writer hr) hend

/-- The writers and the relays behind a run. -/
theorem service_refines_api_lateReadsRun :
    ∃ w w', lateReadsRun = some w ∧ (api sha256).Reachable (World.init sampleDatabase) w' ∧
      w'.shared.store = w.shared.store ∧ w'.shared.sent = w.shared.sent ∧
      w'.shared.log = w.shared.log.filterMap sampleDeployment.writer ∧
      ∀ (i : ℕ) r request res, sampleDeployment.writer r = some request →
        w.slots[i]? = some (.finished r (Store.verdict res)) →
        ∃ res', w'.slots[i]? = some (.finished request (Store.verdict res')) ∧
          res = (res'.map Answer.ofResponse).mapError WebExn.handler := by
  obtain ⟨w, hw, -⟩ := Option.map_eq_some_iff.mp lateReadsRun_outcome
  obtain ⟨w', h⟩ := service_refines_api (Reaches.of_run hw).reachable
  exact ⟨w, w', hw, h⟩

/-- The tables stay consistent behind the endpoints. -/
theorem consistent_of_service (h₀ : Reachable D.H db₀)
    (h : D.service.Reachable (World.init db₀) w) : Consistent D.H w.shared.store := by
  obtain ⟨w', hw', hshadows⟩ := Extension.exists_shadow h
  rw [← hshadows.store]
  exact consistent_of_api h₀ hw'

/-- **The moments of a run**: from every world on, consistent tables that grow. -/
theorem moments_of_service (h₀ : Reachable D.H db₀) (h : D.service.Reachable (World.init db₀) w) :
    Moments D.H World.store D.service.Reachable w where
  consistent := consistent_of_service h₀ h
  grows _ _ hb hc :=
    Extension.rel_of_reachable (fun _ _ hw hv => grows_of_api hw hv) (h.trans hb) hc

/-! ## Admission -/

/-- Who is refused runs no handler. -/
theorem Deployment.task_of_error {r : HttpRequest} {e : WebExn} (h : D.authorize r = .error e) :
    D.task r = .read (.raise e) := by
  unfold task
  rw [h]

/-- Who is admitted runs the handler. -/
theorem Deployment.task_of_ok {r : HttpRequest} (h : D.authorize r = .ok ()) :
    D.task r = D.handler r.clock r.endpoint := by
  unfold task
  rw [h]

/-- A refused request writes nothing. -/
theorem Deployment.authorize_of_writer {r : HttpRequest} {request : Request}
    (h : D.writer r = some request) : D.authorize r = .ok () := by
  have htask := D.task_of_writer h
  cases hauth : D.authorize r with
  | error e =>
      rw [D.task_of_error hauth] at htask
      cases htask
  | ok _ => rfl

/-- **Refusal**: a request that is not admitted ends with the exception of its dependencies, unless
it is lost. -/
theorem refused (h : D.service.Reachable (World.init db₀) w) {e : WebExn}
    (hauth : D.authorize r = .error e)
    (hend : w.slots[i]? = some (.finished r (Store.verdict res))) : res = .error e := by
  have halong := Extension.along (X := D.extension) h (Nat.zero_le i) hend (D.task_of_error hauth)
  exact (along_raise_iff.mp halong).1

/-- Who was answered was admitted. -/
theorem authorize_of_returned (h : D.service.Reachable (World.init db₀) w)
    (hend : w.slots[i]? = some (.finished r (.returned answer))) : D.authorize r = .ok () := by
  cases hauth : D.authorize r with
  | error e =>
      have hrefused : (Except.ok answer : Except WebExn Answer) = .error e := refused h hauth hend
      cases hrefused
  | ok _ => rfl

/-! ## Readers -/

/-- What the endpoints that read answer with. -/
def Endpoint.Gives : Endpoint → Answer → Prop
  | login _ _, .token _ => True
  | getAccount _, .account _ => True
  | getBalance _, .balance _ => True
  | listTransactions _ _ _ _, .transactions _ => True
  | listEntries _ _ _, .entries _ => True
  | getStatement _ _ _, .statement _ => True
  | outboxPending _, .pending _ => True
  | auditVerify, .audit _ => True
  | auditChain, .chain _ => True
  | status, .status _ => True
  | health, .health => True
  | _, _ => False

/-- They do. -/
theorem gives_of_along {now : Timestamp} {endpoint : Endpoint} {x : Prog webReads Answer} {σ : Type}
    {ans : σ → (q : webReads.Stmt) → webReads.Reply q} {R : σ → σ → Prop} {s s' : σ}
    (hx : D.handler now endpoint = .read x) (halong : Along ans R x s (.ok answer) s') :
    endpoint.Gives answer := by
  cases endpoint with
  | login username password =>
      obtain rfl := Task.read.inj hx
      unfold Deployment.login at halong
      split at halong
      · cases (along_raise_iff.mp halong).1
      · obtain rfl := Except.ok.inj (along_ret_iff.mp halong).1
        exact trivial
  | postAccount data id now => cases hx
  | postTransaction data gen => cases hx
  | outboxPublish limit accepts now => cases hx
  | health =>
      obtain rfl := Task.read.inj hx
      obtain rfl := Except.ok.inj (along_ret_iff.mp halong).1
      exact trivial
  -- the others answer with what their handlers return
  | _ =>
      obtain rfl := Task.read.inj hx
      obtain ⟨a, rfl⟩ := halong.exists_eq
      exact trivial

/-- A request reads, or it runs one of `api`. -/
theorem Deployment.task_cases (r : HttpRequest) :
    (∃ x, D.task r = .read x ∧ D.writer r = none) ∨
      ∃ request, D.task r = .write request .ofResponse ∧ D.writer r = some request := by
  unfold writer Extension.writer
  cases htask : D.task r with
  | read x =>
      have htask' : D.extension.task r = .read x := htask
      exact Or.inl ⟨x, rfl, by rw [htask']⟩
  | write request result =>
      have htask' : D.extension.task r = .write request result := htask
      have hwriter : D.writer r = some request := by
        unfold writer Extension.writer
        rw [htask']
      exact Or.inr ⟨request, htask.symm.trans (D.task_of_writer hwriter), by rw [htask']⟩

/-- A request that was started in the world `w₁` or later, in slot `i`, and has ended in the world
`w` with the result `res`. -/
structure Served (D : Deployment) (db₀ : Database) (w₁ w : ServiceWorld) (i : ℕ) (r : HttpRequest)
    (res : Except WebExn Answer) : Prop where
  initial : Reachable D.H db₀
  before : D.service.Reachable (World.init db₀) w₁
  meanwhile : D.service.Reachable w₁ w
  late : w₁.slots.length ≤ i
  ended : w.slots[i]? = some (.finished r (Store.verdict res))

/-- The moments between its start and its end. -/
theorem Served.moments (h : Served D db₀ w₁ w i r res) :
    Moments D.H World.store D.service.Reachable w₁ :=
  moments_of_service h.initial h.before

/-- Who was answered runs the handler. -/
theorem Served.task_eq (h : Served D db₀ w₁ w i r (.ok answer)) :
    D.task r = D.handler r.clock r.endpoint :=
  D.task_of_ok (authorize_of_returned (h.before.trans h.meanwhile) h.ended)

section Readers

variable {α : Type} {f : α → Answer}

/-- A handler that reads is evaluated along the run. -/
theorem Served.readAlong (h : Served D db₀ w₁ w i r res) {x : Prog reads α}
    (htask : D.task r = .read (x.translate reading f)) :
    ∃ res₀, ReadAlong D.planner World.store D.service.Reachable x w₁ res₀ w ∧
      res = (res₀.map f).mapError WebExn.handler :=
  (along_translate_iff fun _ _ => rfl).mp
    (Extension.along (X := D.extension) h.meanwhile h.late h.ended htask)

/-- So is an audit. -/
theorem Served.auditAlong (h : Served D db₀ w₁ w i r res) {x : Prog auditReads α}
    (htask : D.task r = .read (x.translate auditing f)) :
    ∃ res₀, AuditAlong World.store D.service.Reachable x w₁ res₀ w ∧
      res = (res₀.map f).mapError WebExn.handler :=
  (along_translate_iff fun _ _ => rfl).mp
    (Extension.along (X := D.extension) h.meanwhile h.late h.ended htask)

end Readers

/-! ## Computed runs -/

/-- What is answered in a computed part of a run, to calls after the earlier ones. -/
theorem served_of_runFrom {earlier calls : List HttpRequest} {is : List ℕ}
    (hbefore : sampleDeployment.service.Reachable (World.init sampleDatabase) w₁)
    (hearlier : w₁.slots.map Slot.call = earlier)
    (h : sampleDeployment.service.runFrom (fun _ _ => True) w₁ calls is = some w)
    (hlate : earlier.length ≤ i) (hr : (earlier ++ calls)[i]? = some r)
    (hanswer : (w.slots[i]?).bind Slot.answer = some answer) :
    Served sampleDeployment sampleDatabase w₁ w i r (.ok answer) := by
  have hcalls := calls_of_runFrom h
  rw [hearlier] at hcalls
  have hmeanwhile : sampleDeployment.service.Reachable w₁ w := Reaches.refl.of_runFrom h
  refine ⟨.initial initial_sampleDatabase, hbefore, hmeanwhile, ?_, ?_⟩
  · rwa [← List.length_map Slot.call, hearlier]
  · exact finished_of_answer ((congrArg (·[i]?) hcalls).trans hr) hanswer

/-- What is answered in a computed run. -/
theorem served_of_run {calls : List HttpRequest} {is : List ℕ}
    (h : sampleDeployment.service.run (fun _ _ => True) sampleDatabase calls is = some w)
    (hr : calls[i]? = some r) (hanswer : (w.slots[i]?).bind Slot.answer = some answer) :
    Served sampleDeployment sampleDatabase (World.init sampleDatabase) w i r (.ok answer) :=
  served_of_runFrom .refl rfl h (Nat.zero_le i) hr hanswer

/-- What the others are answered. -/
theorem served_lateReadsRun :
    ∃ w, lateReadsRun = some w ∧
      Served sampleDeployment sampleDatabase (World.init sampleDatabase) w 1
        (sampleRequest .customer (.getBalance 2)) (.ok (.balance ⟨2, ⟨1000, -2⟩⟩)) ∧
      Served sampleDeployment sampleDatabase (World.init sampleDatabase) w 2
        (sampleRequest .auditor .auditChain) (.ok (.chain ⟨.pass, 1, none, some []⟩)) ∧
      Served sampleDeployment sampleDatabase (World.init sampleDatabase) w 3
        (sampleRequest .customer .status) (.ok (.status ⟨2, 0, 2, 1⟩)) := by
  obtain ⟨w, hw, houtcome⟩ := Option.map_eq_some_iff.mp lateReadsRun_outcome
  have hanswer : ∀ i : ℕ, (w.slots[i + 1]?).map Slot.answer =
      [some (Answer.balance ⟨2, ⟨1000, -2⟩⟩), some (.chain ⟨.pass, 1, none, some []⟩),
        some (.status ⟨2, 0, 2, 1⟩)][i]? := by
    intro i
    rw [← houtcome, List.getElem?_tail, List.getElem?_map]
  have hserved : ∀ (i : ℕ) {r answer}, (sampleCalls [(.customer, .getBalance 2),
      (.auditor, .auditChain), (.customer, .status)])[i + 1]? = some r →
      (w.slots[i + 1]?).map Slot.answer = some (some answer) →
      Served sampleDeployment sampleDatabase (World.init sampleDatabase) w (i + 1) r
        (.ok answer) := by
    intro i r answer hr h
    obtain ⟨slot, hslot, h⟩ := Option.map_eq_some_iff.mp h
    exact served_of_run hw hr (Option.bind_eq_some_iff.mpr ⟨slot, hslot, h⟩)
  exact ⟨w, hw, hserved 0 rfl (hanswer 0), hserved 1 rfl (hanswer 1), hserved 2 rfl (hanswer 2)⟩

/-! ## Requests that read at one moment -/

/-- The endpoint reads at one moment: it is not one that compares or collects counts, and the cursor
it is given is that of a row. -/
def Endpoint.Settled (db : Database) : Endpoint → Prop
  | listTransactions _ _ cursor _ => ∀ id ∈ cursor, id ∈ db.transactions.map (·.id)
  | listEntries _ cursor _ => ∀ id ∈ cursor, id ∈ db.ledgerEntries.map (·.id)
  | auditVerify => False
  | status => False
  | _ => True

/-- A handler that reads at one moment is linearizable. -/
theorem linearizableFrom_handler {now : Timestamp} {endpoint : Endpoint} {x : Prog webReads Answer}
    (hm : Moments D.H World.store D.service.Reachable w₁) (hsettled : endpoint.Settled w₁.store)
    (hx : D.handler now endpoint = .read x) :
    LinearizableFrom D.extension.answerIn D.service.Reachable x w₁ := by
  cases endpoint with
  | login username password =>
      obtain rfl := Task.read.inj hx
      apply linearizableFrom_ended
      unfold Deployment.login
      split
      · exact .raise _
      · exact .ret _
  | postAccount data id now => cases hx
  | getAccount accountId =>
      obtain rfl := Task.read.inj hx
      exact (readsOnce_findAccount accountId).translate fun _ _ => rfl
  | getBalance accountId =>
      obtain rfl := Task.read.inj hx
      exact (readsOnce_getBalance hm accountId).translate fun _ _ => rfl
  | postTransaction data gen => cases hx
  | listTransactions accountId type cursor limit =>
      obtain rfl := Task.read.inj hx
      exact (readsOnce_listTransactions hm accountId type limit hsettled).translate fun _ _ => rfl
  | listEntries accountId cursor limit =>
      obtain rfl := Task.read.inj hx
      exact (readsOnce_listEntries hm accountId limit hsettled).translate fun _ _ => rfl
  | getStatement accountId fromDate toDate =>
      obtain rfl := Task.read.inj hx
      exact (readsOnce_getStatement hm accountId fromDate toDate).translate fun _ _ => rfl
  | outboxPending limit =>
      obtain rfl := Task.read.inj hx
      exact (readsOnce_outboxPending limit).translate fun _ _ => rfl
  | outboxPublish limit accepts now => cases hx
  | auditVerify => exact hsettled.elim
  | auditChain =>
      obtain rfl := Task.read.inj hx
      exact (auditsOnce_verifyHashChainSession w₁).translate fun _ _ => rfl
  | status => exact hsettled.elim
  | health =>
      obtain rfl := Task.read.inj hx
      exact linearizableFrom_ended (.ret _) w₁

/-- **Requests that read** answer as they do alone on the tables of one moment between their start
and their end, whatever runs beside them. -/
theorem answers_linearizable (h : Served D db₀ w₁ w i r res) (hread : D.writer r = none)
    (hsettled : r.endpoint.Settled w₁.store) :
    ∃ m, D.service.Reachable w₁ m ∧ D.service.Reachable m w ∧
      D.answerOn m.store r = some res := by
  rcases D.task_cases r with ⟨x, htask, -⟩ | ⟨request, -, hwrite⟩
  · have hlinear : LinearizableFrom D.extension.answerIn D.service.Reachable x w₁ := by
      cases hauth : D.authorize r with
      | error e =>
          rw [D.task_of_error hauth] at htask
          obtain rfl := Task.read.inj htask
          exact linearizableFrom_ended (Prog.Ended.raise (S := webReads) e) w₁
      | ok _ =>
          rw [D.task_of_ok hauth] at htask
          exact linearizableFrom_handler h.moments hsettled htask
    obtain ⟨m, hm, hmw, rfl⟩ :=
      hlinear _ _ (Extension.along (X := D.extension) h.meanwhile h.late h.ended htask)
    refine ⟨m, hm, hmw, ?_⟩
    unfold Deployment.answerOn
    rw [htask]
    rfl
  · rw [hread] at hwrite
    cases hwrite

/-- The balance of the run is one of a single moment. -/
theorem answers_linearizable_lateReadsRun :
    ∃ w m, lateReadsRun = some w ∧
      sampleDeployment.service.Reachable (World.init sampleDatabase) m ∧
      sampleDeployment.service.Reachable m w ∧
      sampleDeployment.answerOn m.store (sampleRequest .customer (.getBalance 2)) =
        some (.ok (.balance ⟨2, ⟨1000, -2⟩⟩)) := by
  obtain ⟨w, hw, hserved, -⟩ := served_lateReadsRun
  obtain ⟨m, hm⟩ := answers_linearizable hserved (by decide +kernel) trivial
  exact ⟨w, m, hw, hm⟩

/-- **Balances that are answered** are those of one moment, and no customer's is negative. -/
theorem balance_of_service (h : Served D db₀ w₁ w i r (.ok answer)) {accountId : UUID}
    (hr : r.endpoint = .getBalance accountId) :
    ∃ m account, D.service.Reachable w₁ m ∧ D.service.Reachable m w ∧
      account ∈ m.store.accounts ∧ account.id = accountId ∧
      answer = .balance ⟨accountId, coalesceSum (m.store.amounts accountId)⟩ ∧
      (account.name ≠ externalClearingName →
        ¬ coalesceSum (m.store.amounts accountId) < decimalZero) := by
  have htask : D.task r = .read ((getBalance accountId).translate reading .balance) := by
    rw [h.task_eq, hr]
    rfl
  obtain ⟨res₀, hread, hres⟩ := h.readAlong htask
  obtain ⟨m, hm, hmw, rfl⟩ := readsOnce_getBalance h.moments accountId _ _ hread
  dsimp only at hres
  rw [answered_getBalance] at hres
  cases hfound : m.store.accountById accountId with
  | none =>
      rw [hfound] at hres
      cases hres
  | some account =>
      rw [hfound] at hres
      have hmem := List.mem_of_find?_eq_some hfound
      have hfind : m.store.accounts.find? (·.id = accountId) = some account := hfound
      have hid : account.id = accountId := by simpa using List.find?_some hfind
      refine ⟨m, account, hm, hmw, hmem, hid, Except.ok.inj hres, fun hname => ?_⟩
      rw [coalesceSum_lt_zero_iff, not_lt, ← hid]
      exact (h.moments.later hm).consistent.funds account hmem hname

/-- The balance that is answered in the run. -/
theorem balance_of_service_lateReadsRun :
    ∃ (w m : ServiceWorld) (account : Account),
      sampleDeployment.service.Reachable (World.init sampleDatabase) m ∧
      sampleDeployment.service.Reachable m w ∧ account ∈ m.store.accounts ∧ account.id = 2 ∧
      Answer.balance ⟨2, ⟨1000, -2⟩⟩ = .balance ⟨2, coalesceSum (m.store.amounts 2)⟩ ∧
      (account.name ≠ externalClearingName →
        ¬ coalesceSum (m.store.amounts 2) < decimalZero) := by
  obtain ⟨w, -, hserved, -⟩ := served_lateReadsRun
  obtain ⟨m, account, h⟩ := balance_of_service hserved rfl
  exact ⟨w, m, account, h⟩

/-! ## Requests that read at several moments -/

/-- **The audit, behind its endpoint**: whatever runs beside it, it reports no discrepancy but
between counts that meet the tables of different moments. -/
theorem audit_of_service (h : Served D db₀ w₁ w i r (.ok answer)) (hr : r.endpoint = .auditVerify) :
    ∃ report total unique entry txn, answer = .audit report ∧ D.service.Reachable w₁ total ∧
      D.service.Reachable total unique ∧ D.service.Reachable unique entry ∧
      D.service.Reachable entry txn ∧ D.service.Reachable txn w ∧
      ReportsOn w₁.store.accounts total.store unique.store entry.store txn.store report := by
  have htask : D.task r = .read (verifyLedgerSession.translate auditing .audit) := by
    rw [h.task_eq, hr]
    rfl
  obtain ⟨res₀, haudit, hres⟩ := h.auditAlong htask
  obtain ⟨report, total, unique, entry, txn, rfl, hmoments⟩ := live_audit h.moments haudit
  exact ⟨report, total, unique, entry, txn, Except.ok.inj hres, hmoments⟩

/-- The verdict of an audit. -/
def Answer.verdict : Answer → Option Status
  | audit report => some report.status
  | chain report => some report.status
  | _ => none

/-- A customer deposits between two counts of an audit. -/
def lateAuditRun : Option ServiceWorld :=
  sampleDeployment.service.run (fun _ _ => True) sampleDatabase
    (sampleCalls [(.auditor, .auditVerify)])
    (List.replicate 10 1 ++ List.replicate 13 0 ++ List.replicate 4 1)

theorem lateAuditRun_outcome :
    (lateAuditRun.bind fun w => ((w.slots[1]?).bind Slot.answer).bind Answer.verdict) =
      some .fail := by
  decide +kernel

/-- The audit of the run raises a false alarm. -/
theorem audit_of_service_lateAuditRun :
    ∃ (w : ServiceWorld) (report : AuditReport) (total unique entry txn : ServiceWorld),
      report.status = .fail ∧
      sampleDeployment.service.Reachable (World.init sampleDatabase) total ∧
      sampleDeployment.service.Reachable total unique ∧
      sampleDeployment.service.Reachable unique entry ∧
      sampleDeployment.service.Reachable entry txn ∧ sampleDeployment.service.Reachable txn w ∧
      ReportsOn sampleDatabase.accounts total.store unique.store entry.store txn.store report := by
  obtain ⟨w, hw, houtcome⟩ := Option.bind_eq_some_iff.mp lateAuditRun_outcome
  obtain ⟨answer, hanswer, hfail⟩ := Option.bind_eq_some_iff.mp houtcome
  obtain ⟨report, total, unique, entry, txn, rfl, hmoments⟩ :=
    audit_of_service (served_of_run hw (i := 1) rfl hanswer) rfl
  exact ⟨w, report, total, unique, entry, txn, Option.some.inj hfail, hmoments⟩

/-- **The chain audit, behind its endpoint**: it always passes, over all transactions of a moment.
-/
theorem chain_audit_of_service (h : Served D db₀ w₁ w i r (.ok answer))
    (hr : r.endpoint = .auditChain) :
    ∃ report m, answer = .chain report ∧ D.service.Reachable w₁ m ∧ D.service.Reachable m w ∧
      report.status = .pass ∧ report.chainLength = m.store.transactions.length := by
  have htask : D.task r = .read ((verifyHashChainSession D.H).translate auditing .chain) := by
    rw [h.task_eq, hr]
    rfl
  obtain ⟨res₀, haudit, hres⟩ := h.auditAlong htask
  obtain ⟨report, m, rfl, hmoment⟩ := live_chain_audit h.moments haudit
  exact ⟨report, m, Except.ok.inj hres, hmoment⟩

/-- The chain audit of the run. -/
theorem chain_audit_of_service_lateReadsRun :
    ∃ (w m : ServiceWorld) (report : ChainReport),
      Answer.chain ⟨.pass, 1, none, some []⟩ = .chain report ∧
      sampleDeployment.service.Reachable (World.init sampleDatabase) m ∧
      sampleDeployment.service.Reachable m w ∧
      report.status = .pass ∧ report.chainLength = m.store.transactions.length := by
  obtain ⟨w, -, -, hserved, -⟩ := served_lateReadsRun
  obtain ⟨report, m, h⟩ := chain_audit_of_service hserved rfl
  exact ⟨w, m, report, h⟩

/-- **The counts of `status`, behind its endpoint**. -/
theorem status_of_service (h : Served D db₀ w₁ w i r (.ok answer)) (hr : r.endpoint = .status) :
    ∃ counts m₁ m₂ m₃ m₄, answer = .status counts ∧ D.service.Reachable w₁ m₁ ∧
      D.service.Reachable m₁ m₂ ∧ D.service.Reachable m₂ m₃ ∧ D.service.Reachable m₃ m₄ ∧
      D.service.Reachable m₄ w ∧
      counts = ⟨m₁.store.accounts.length, m₂.store.transactions.length,
        m₃.store.ledgerEntries.length,
        m₄.store.outboxEvents.countP (·.publishedAt = none)⟩ ∧
      counts.transactions * 2 ≤ counts.ledgerEntries ∧
      (counts.ledgerEntries = counts.transactions * 2 ↔
        m₃.store.transactions = m₂.store.transactions) := by
  have htask : D.task r = .read (LedgerApi.status.translate reading .status) := by
    rw [h.task_eq, hr]
    rfl
  obtain ⟨res₀, hread, hres⟩ := h.readAlong htask
  obtain ⟨counts, m₁, m₂, m₃, m₄, rfl, hmoments⟩ := live_status h.moments hread
  exact ⟨counts, m₁, m₂, m₃, m₄, Except.ok.inj hres, hmoments⟩

/-- `status` counts two entries and no transaction in the run. -/
theorem status_of_service_lateReadsRun :
    ∃ (w m₁ m₂ m₃ m₄ : ServiceWorld) (counts : StatusCounts),
      Answer.status ⟨2, 0, 2, 1⟩ = .status counts ∧
      sampleDeployment.service.Reachable (World.init sampleDatabase) m₁ ∧
      sampleDeployment.service.Reachable m₁ m₂ ∧ sampleDeployment.service.Reachable m₂ m₃ ∧
      sampleDeployment.service.Reachable m₃ m₄ ∧ sampleDeployment.service.Reachable m₄ w ∧
      counts = ⟨m₁.store.accounts.length, m₂.store.transactions.length,
        m₃.store.ledgerEntries.length,
        m₄.store.outboxEvents.countP (·.publishedAt = none)⟩ ∧
      counts.transactions * 2 ≤ counts.ledgerEntries ∧
      (counts.ledgerEntries = counts.transactions * 2 ↔
        m₃.store.transactions = m₂.store.transactions) := by
  obtain ⟨w, -, -, -, hserved⟩ := served_lateReadsRun
  obtain ⟨counts, m₁, m₂, m₃, m₄, h⟩ := status_of_service hserved rfl
  exact ⟨w, m₁, m₂, m₃, m₄, counts, h⟩

end LedgerApi
