import LedgerApi.AuditSoundness
import LedgerApi.EntryListing
import LedgerApi.ServiceRuns

/-! # Listings, as clients of the service meet them

A client that follows `next_cursor` through `GET /transactions` or `GET /accounts/{id}/entries`
(`Follows`). Each page is a request of its own, which looks up its cursor and then reads the page,
in two statements or three, while others write. A cursor that the service gave out is that of a row,
and rows stay; so each page is one of a single moment, and what the client was given is a walk
through the pages of a growing table (`Follows.walk`).

Entries are listed by their ids, so no entry is missed or listed twice (`entries_listed`).
Transactions are listed by `created_at`, the time at which a transaction began, so what commits
meanwhile can be older than what has been listed; as long as no two share their `created_at`, no
transaction that was there at the start is missed, and none is listed twice
(`transactions_listed`). -/

namespace LedgerApi

open Sessions System Paging

variable {D : Deployment} {db₀ : Database} {w₁ w m : ServiceWorld} {i : ℕ} {r : HttpRequest}

/-! ## The client -/

/-- A client follows `next_cursor` to the end. It may wait between two requests, and use another
token. -/
inductive Follows {α : Type} (D : Deployment) (db₀ : Database) (endpoint : Option UUID → Endpoint)
    (answer : PaginatedResponse α → Answer) :
    ServiceWorld → Option UUID → List (List α) → ServiceWorld → Prop
  | last {w₁ w : ServiceWorld} {i : ℕ} {r : HttpRequest} {cursor : Option UUID} {items : List α}
      (h : Served D db₀ w₁ w i r (.ok (answer ⟨items, none⟩))) (hr : r.endpoint = endpoint cursor) :
      Follows D db₀ endpoint answer w₁ cursor [items] w
  | next {w₁ w v : ServiceWorld} {i : ℕ} {r : HttpRequest} {cursor : Option UUID} {items : List α}
      {nextCursor : String} {id : UUID} {rest : List (List α)}
      (h : Served D db₀ w₁ w i r (.ok (answer ⟨items, some nextCursor⟩)))
      (hr : r.endpoint = endpoint cursor) (hid : UUID.parse nextCursor = some id)
      (hrest : Follows D db₀ endpoint answer w (some id) rest v) :
      Follows D db₀ endpoint answer w₁ cursor (items :: rest) v

section Follows

variable {Row α K : Type} [LinearOrder K] {key : Row → K} {limit : ℕ} {item : Row → α}
  {id : Row → UUID} {endpoint : Option UUID → Endpoint} {answer : PaginatedResponse α → Answer}
  {cursor : Option UUID} {bound : Option K} {pages : List (List α)}

/-- A page that is answered is one of the tables of a moment. -/
def PageAt (key : Row → K) (limit : ℕ) (item : Row → α) (id : Row → UUID) (table : List Row)
    (bound : Option K) (response : PaginatedResponse α) : Prop :=
  ∃ order, response = ⟨(page key order limit table bound).1.map item,
    (page key order limit table bound).2.map fun row => (id row).str⟩

/-- **What the client is given** is a walk through the pages, if each request answers with a page of
a single moment, and the last row of a page stays. -/
theorem Follows.walk (rows : Database → List Row)
    (Cursor : Database → Option UUID → Option K → Prop)
    (h : Follows D db₀ endpoint answer w₁ cursor pages w)
    (hserved : ∀ {w₁ w i r cursor bound response}, Served D db₀ w₁ w i r (.ok (answer response)) →
      r.endpoint = endpoint cursor → Cursor w₁.store cursor bound →
      ∃ m, D.service.Reachable w₁ m ∧ D.service.Reachable m w ∧
        PageAt key limit item id (rows m.store) bound response)
    (hstay : ∀ {m w : ServiceWorld}, Moments D.H World.store D.service.Reachable m →
      D.service.Reachable m w →
      ∀ row ∈ rows m.store, Cursor w.store (some (id row)) (some (key row)))
    (hcursor : Cursor w₁.store cursor bound) :
    ∃ walked, pages = walked.map (List.map item) ∧
      Walk key limit D.service.Reachable (fun m => rows m.store) w₁ bound walked w := by
  induction h generalizing bound with
  | @last w₁ w i r cursor items h hr =>
      obtain ⟨m, hm, hmw, order, hpage⟩ := hserved h hr hcursor
      obtain ⟨hitems, hlast⟩ := PaginatedResponse.mk.inj hpage
      refine ⟨[_], congrArg (fun items => [items]) hitems, ?_⟩
      exact .last order hm (Prod.ext rfl (Option.map_eq_none_iff.mp hlast.symm)) hmw
  | @next w₁ w v i r cursor items nextCursor c rest h hr hid hrest ih =>
      obtain ⟨m, hm, hmw, order, hpage⟩ := hserved h hr hcursor
      obtain ⟨hitems, hnext⟩ := PaginatedResponse.mk.inj hpage
      obtain ⟨last, hlast, rfl⟩ := Option.map_eq_some_iff.mp hnext.symm
      obtain rfl := Option.some.inj ((UUID.parse_str (id last)).symm.trans hid)
      obtain ⟨walked, rfl, hwalk⟩ := ih (hstay (h.moments.later hm) hmw last (mem_of_page hlast))
      refine ⟨_ :: walked, congrArg (· :: walked.map (List.map item)) hitems, ?_⟩
      exact .next order hm (Prod.ext rfl hlast) hmw hwalk

end Follows

/-- The moments from its start on. -/
theorem Follows.moments {α : Type} {endpoint : Option UUID → Endpoint}
    {answer : PaginatedResponse α → Answer} {cursor : Option UUID} {pages : List (List α)}
    (h : Follows D db₀ endpoint answer w₁ cursor pages w) :
    Moments D.H World.store D.service.Reachable w₁ := by
  cases h with
  | last h => exact h.moments
  | next h => exact h.moments

/-- What a handler that reads at one moment answers, it answers on the tables of that moment. -/
theorem Served.exists_read {α : Type} {f : α → Answer} {res : Except WebExn Answer}
    (h : Served D db₀ w₁ w i r res) {x : Prog reads α}
    (htask : D.task r = .read (x.translate reading f)) (hcommits : x.CommitsAtMost 0)
    (honce : ReadsOnce D.planner World.store D.service.Reachable x w₁) :
    ∃ m, D.service.Reachable w₁ m ∧ D.service.Reachable m w ∧
      res = ((read D.planner m.store x).map f).mapError WebExn.handler := by
  obtain ⟨res₀, hread, hres⟩ := h.readAlong htask
  obtain ⟨m, hm, hmw, hanswer⟩ := honce _ _ hread
  refine ⟨m, hm, hmw, ?_⟩
  rw [hres, hanswer, read_eq_answered hcommits]

/-! ## A client that lists -/

/-- A withdrawal, and requests for the first page of each listing. -/
def firstPageCalls : List HttpRequest := [
  sampleRequest .customer (.postTransaction
    (sampleWithdrawal "withdrawal-1" validLength_withdrawalKey) (sampleGenerated 2)),
  sampleRequest .auditor (.listTransactions none none none 1),
  sampleRequest .auditor (.listEntries 2 none 1)]

/-- Requests for the second pages, and another deposit. -/
def secondPageCalls : List HttpRequest := [
  sampleRequest .auditor (.listTransactions none none (some 22) 1),
  sampleRequest .auditor (.listEntries 2 (some 14) 1),
  sampleRequest .customer (.postTransaction laterDeposit (sampleGenerated 3))]

/-- A deposit is made before the first pages, and one between the statements of the second pages. -/
def listingRun : Option (ServiceWorld × ServiceWorld × ServiceWorld) :=
  (sampleDeployment.service.run (fun _ _ => True) sampleDatabase (sampleCalls [])
    (List.replicate 13 0)).bind fun w₁ =>
  (sampleDeployment.service.runFrom (fun _ _ => True) w₁ firstPageCalls
    (List.replicate 14 1 ++ List.replicate 2 2 ++ List.replicate 3 3)).bind fun w₂ =>
  (sampleDeployment.service.runFrom (fun _ _ => True) w₂ secondPageCalls
    ([4, 5, 5, 5] ++ List.replicate 13 6 ++ [4, 4, 5])).map fun w₃ => (w₁, w₂, w₃)

/-- The tables when the listings start and when they end. -/
theorem listingRun_tables :
    listingRun.map (fun v => (v.1.store.transactions, (v.1.store.entriesOn 2).map (·.id),
        v.2.2.store.transactions.map (·.createdAt), (v.2.2.store.entriesOn 2).map (·.id))) =
      some (sampleRows.take 1, [14], [1, 2, 3], [14, 23, 34]) := by
  decide +kernel

/-- The pages. -/
theorem listingRun_outcome :
    listingRun.map (fun v =>
        ((v.2.1.slots[2]?).bind Slot.answer, (v.2.1.slots[3]?).bind Slot.answer,
          (v.2.2.slots[4]?).bind Slot.answer, (v.2.2.slots[5]?).bind Slot.answer)) =
      some (some (.transactions ⟨(sampleRows.drop 1).map Transaction.load, some (UUID.str 22)⟩),
        some (.entries ⟨[⟨14, 12, 2, 1000⟩], some (UUID.str 14)⟩),
        some (.transactions ⟨(sampleRows.take 1).map Transaction.load, none⟩),
        some (.entries ⟨[⟨23, 22, 2, -750⟩], none⟩)) := by
  decide +kernel

/-- Both listings have been followed to the end. -/
theorem follows_listingRun {w₁ w₂ w₃ : ServiceWorld} (h : listingRun = some (w₁, w₂, w₃)) :
    Follows sampleDeployment sampleDatabase (.listTransactions none none · 1) .transactions w₁ none
        [(sampleRows.drop 1).map Transaction.load, (sampleRows.take 1).map Transaction.load] w₃ ∧
      Follows sampleDeployment sampleDatabase (.listEntries 2 · 1) .entries w₁ none
        [[⟨14, 12, 2, 1000⟩], [⟨23, 22, 2, -750⟩]] w₃ := by
  have houtcome := listingRun_outcome
  rw [h] at houtcome
  simp only [Option.map_some, Option.some.injEq, Prod.mk.injEq] at houtcome
  obtain ⟨htransactions, hentries, htransactions', hentries'⟩ := houtcome
  obtain ⟨v₁, hrun, h⟩ := Option.bind_eq_some_iff.mp h
  obtain ⟨v₂, hfirst, h⟩ := Option.bind_eq_some_iff.mp h
  obtain ⟨v₃, hsecond, h⟩ := Option.map_eq_some_iff.mp h
  obtain ⟨rfl, rfl, rfl⟩ := by simpa only [Prod.mk.injEq] using h
  have hreach : sampleDeployment.service.Reachable (World.init sampleDatabase) v₁ :=
    Reaches.of_run hrun
  have hreach' : sampleDeployment.service.Reachable (World.init sampleDatabase) v₂ :=
    hreach.of_runFrom hfirst
  have hcalls := calls_of_run hrun
  have hcalls' := calls_of_runFrom hfirst
  rw [hcalls] at hcalls'
  constructor
  · have hserved := served_of_runFrom hreach hcalls hfirst (i := 2) (by decide) rfl htransactions
    have hserved' :=
      served_of_runFrom hreach' hcalls' hsecond (i := 4) (by decide) rfl htransactions'
    exact .next hserved rfl (UUID.parse_str 22) (.last hserved' rfl)
  · have hserved := served_of_runFrom hreach hcalls hfirst (i := 3) (by decide) rfl hentries
    have hserved' := served_of_runFrom hreach' hcalls' hsecond (i := 5) (by decide) rfl hentries'
    exact .next hserved rfl (UUID.parse_str 14) (.last hserved' rfl)

/-! ## Transactions -/

section Transactions

variable {accountId : Option UUID} {type : Option TransactionType} {limit : ℕ}
  {cursor : Option UUID} {bound : Option Timestamp}

/-- A cursor stays where it is. -/
theorem CursorAt.later {db db' : Database} (h : CursorAt db cursor bound)
    (hgrow : db.transactions ⊆ db'.transactions) : CursorAt db' cursor bound := by
  cases h with
  | start => exact .start
  | after ht => exact .after (hgrow ht)

/-- A cursor is the id of a row. -/
theorem CursorAt.mem {db : Database} (h : CursorAt db cursor bound) :
    ∀ id ∈ cursor, id ∈ db.transactions.map (·.id) := by
  rintro id ⟨⟩
  cases h with
  | after ht => exact List.mem_map_of_mem ht

/-- A transaction that matches goes on matching. -/
theorem Database.matching_subset {db db' : Database}
    (htransactions : db.transactions ⊆ db'.transactions)
    (hentries : db.ledgerEntries ⊆ db'.ledgerEntries) (accountId : Option UUID)
    (type : Option TransactionType) : db.matching accountId type ⊆ db'.matching accountId type := by
  intro t ht
  obtain ⟨ht, hmatch⟩ := List.mem_filter.mp ht
  obtain ⟨haccount, htype⟩ := of_decide_eq_true hmatch
  refine List.mem_filter.mpr ⟨htransactions ht, decide_eq_true ⟨fun id hid => ?_, htype⟩⟩
  exact List.map_subset _ (List.filter_subset _ hentries) (haccount id hid)

/-- A page of transactions that is answered is one of a single moment. -/
theorem Served.transactions_page {response : PaginatedResponse (Transaction Decimal)}
    (h : Served D db₀ w₁ w i r (.ok (.transactions response)))
    (hr : r.endpoint = .listTransactions accountId type cursor limit)
    (hcursor : CursorAt w₁.store cursor bound) :
    ∃ m, D.service.Reachable w₁ m ∧ D.service.Reachable m w ∧
      PageAt Transaction.createdAt limit Transaction.load (·.id) (m.store.matching accountId type)
        bound response := by
  have htask : D.task r =
      .read ((listTransactions accountId type cursor limit).translate reading .transactions) := by
    rw [h.task_eq, hr]
    rfl
  have hcommits : (listTransactions accountId type cursor limit).CommitsAtMost 0 := by
    cases cursor with
    | none => exact fun _ => trivial
    | some cursor => exact fun _ _ => trivial
  obtain ⟨m, hm, hmw, hres⟩ := h.exists_read htask hcommits
    (readsOnce_listTransactions h.moments accountId type limit hcursor.mem)
  have hids := Database.nodup_transactionIds (h.moments.later hm).consistent.keys
  have hcursor' := hcursor.later (h.moments.extends hm).transactions.subset
  rw [read_listTransactions hids hcursor', paginate_eq_page] at hres
  exact ⟨m, hm, hmw, D.planner.newestFirst, Answer.transactions.inj (Except.ok.inj hres)⟩

/-- **Listing transactions while others write**: as long as no two transactions share their
`created_at`, whatever commits between the requests of a client and between their statements, it is
given every transaction exactly once that matched its filters at the start; what it is given matches
in the end, strictly newest first, and so nothing twice; and every page but the last is full. -/
theorem transactions_listed {pages : List (List (Transaction Decimal))}
    (h : Follows D db₀ (.listTransactions accountId type · limit) .transactions w₁ none pages w)
    (hlimit : 1 ≤ limit) (htimes : (w.store.transactions.map (·.createdAt)).Nodup) :
    (∀ t ∈ w₁.store.matching accountId type, pages.flatten.count t.load = 1) ∧
      (∀ item ∈ pages.flatten, ∃ t ∈ w.store.matching accountId type, item = t.load) ∧
      pages.flatten.Pairwise (fun t t' => t'.createdAt < t.createdAt) ∧
      (∀ page ∈ pages.dropLast, page.length = limit) ∧
      ∀ page ∈ pages, page.length ≤ limit := by
  have hmoments := h.moments
  have hextends : ∀ m n, D.service.Reachable w₁ m → D.service.Reachable m n →
      Extends SameEvent m.store n.store := fun m n hm => (hmoments.later hm).extends
  obtain ⟨walked, rfl, hwalk⟩ :=
    h.walk (fun db => db.matching accountId type) CursorAt Served.transactions_page
      (fun hm hmw t ht =>
        .after ((hm.extends hmw).transactions.subset (List.mem_of_mem_filter ht))) .start
  obtain ⟨hsorted, hmem, hall, hfull, hlength⟩ := hwalk.walked hlimit
    (fun m hm hmw => htimes.sublist
      (((List.filter_sublist).trans (hextends m w hm hmw).transactions.sublist).map _))
    (fun m n hm hmn => Database.matching_subset (hextends m n hm hmn).transactions.subset
      (hextends m n hm hmn).ledgerEntries.subset accountId type)
  have hflatten : (walked.map (List.map Transaction.load)).flatten =
      walked.flatten.map Transaction.load := List.map_flatten.symm
  have hnodup : walked.flatten.Nodup := hsorted.imp fun hlt heq => hlt.ne (congrArg _ heq.symm)
  rw [hflatten, ← List.map_dropLast]
  refine ⟨fun t ht => ?_, fun item hitem => ?_, ?_, ?_, ?_⟩
  · rw [List.count_map_of_injective _ _ Transaction.load_injective]
    exact List.count_eq_one_of_mem hnodup (hall t ht fun k hk => by cases hk)
  · obtain ⟨t, ht, rfl⟩ := List.mem_map.mp hitem
    exact ⟨t, (hmem t ht).1, rfl⟩
  · exact List.pairwise_map.mpr hsorted
  · exact List.forall_mem_map.mpr fun page hpage => (List.length_map _).trans (hfull page hpage)
  · exact List.forall_mem_map.mpr fun page hpage =>
      (List.length_map _).trans_le (hlength page hpage)

/-- The deposit that was there when the listing started is listed once, and so is the withdrawal
that was made before its first page; the deposit that was made later is not. -/
theorem transactions_listed_listingRun :
    ∃ (w₁ w₂ w₃ : ServiceWorld) (pages : List (List (Transaction Decimal))),
      listingRun = some (w₁, w₂, w₃) ∧
      pages.map (List.map (·.idempotencyKey)) = [["withdrawal-1"], ["deposit-1"]] ∧
      w₁.store.transactions.map (·.idempotencyKey) = ["deposit-1"] ∧
      (∀ t ∈ w₁.store.matching none none, pages.flatten.count t.load = 1) ∧
      (∀ item ∈ pages.flatten, ∃ t ∈ w₃.store.matching none none, item = t.load) ∧
      pages.flatten.Pairwise (fun t t' => t'.createdAt < t.createdAt) := by
  obtain ⟨⟨w₁, w₂, w₃⟩, hw, htables⟩ := Option.map_eq_some_iff.mp listingRun_tables
  simp only [Prod.mk.injEq] at htables
  obtain ⟨hstart, -, htimes, -⟩ := htables
  obtain ⟨hall, hmem, hsorted, -⟩ := transactions_listed (follows_listingRun hw).1 (by decide)
    (by rw [htimes]; decide)
  exact ⟨w₁, w₂, w₃, _, hw, by decide, by rw [hstart]; decide, hall, hmem, hsorted⟩

end Transactions

/-! ## Entries -/

section Entries

variable {accountId : UUID} {limit : ℕ} {cursor : Option UUID} {bound : Option UUIDᵒᵈ}

/-- The bound that a cursor of entries stands for, which is the id of a row. -/
structure EntryCursorAt (db : Database) (cursor : Option UUID) (bound : Option UUIDᵒᵈ) : Prop where
  bound_eq : bound = cursorBound cursor
  mem : ∀ id ∈ cursor, id ∈ db.ledgerEntries.map (·.id)

/-- An account whose entries are listed is there. -/
theorem exists_account_of_listEntries {planner : Planner} {db : Database}
    {response : PaginatedResponse LedgerEntry}
    (h : read planner db (listEntries accountId cursor limit) = .ok response) :
    ∃ a, db.accountById accountId = some a := by
  cases hfound : db.accountById accountId with
  | some a => exact ⟨a, rfl⟩
  | none =>
      have hanswer : (Query.getAccount accountId).answer planner db = none := hfound
      have hfind : (snapshot planner).eval (findAccount accountId) db () =
          ⟨.error (.http 404 "Account not found"), db, (), []⟩ := by
        rw [findAccount, eval_query_bind, hanswer]
        rfl
      have heval : (snapshot planner).eval (listEntries accountId cursor limit) db () =
          ⟨.error (.http 404 "Account not found"), db, (), []⟩ := Store.eval_bind_error _ hfind
      have hraise := congrArg Prod.fst (Store.run_eq (snapshot planner) heval)
      cases hraise.symm.trans h

/-- A page of entries that is answered is one of a single moment. -/
theorem Served.entries_page {response : PaginatedResponse LedgerEntry}
    (h : Served D db₀ w₁ w i r (.ok (.entries response)))
    (hr : r.endpoint = .listEntries accountId cursor limit)
    (hcursor : EntryCursorAt w₁.store cursor bound) :
    ∃ m, D.service.Reachable w₁ m ∧ D.service.Reachable m w ∧
      PageAt entryKey limit id (·.id) (m.store.entriesOn accountId) bound response := by
  have htask : D.task r =
      .read ((listEntries accountId cursor limit).translate reading .entries) := by
    rw [h.task_eq, hr]
    rfl
  have hcommits : (listEntries accountId cursor limit).CommitsAtMost 0 := by
    refine Prog.CommitsAtMost.zero_bind (fun account => ?_) fun _ => ?_
    · cases account <;> exact trivial
    · cases cursor with
      | none => exact fun _ => trivial
      | some cursor => exact fun _ _ => trivial
  obtain ⟨m, hm, hmw, hres⟩ := h.exists_read htask hcommits
    (readsOnce_listEntries h.moments accountId limit hcursor.mem)
  cases hread : read D.planner m.store (listEntries accountId cursor limit) with
  | error e =>
      rw [hread] at hres
      cases hres
  | ok response' =>
      obtain ⟨a, ha⟩ := exists_account_of_listEntries hread
      have hids := Database.nodup_entryIds (h.moments.later hm).consistent.keys
      have hcursor' : ∀ id ∈ cursor, ∃ e ∈ m.store.ledgerEntries, e.id = id := fun id hid => by
        obtain ⟨e, he, hid⟩ := List.mem_map.mp (hcursor.mem id hid)
        exact ⟨e, (h.moments.extends hm).ledgerEntries.subset he, hid⟩
      rw [read_listEntries ha hcursor' hids, ← hcursor.bound_eq] at hres
      refine ⟨m, hm, hmw, entryOrder, ?_⟩
      rw [List.map_id]
      exact Answer.entries.inj (Except.ok.inj hres)

/-- **Listing entries while others write**: whatever commits between the requests of a client and
between their statements, it is given every entry of the account exactly once that was there at the
start; what it is given is on the account in the end, in the order of the ids, and so nothing twice;
and every page but the last is full. -/
theorem entries_listed {pages : List (List LedgerEntry)}
    (h : Follows D db₀ (.listEntries accountId · limit) .entries w₁ none pages w)
    (hlimit : 1 ≤ limit) :
    (∀ e ∈ w₁.store.entriesOn accountId, pages.flatten.count e = 1) ∧
      (∀ e ∈ pages.flatten, e ∈ w.store.entriesOn accountId) ∧
      pages.flatten.Pairwise (fun e e' => e.id < e'.id) ∧
      (∀ page ∈ pages.dropLast, page.length = limit) ∧
      ∀ page ∈ pages, page.length ≤ limit := by
  have hmoments := h.moments
  have hgrow : ∀ m n, D.service.Reachable w₁ m → D.service.Reachable m n →
      m.store.ledgerEntries ⊆ n.store.ledgerEntries := fun m n hm hmn =>
    ((hmoments.later hm).extends hmn).ledgerEntries.subset
  obtain ⟨walked, rfl, hwalk⟩ :=
    h.walk (fun db => db.entriesOn accountId) EntryCursorAt Served.entries_page
      (fun hm hmw e he => ⟨rfl, fun id hid => by
        obtain rfl := Option.some.inj hid
        exact List.mem_map_of_mem ((hm.extends hmw).ledgerEntries.subset
          (List.mem_of_mem_filter he))⟩) ⟨rfl, by rintro id ⟨⟩⟩
  obtain ⟨hsorted, hmem, hall, hfull, hlength⟩ := hwalk.walked hlimit
    (fun m hm _ => nodup_entryKeys
      (Database.nodup_entryIds (hmoments.later hm).consistent.keys) accountId)
    (fun m n hm hmn => List.filter_subset _ (hgrow m n hm hmn))
  have hnodup : walked.flatten.Nodup := hsorted.imp fun hlt heq => hlt.ne (congrArg _ heq.symm)
  have hpages : walked.map (List.map id) = walked := by
    rw [List.map_id_fun, List.map_id]
  rw [hpages]
  refine ⟨fun e he => ?_, fun e he => (hmem e he).1, hsorted, hfull, hlength⟩
  exact List.count_eq_one_of_mem hnodup (hall e he fun k hk => by cases hk)

/-- The customer's entry that was there when the listing started is listed once, and so is that of
the withdrawal; the one that came while the last page was read is not. -/
theorem entries_listed_listingRun :
    ∃ (w₁ w₂ w₃ : ServiceWorld) (pages : List (List LedgerEntry)),
      listingRun = some (w₁, w₂, w₃) ∧
      pages.map (List.map (·.id)) = [[14], [23]] ∧
      (w₁.store.entriesOn 2).map (·.id) = [14] ∧ (w₃.store.entriesOn 2).map (·.id) = [14, 23, 34] ∧
      (∀ e ∈ w₁.store.entriesOn 2, pages.flatten.count e = 1) ∧
      (∀ e ∈ pages.flatten, e ∈ w₃.store.entriesOn 2) ∧
      pages.flatten.Pairwise (fun e e' => e.id < e'.id) := by
  obtain ⟨⟨w₁, w₂, w₃⟩, hw, htables⟩ := Option.map_eq_some_iff.mp listingRun_tables
  simp only [Prod.mk.injEq] at htables
  obtain ⟨-, hstart, -, hend⟩ := htables
  obtain ⟨hall, hmem, hsorted, -⟩ := entries_listed (follows_listingRun hw).2 (by decide)
  exact ⟨w₁, w₂, w₃, _, hw, by decide, hstart, hend, hall, hmem, hsorted⟩

end Entries

end LedgerApi
