import LedgerApi.Retries

/-! # Replays in a history

Two runs side by side: some requests served one after the other, and the same requests with copies
of accepted ones put in between, each anywhere after the request it is a copy of. Every copy is
answered with the transaction of its original and changes nothing, so the other requests find the
tables they found without the copies (`replays_are_no_ops`). The request may long be one that would
no longer be accepted: its account may be empty by then. -/

namespace LedgerApi

open Sessions

variable (H : HexHash)

/-- The database after some requests, served one after the other. -/
def serveAll (db : Database) (rs : List Request) : Database :=
  rs.foldl (fun db r => (serve H db r).2) db

variable {H} {db : Database} {data : TransactionCreate} {gen : Generated}

@[simp] theorem serveAll_append_singleton (db : Database) (rs : List Request) (r : Request) :
    serveAll H db (rs ++ [r]) = (serve H (serveAll H db rs) r).2 := by
  simp only [serveAll, List.foldl_append, List.foldl_cons, List.foldl_nil]

theorem serveAll_append (db : Database) (rs rs' : List Request) :
    serveAll H db (rs ++ rs') = serveAll H (serveAll H db rs) rs' := by
  simp only [serveAll, List.foldl_append]

/-- Requests lead from reachable databases to reachable ones. -/
theorem Reachable.serveAll (h : Reachable H db) (rs : List Request) :
    Reachable H (serveAll H db rs) := by
  induction rs generalizing db with
  | nil => exact h
  | cons r rs ih => exact ih (h.serve r)

/-! ## Keys stay in use -/

/-- What a request leaves is what was there with some writes added. -/
theorem exists_view_serve (H : HexHash) (db : Database) (r : Request) :
    ∃ w, w.rechained = [] ∧ (serve H db r).2 = db.view w := by
  cases r with
  | call call =>
      rcases (serve_call H db call).1 with hsame | ⟨w, hcall, hview⟩
      · exact ⟨.blank, rfl, hsame.trans db.view_blank.symm⟩
      · exact ⟨w, hcall.fresh.rechained, hview⟩
  | outboxPublish limit accepts now =>
      obtain ⟨marks, -, hview⟩ := serve_outboxPublish H db limit accepts now
      exact ⟨markWrites marks, rfl, hview⟩

/-- A transaction is found under its key after any requests. -/
theorem transactionByKey_serveAll {key : String} {row : Transaction ℤ} (rs : List Request)
    (h : db.transactionByKey key = some row) :
    (serveAll H db rs).transactionByKey key = some row := by
  induction rs generalizing db with
  | nil => exact h
  | cons r rs ih =>
      obtain ⟨w, hrechained, hview⟩ := exists_view_serve H db r
      apply ih
      show (serve H db r).2.transactionByKey key = some row
      rw [hview]
      exact Database.transactionByKey_view hrechained h

variable (H) in
/-- A request with this body was accepted in a run, with the given answer. -/
def Accepted (db : Database) (rs : List Request) (data : TransactionCreate) (answer : Response) :
    Prop :=
  ∃ before gen after, rs = before ++ .call (.createTransaction data gen) :: after ∧
    (serve H (serveAll H db before) (.call (.createTransaction data gen))).1 = .ok answer

/-- An accepted request sent again is answered as before, at any later time. -/
theorem Accepted.replayed {rs : List Request} {answer : Response} (h : Accepted H db rs data answer)
    (gen : Generated) :
    serve H (serveAll H db rs) (.call (.createTransaction data gen)) =
      (.ok answer, serveAll H db rs) := by
  obtain ⟨before, gen₀, after, rfl, hanswer⟩ := h
  obtain ⟨row, hrow, hhash, rfl⟩ := exists_of_serve_ok (Prod.ext hanswer rfl)
  -- the row that answered it is still the one with the key
  have hfound := transactionByKey_serveAll (H := H) after hrow
  have hrun : serveAll H db (before ++ .call (.createTransaction data gen₀) :: after) =
      serveAll H (serve H (serveAll H db before)
        (.call (.createTransaction data gen₀))).2 after := by
    rw [serveAll_append]
    rfl
  rw [hrun]
  exact serve_replay hfound hhash

/-! ## Runs with copies -/

/-- A request of a run with copies. -/
inductive Item
  /-- A request of the run. -/
  | own (r : Request)
  /-- A copy that was put in, with the values drawn for it. -/
  | copy (data : TransactionCreate) (gen : Generated)

/-- The request that is served. -/
def Item.request : Item → Request
  | own r => r
  | copy data gen => .call (.createTransaction data gen)

/-- The request, if it is one of the run. -/
def Item.original : Item → Option Request
  | own r => some r
  | copy _ _ => none

/-- The run without its copies. -/
def originals (items : List Item) : List Request := items.filterMap Item.original

variable (H) in
/-- Every copy is one of a request that the run has accepted before. -/
def CopiesAccepted (db : Database) (items : List Item) : Prop :=
  ∀ before data gen after, items = before ++ .copy data gen :: after →
    ∃ answer, Accepted H db (originals before) data answer

theorem CopiesAccepted.of_append {items items' : List Item}
    (h : CopiesAccepted H db (items ++ items')) : CopiesAccepted H db items := by
  intro before data gen after heq
  apply h before data gen (after ++ items')
  rw [heq, List.append_assoc]
  rfl

/-- **With or without its copies a run arrives at the same tables.** -/
theorem CopiesAccepted.serveAll_eq {items : List Item} (h : CopiesAccepted H db items) :
    serveAll H db (items.map Item.request) = serveAll H db (originals items) := by
  induction items using List.reverseRecOn with
  | nil => rfl
  | append_singleton items item ih =>
      rw [List.map_append, List.map_singleton, serveAll_append_singleton, ih h.of_append]
      cases item with
      | own r =>
          have horiginals : originals (items ++ [.own r]) = originals items ++ [r] := by
            simp [originals, Item.original]
          rw [horiginals, serveAll_append_singleton]
          rfl
      | copy data gen =>
          have horiginals : originals (items ++ [.copy data gen]) = originals items := by
            simp [originals, Item.original]
          -- the tables are those on which the copy is a replay
          obtain ⟨answer, haccepted⟩ := h items data gen [] rfl
          rw [horiginals]
          exact congrArg Prod.snd (haccepted.replayed gen)

/-- **Replays are no-ops in any history**: put anywhere after an accepted request, each copy of it
is answered as the original was and leaves the tables exactly as they were, and neither the outcome
of another request nor the final state changes. -/
theorem replays_are_no_ops {items : List Item} (h : CopiesAccepted H db items) :
    (∀ before data gen after answer, items = before ++ .copy data gen :: after →
      Accepted H db (originals before) data answer →
      serve H (serveAll H db (before.map Item.request)) (.call (.createTransaction data gen)) =
        (.ok answer, serveAll H db (before.map Item.request))) ∧
    (∀ before r after, items = before ++ .own r :: after →
      serve H (serveAll H db (before.map Item.request)) r =
        serve H (serveAll H db (originals before)) r) ∧
    serveAll H db (items.map Item.request) = serveAll H db (originals items) := by
  refine ⟨?_, ?_, h.serveAll_eq⟩
  · rintro before data gen after answer rfl haccepted
    rw [h.of_append.serveAll_eq]
    exact haccepted.replayed gen
  · rintro before r after rfl
    rw [h.of_append.serveAll_eq]

/-! ## A run with copies -/

/-- A run may go on with a request, or with a copy of one that it has accepted. -/
theorem CopiesAccepted.append_singleton {items : List Item} {item : Item}
    (h : CopiesAccepted H db items)
    (hitem : ∀ data gen, item = .copy data gen →
      ∃ answer, Accepted H db (originals items) data answer) :
    CopiesAccepted H db (items ++ [item]) := by
  intro before data gen after heq
  rcases List.eq_nil_or_concat after with rfl | ⟨after, last, rfl⟩
  · -- the copy is the request that was added
    obtain ⟨rfl, hlast⟩ := List.append_inj' heq rfl
    exact hitem data gen (List.singleton_inj.mp hlast)
  · rw [List.concat_eq_append, ← List.cons_append, ← List.append_assoc] at heq
    obtain ⟨rfl, -⟩ := List.append_inj' heq rfl
    exact h before data gen after rfl

/-- A request whose answer is no error has been accepted. -/
theorem exists_accepted (before after : List Request)
    (h : (serve H (serveAll H db before) (.call (.createTransaction data gen))).1.isOk) :
    ∃ answer,
      Accepted H db (before ++ .call (.createTransaction data gen) :: after) data answer := by
  cases hresult : (serve H (serveAll H db before) (.call (.createTransaction data gen))).1 with
  | ok answer => exact ⟨answer, before, gen, after, rfl, hresult⟩
  | error e =>
      rw [hresult] at h
      cases h

/-- A deposit of ten and a withdrawal of seven and a half. -/
def sampleRequests : List Request :=
  [.call (.createTransaction sampleDeposit (sampleGenerated 1)),
    .call (.createTransaction (sampleWithdrawal "withdrawal-1" validLength_withdrawalKey)
      (sampleGenerated 2))]

/-- Each of them is sent once more when both have been served. -/
def sampleItems : List Item :=
  sampleRequests.map .own ++
    [.copy (sampleWithdrawal "withdrawal-1" validLength_withdrawalKey) (sampleGenerated 3)] ++
    [.copy sampleDeposit (sampleGenerated 4)]

/-- A run without copies needs no originals. -/
theorem copiesAccepted_own (db : Database) (rs : List Request) :
    CopiesAccepted H db (rs.map .own) := by
  intro before data gen after heq
  have hmem : Item.copy data gen ∈ rs.map Item.own := by
    rw [heq]
    exact List.mem_append_right _ List.mem_cons_self
  simp at hmem

/-- The withdrawal is answered again although the account could not pay it twice. -/
theorem replays_sampleItems :
    (serveAll sha256 sampleDatabase (sampleItems.map Item.request)).balance 2 = 250 ∧
      serveAll sha256 sampleDatabase (sampleItems.map Item.request) =
        serveAll sha256 sampleDatabase (originals sampleItems) := by
  have hcopies : CopiesAccepted sha256 sampleDatabase sampleItems := by
    refine ((copiesAccepted_own _ _).append_singleton ?_).append_singleton ?_
    · rintro _ _ ⟨⟩
      exact exists_accepted [_] [] (by decide +kernel)
    · rintro _ _ ⟨⟩
      exact exists_accepted [] [_] (by decide +kernel)
  exact ⟨by decide +kernel, (replays_are_no_ops hcopies).2.2⟩

end LedgerApi
