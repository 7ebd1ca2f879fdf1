import LedgerApi.AppendOnly
import LedgerApi.Library.Seek
import LedgerApi.Listings

/-! # Listing ledger entries by cursor

A client that follows `next_cursor` through `list_entries` while transactions commit between its
requests (`listEntryPages`). The cursor is the id of the last entry of a page, and ids are unique,
so the listing is the one of `Library/Seek.lean` over the entries of the account
(`listEntryPages_eq`). Entries are only ever added; so the listing ends, and has every entry that
was there at the first request exactly once (`listEntries_complete`). -/

namespace LedgerApi

open Sessions System Paging

/-! ## The client -/

/-- Follow the cursors from page `n` on; page `n` is read from the tables of that moment. -/
def listEntryPages (planners : ℕ → Planner) (dbs : ℕ → Database) (accountId : UUID) (limit : ℕ) :
    ℕ → ℕ → Option UUID → Option (List (List LedgerEntry))
  | 0, _, _ => none
  | fuel + 1, n, cursor =>
      match read (planners n) (dbs n) (listEntries accountId cursor limit) with
      | .error _ => none
      | .ok ⟨items, none⟩ => some [items]
      | .ok ⟨items, some nextCursor⟩ => do
          -- the cursor comes back as a parameter of the next request
          let cursor ← UUID.parse nextCursor
          let rest ← listEntryPages planners dbs accountId limit fuel (n + 1) (some cursor)
          return items :: rest

variable {H : HexHash} {planner : Planner} {planners : ℕ → Planner} {db db₀ : Database}
  {dbs : ℕ → Database} {a : Account} {accountId : UUID} {limit : ℕ}

/-! ## Pages -/

/-- The key of the pages: they ascend by the id. -/
def entryKey (e : LedgerEntry) : UUIDᵒᵈ := OrderDual.toDual e.id

/-- `ORDER BY ledger_entries.id`. -/
def entryOrder : Ordering.OrderBy (Descending entryKey) :=
  Ordering.OrderBy.ascending fun e : LedgerEntry => e.id

/-- The bound that a cursor stands for. -/
def cursorBound (cursor : Option UUID) : Option UUIDᵒᵈ := cursor.map OrderDual.toDual

/-- A page of the listing, as its query answers it. -/
theorem read_listEntries (ha : db.accountById accountId = some a) {cursor : Option UUID}
    (hcursor : ∀ id ∈ cursor, ∃ e ∈ db.ledgerEntries, e.id = id)
    (hids : (db.ledgerEntries.map (·.id)).Nodup) :
    read planner db (listEntries accountId cursor limit) =
      .ok ⟨(page entryKey entryOrder limit (db.entriesOn accountId) (cursorBound cursor)).1,
        (page entryKey entryOrder limit (db.entriesOn accountId) (cursorBound cursor)).2.map
          fun e => e.id.str⟩ := by
  have hbound : (snapshot planner).eval (entryBound cursor) db () = ⟨.ok cursor, db, (), []⟩ := by
    cases cursor with
    | none => rfl
    | some id =>
        obtain ⟨e, he, rfl⟩ := hcursor _ rfl
        have hfound : (Query.getLedgerEntry e.id).answer planner db = some e :=
          Grouping.find?_eq_some hids he
        rw [entryBound, eval_query_bind, hfound]
        rfl
  have hbelow : (db.entriesOn accountId).filter (fun e => ∀ id ∈ cursor, id < e.id) =
      (db.entriesOn accountId).filter (Below entryKey (cursorBound cursor) ·) := by
    refine List.filter_congr fun e _ => decide_eq_decide.mpr ?_
    show _ ↔ ∀ k ∈ cursor.map OrderDual.toDual, OrderDual.toDual e.id < k
    rw [Option.forall_mem_map]
    rfl
  rw [← List.map_id
    (page entryKey entryOrder limit (db.entriesOn accountId) (cursorBound cursor)).1,
    ← paginate_eq_page id (·.id) entryOrder, ← hbelow, read, Store.run]
  show ((snapshot planner).eval (listEntries accountId cursor limit) db ()).result = _
  rw [listEntries, eval_findAccount_bind ha, Store.eval_bind_ok _ hbound, eval_query_bind]
  rfl

/-- **The client's listing** is a walk through the pages of a growing table. -/
theorem listEntryPages_eq (ha : ∀ n, (dbs n).accountById accountId = some a)
    (hids : ∀ n, ((dbs n).ledgerEntries.map (·.id)).Nodup)
    (hgrow : ∀ n, (dbs n).ledgerEntries ⊆ (dbs (n + 1)).ledgerEntries) (fuel n : ℕ)
    {cursor : Option UUID} (hcursor : ∀ id ∈ cursor, ∃ e ∈ (dbs n).ledgerEntries, e.id = id) :
    listEntryPages planners dbs accountId limit fuel n cursor =
      followTables entryKey limit (fun _ => entryOrder) (fun n => (dbs n).entriesOn accountId) fuel
        n
        (cursorBound cursor) := by
  induction fuel generalizing n cursor with
  | zero => rfl
  | succ fuel ih =>
      rw [listEntryPages, read_listEntries (ha n) hcursor (hids n), followTables]
      cases hpage : page entryKey entryOrder limit ((dbs n).entriesOn accountId)
          (cursorBound cursor) with
      | mk items last =>
          cases last with
          | none => rfl
          | some last =>
              have hlast : last ∈ (dbs n).ledgerEntries :=
                List.mem_of_mem_filter (mem_of_page (congrArg Prod.snd hpage))
              simp only [Option.map_some, UUID.parse_str]
              show (listEntryPages planners dbs accountId limit fuel (n + 1)
                (some last.id)).bind _ =
                (followTables entryKey limit _ _ fuel (n + 1) (cursorBound (some last.id))).map _
              rw [ih (n + 1) fun id hid => ⟨last, hgrow n hlast, Option.some.inj hid⟩]
              exact Option.map_eq_bind.symm

/-! ## The listing -/

/-- The tables that a client sees at its requests, and what it can count on: the account is there,
ids are distinct, and entries are only added. -/
structure Growing (dbs : ℕ → Database) (a : Account) : Prop where
  account : ∀ n, (dbs n).accountById a.id = some a
  ids : ∀ n, ((dbs n).ledgerEntries.map (·.id)).Nodup
  grows : ∀ n, (dbs n).ledgerEntries ⊆ (dbs (n + 1)).ledgerEntries

/-- Tables that do not change. -/
theorem Growing.const (hkeys : db.uniqueKeys.Nodup) (ha : a ∈ db.accounts) :
    Growing (fun _ => db) a :=
  ⟨fun _ => Database.accountById_of_mem hkeys ha, fun _ => Database.nodup_entryIds hkeys,
    fun _ => List.Subset.refl _⟩

/-- Ids among the entries of an account are distinct. -/
theorem nodup_entryKeys (hids : (db.ledgerEntries.map (·.id)).Nodup) (accountId : UUID) :
    ((db.entriesOn accountId).map entryKey).Nodup :=
  hids.sublist (List.filter_sublist.map _)

/-- **The listing of a growing table** ends, with all entries that were there at its start and none
twice; and while nothing is added, its pages are counted. -/
theorem Growing.listEntryPages (h : Growing dbs a) (planners : ℕ → Planner) (hlimit : 0 < limit) :
    ∃ fuel pages, LedgerApi.listEntryPages planners dbs a.id limit fuel 0 none = some pages ∧
      (pages.flatten.map (·.id)).Nodup ∧
      (∀ e ∈ pages.flatten, ∃ n, e ∈ (dbs n).entriesOn a.id) ∧
      (∀ e ∈ (dbs 0).entriesOn a.id, e ∈ pages.flatten) ∧
      ((∀ n < pages.length, dbs n = dbs 0) →
        pages.length = max 1 ((((dbs 0).entriesOn a.id).length + limit - 1) / limit)) := by
  have hkeys : ∀ n, (((dbs n).entriesOn a.id).map entryKey).Nodup := fun n =>
    nodup_entryKeys (h.ids n) a.id
  have hgrow : ∀ n, (dbs n).entriesOn a.id ⊆ (dbs (n + 1)).entriesOn a.id := fun n =>
    List.filter_subset _ (h.grows n)
  have hnone : ∀ e, Below entryKey (none : Option UUIDᵒᵈ) e := fun e k hk => by cases hk
  obtain ⟨fuel, pages, hpages, hsorted, hmem, hall⟩ :=
    lists_all hlimit hkeys (fun _ => entryOrder) hgrow 0 none
  refine ⟨fuel, pages, ?_, ?_, fun e he => ?_, fun e he => hall e he (hnone e), fun hsame => ?_⟩
  · rw [listEntryPages_eq h.account h.ids h.grows fuel 0 (by rintro id ⟨⟩)]
    exact hpages
  · refine List.pairwise_map.mpr (hsorted.imp fun hlt heq => ?_)
    exact ne_of_gt hlt (congrArg OrderDual.toDual heq)
  · obtain ⟨-, n, -, he⟩ := hmem e he
    exact ⟨n, he⟩
  · have hall : ((dbs 0).entriesOn a.id).filter (Below entryKey none ·) =
        (dbs 0).entriesOn a.id := List.filter_eq_self.mpr fun e _ => decide_eq_true (hnone e)
    have hrows : ∀ m < pages.length, (dbs (0 + m)).entriesOn a.id = (dbs 0).entriesOn a.id :=
      fun m hm => by rw [Nat.zero_add, hsame m hm]
    have hlength := length_followTables hlimit hkeys hpages hrows
    rw [hall] at hlength
    exact hlength

section Runs

variable {w : ℕ → World sql Database Writes Resource Request Response}

/-- The tables of a run, at any moments one after the other, are growing. -/
theorem growing_of_api (h₀ : Initial db₀) (h : (api H).Reachable (World.init db₀) (w 0))
    (hsteps : ∀ n, (api H).Reachable (w n) (w (n + 1))) (ha : a ∈ (w 0).shared.store.accounts) :
    Growing (fun n => (w n).shared.store) a := by
  have hreach : ∀ n, (api H).Reachable (World.init db₀) (w n) := by
    intro n
    induction n with
    | zero => exact h
    | succ n ih => exact ih.trans (hsteps n)
  have hextends : ∀ n, Extends SameEvent (w n).shared.store (w (n + 1)).shared.store := fun n =>
    extends_of_api SameEvent.refl (fun _ _ _ hsame hsame' => hsame'.trans hsame)
      OutboxEvent.unmarked_mark (.initial h₀) (hreach n) (hsteps n)
  have hkeys : ∀ n, (w n).shared.store.uniqueKeys.Nodup := fun n =>
    (consistent_of_api (.initial h₀) (hreach n)).keys
  have haccount : ∀ n, a ∈ (w n).shared.store.accounts := by
    intro n
    induction n with
    | zero => exact ha
    | succ n ih => exact (hextends n).accounts.subset ih
  exact ⟨fun n => Database.accountById_of_mem (hkeys n) (haccount n),
    fun n => Database.nodup_entryIds (hkeys n), fun n => (hextends n).ledgerEntries.subset⟩

/-- **Listing ledger entries is stable under writes**: whatever commits between the requests of a
client, its listing ends, has every entry of the account that was there at the first request exactly
once, and no entry twice or of another account; if nothing is written it takes as many pages as the
entries fill. -/
theorem listEntries_complete (h₀ : Initial db₀)
    (h : (api H).Reachable (World.init db₀) (w 0))
    (hsteps : ∀ n, (api H).Reachable (w n) (w (n + 1))) (ha : a ∈ (w 0).shared.store.accounts)
    (planners : ℕ → Planner) (limit : ℕ) (hlimit : 1 ≤ limit ∧ limit ≤ 100) :
    ∃ fuel pages,
      listEntryPages planners (fun n => (w n).shared.store) a.id limit fuel 0 none = some pages ∧
      (∀ e ∈ (w 0).shared.store.entriesOn a.id, pages.flatten.count e = 1) ∧
      (pages.flatten.map (·.id)).Nodup ∧ (∀ e ∈ pages.flatten, e.accountId = a.id) ∧
      ((∀ n < pages.length, (w n).shared.store = (w 0).shared.store) →
        pages.length =
          max 1 ((((w 0).shared.store.entriesOn a.id).length + limit - 1) / limit)) := by
  obtain ⟨fuel, pages, hpages, hnodup, hmem, hall, hlength⟩ :=
    (growing_of_api h₀ h hsteps ha).listEntryPages planners hlimit.1
  refine ⟨fuel, pages, hpages, fun e he => ?_, hnodup, fun e he => ?_, hlength⟩
  · exact List.count_eq_one_of_mem hnodup.of_map (hall e he)
  · obtain ⟨n, hn⟩ := hmem e he
    exact of_decide_eq_true (List.mem_filter.mp hn).2

/-- A deposit is served, and then a withdrawal. -/
def entriesRun : Option (World sql Database Writes Resource Request Response ×
    World sql Database Writes Resource Request Response) :=
  depositRun.bind fun w =>
    ((api sha256).steps (fun _ _ => True) w
      [.start (.call (.createTransaction
        (sampleWithdrawal "withdrawal-1" validLength_withdrawalKey) (sampleGenerated 2)))]).bind
      fun v => ((api sha256).turns (fun _ _ => True) v (List.replicate 14 1)).map fun v => (w, v)

/-- The ids of the customer's entries after each of them. -/
theorem entriesRun_outcome :
    entriesRun.map (fun v => (v.1.shared.store.accounts, (v.1.shared.store.entriesOn 2).map (·.id),
      (v.2.shared.store.entriesOn 2).map (·.id))) =
      some (sampleDatabase.accounts, [14], [14, 23]) := by
  decide +kernel

/-- The withdrawal commits after the first page of the customer's entries has been read. -/
theorem listEntries_complete_entriesRun :
    ∃ w : ℕ → World sql Database Writes Resource Request Response,
      ((w 0).shared.store.entriesOn 2).map (·.id) = [14] ∧
        ((w 1).shared.store.entriesOn 2).map (·.id) = [14, 23] ∧
        ∃ fuel pages,
          listEntryPages (fun _ => .stable) (fun n => (w n).shared.store) 2 1 fuel 0 none =
            some pages ∧
          (∀ e ∈ (w 0).shared.store.entriesOn 2, pages.flatten.count e = 1) ∧
          (pages.flatten.map (·.id)).Nodup := by
  obtain ⟨⟨v₁, v₂⟩, hv, houtcome⟩ := Option.map_eq_some_iff.mp entriesRun_outcome
  obtain ⟨u₁, hu₁, hv⟩ := Option.bind_eq_some_iff.mp hv
  obtain ⟨u₂, hu₂, hv⟩ := Option.bind_eq_some_iff.mp hv
  obtain ⟨u₃, hu₃, hv⟩ := Option.map_eq_some_iff.mp hv
  obtain ⟨rfl, rfl⟩ := Prod.mk.inj hv
  obtain ⟨haccounts, hfirst, hlater⟩ := by simpa only [Prod.mk.injEq] using houtcome
  have hrun : (api sha256).Reachable u₁ u₃ := (Reaches.refl.of_steps hu₂).of_turns hu₃
  let w : ℕ → World sql Database Writes Resource Request Response
    | 0 => u₁
    | _ + 1 => u₃
  have hsteps : ∀ n, (api sha256).Reachable (w n) (w (n + 1)) := by
    intro n
    cases n with
    | zero => exact hrun
    | succ n => exact .refl
  obtain ⟨fuel, pages, hpages, hall, hnodup, -⟩ :=
    listEntries_complete (w := w) (a := ⟨2, "alice", false, 0⟩) initial_sampleDatabase
      (Reaches.of_run hu₁) hsteps
      (by
        show _ ∈ u₁.shared.store.accounts
        rw [haccounts]
        exact List.mem_cons_of_mem _ List.mem_cons_self)
      (fun _ => .stable) 1 (by decide)
  exact ⟨w, hfirst, hlater, fuel, pages, hpages, hall, hnodup⟩

end Runs

end LedgerApi
