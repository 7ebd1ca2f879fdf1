import LedgerApi.Library.Paging
import LedgerApi.Reads
import LedgerApi.Replays

/-! # Listing transactions by cursor

A client that follows `next_cursor` through `list_transactions` to the end (`listAll`). The cursor
is the id of the last transaction of a page, but the next page is bounded by its `created_at`,
strictly; so the listing is the one of `Library/Paging.lean` with the key `created_at`
(`listAll_eq`). It always ends, and has every transaction that matches exactly once if and only if
no page ends between two of them that share their `created_at` (`listAll_complete_iff`). -/

namespace LedgerApi

open Sessions Paging

/-! ## The client -/

/-- Follow the cursors from page `n` on, each query answered by a planner of its own. -/
def listAll (planners : ℕ → Planner) (db : Database) (accountId : Option UUID)
    (type : Option TransactionType) (limit : ℕ) :
    ℕ → ℕ → Option UUID → Option (List (Transaction Decimal))
  | 0, _, _ => none
  | fuel + 1, n, cursor =>
      match read (planners n) db (listTransactions accountId type cursor limit) with
      | .error _ => none
      | .ok ⟨items, none⟩ => some items
      | .ok ⟨items, some nextCursor⟩ => do
          -- the cursor comes back as a parameter of the next request
          let cursor ← UUID.parse nextCursor
          let rest ← listAll planners db accountId type limit fuel (n + 1) (some cursor)
          return items ++ rest

variable {planner : Planner} {planners : ℕ → Planner} {db : Database} {accountId : Option UUID}
  {type : Option TransactionType} {limit : ℕ}

/-! ## Pages -/

/-- The bound that a cursor stands for: none at the start, then the `created_at` of a transaction.
-/
inductive CursorAt (db : Database) : Option UUID → Option Timestamp → Prop
  | start : CursorAt db none none
  | after {t : Transaction ℤ} (ht : t ∈ db.transactions) :
      CursorAt db (some t.id) (some t.createdAt)

/-- A page of the listing, as its query answers it. -/
theorem read_listTransactions (hids : (db.transactions.map (·.id)).Nodup) {cursor : Option UUID}
    {bound : Option Timestamp} (h : CursorAt db cursor bound) :
    read planner db (listTransactions accountId type cursor limit) =
      .ok (paginate Transaction.load (·.id) limit
        ((planner.newestFirst.arrange ((db.matching accountId type).filter
          (Below Transaction.createdAt bound ·))).take (limit + 1))) := by
  have hbound : (snapshot planner).eval (transactionBound cursor) db () =
      ⟨.ok bound, db, (), []⟩ := by
    cases h with
    | start => rfl
    | @after t ht =>
        have hfound : (Query.getTransaction t.id).answer planner db = some t :=
          Grouping.find?_eq_some hids ht
        rw [transactionBound, eval_query_bind, hfound]
        rfl
  rw [read, Store.run]
  show ((snapshot planner).eval (listTransactions accountId type cursor limit) db ()).result = _
  rw [listTransactions, Store.eval_bind_ok _ hbound, eval_query_bind]
  rfl

section Page

variable {Row Item K : Type} [LinearOrder K] {key : Row → K}

/-- The look-ahead of the handlers is that of a page. -/
theorem paginate_eq_page (item : Row → Item) (id : Row → UUID)
    (order : Ordering.OrderBy (Descending key)) (rows : List Row) (bound : Option K) :
    paginate item id limit
        ((order.arrange (rows.filter (Below key bound ·))).take (limit + 1)) =
      ⟨(page key order limit rows bound).1.map item,
        (page key order limit rows bound).2.map fun row => (id row).str⟩ := by
  unfold paginate page
  simp only
  split
  · rw [Option.map_map]
    rfl
  · rfl

/-- The last row of a page is one of the rows. -/
theorem mem_of_page {order : Ordering.OrderBy (Descending key)} {rows : List Row}
    {bound : Option K} {last : Row} (h : (page key order limit rows bound).2 = some last) :
    last ∈ rows := by
  unfold page at h
  simp only at h
  split at h
  case isTrue =>
    have hmem := List.mem_of_mem_take (List.mem_of_mem_take (List.mem_of_getLast? h))
    exact List.mem_of_mem_filter ((order.perm _).mem_iff.mp hmem)
  case isFalse => cases h

end Page

/-! ## The listing -/

/-- **The client's listing** is a walk through pages by `created_at`. -/
theorem listAll_eq (hids : (db.transactions.map (·.id)).Nodup) (fuel n : ℕ) {cursor : Option UUID}
    {bound : Option Timestamp} (h : CursorAt db cursor bound) :
    listAll planners db accountId type limit fuel n cursor =
      (follow Transaction.createdAt limit (fun n => (planners n).newestFirst)
        (db.matching accountId type) fuel n bound).map (List.map Transaction.load) := by
  induction fuel generalizing n cursor bound with
  | zero => rfl
  | succ fuel ih =>
      rw [listAll, read_listTransactions hids h, paginate_eq_page, follow]
      cases hpage : page Transaction.createdAt (planners n).newestFirst limit
          (db.matching accountId type) bound with
      | mk items last =>
          cases last with
          | none => rfl
          | some last =>
              have hmem : last ∈ db.transactions :=
                List.mem_of_mem_filter (mem_of_page (congrArg Prod.snd hpage))
              simp only [Option.map_some, UUID.parse_str]
              show (listAll planners db accountId type limit fuel (n + 1) (some last.id)).bind _ = _
              rw [ih (n + 1) (.after hmem)]
              cases follow Transaction.createdAt limit (fun n => (planners n).newestFirst)
                (db.matching accountId type) fuel (n + 1) (some last.createdAt) with
              | none => rfl
              | some rest => exact congrArg some List.map_append.symm

/-- Rows that are loaded alike are alike. -/
theorem Transaction.load_injective : Function.Injective Transaction.load := by
  rintro ⟨⟩ ⟨⟩ h
  simp only [Transaction.load, readAmount, Transaction.mk.injEq, Decimal.mk.injEq, and_true] at h ⊢
  exact h

/-- **Listing every transaction by cursor**: the listing ends, and it has every transaction that
matches the filters exactly once if and only if no page ends between two of them with the same
`created_at`. -/
theorem listAll_complete_iff (planners : ℕ → Planner) (db : Database) (hkeys : db.uniqueKeys.Nodup)
    (accountId : Option UUID) (type : Option TransactionType) (limit : ℕ)
    (hlimit : 1 ≤ limit ∧ limit ≤ 100) :
    ∃ fuel items, listAll planners db accountId type limit fuel 0 none = some items ∧
      (items.Perm ((db.matching accountId type).map Transaction.load) ↔
        CleanCuts Transaction.createdAt limit (db.matching accountId type)) := by
  obtain ⟨rows, hrows, hiff⟩ := follow_perm_iff (fun n => (planners n).newestFirst) hlimit.1
    (db.matching accountId type)
  refine ⟨_, rows.map Transaction.load,
    (listAll_eq (Database.nodup_transactionIds hkeys) _ 0 .start).trans (congrArg _ hrows), ?_⟩
  rw [List.map_perm_map_iff Transaction.load_injective]
  exact hiff

/-- Without filters every transaction matches. -/
theorem matching_none (db : Database) : db.matching none none = db.transactions :=
  List.filter_eq_self.mpr fun _ _ => decide_eq_true ⟨nofun, nofun⟩

/-- A deposit and a withdrawal that started at different times are listed in full, with pages of
one. -/
theorem listAll_complete_sampleRequests :
    ∃ fuel items, listAll (fun _ => .stable) (serveAll sha256 sampleDatabase sampleRequests) none
        none 1 fuel 0 none = some items ∧
      items.length = 2 ∧
      items.Perm (((serveAll sha256 sampleDatabase sampleRequests).matching none none).map
        Transaction.load) := by
  have htimes : (serveAll sha256 sampleDatabase sampleRequests).transactions.map
      Transaction.createdAt = [1, 2] := by decide +kernel
  obtain ⟨fuel, items, hitems, hiff⟩ := listAll_complete_iff (fun _ => .stable)
    (serveAll sha256 sampleDatabase sampleRequests) (by decide +kernel) none none 1 (by decide)
  rw [matching_none] at hiff ⊢
  have hperm := hiff.mpr (cleanCuts_of_nodup (by rw [htimes]; decide))
  refine ⟨fuel, items, hitems, ?_, hperm⟩
  rw [hperm.length_eq, List.length_map, ← List.length_map Transaction.createdAt, htimes]
  rfl

/-- Two deposits that start in the same microsecond. -/
def tiedRequests : List Request :=
  [.call (.createTransaction sampleDeposit (sampleGenerated 1)),
    .call (.createTransaction
      { sampleDeposit with idempotencyKey := "deposit-2", valid_key := by decide }
      { sampleGenerated 2 with now := (sampleGenerated 1).now })]

/-- The listing of their transactions with pages of one. -/
theorem tiedRequests_outcome :
    (follow Transaction.createdAt 1 (fun _ => Planner.stable.newestFirst)
        (serveAll sha256 sampleDatabase tiedRequests).transactions 3 0 none).map List.length =
        some 1 ∧
      (serveAll sha256 sampleDatabase tiedRequests).transactions.length = 2 := by
  decide +kernel

/-- **A transaction that no page has**: it shares its `created_at` with the last one of a page. -/
theorem listing_incomplete :
    Reachable sha256 (serveAll sha256 sampleDatabase tiedRequests) ∧
      ∃ items, listAll (fun _ => .stable) (serveAll sha256 sampleDatabase tiedRequests) none none 1
          3 0 none = some items ∧
        ¬ items.Perm (((serveAll sha256 sampleDatabase tiedRequests).matching none none).map
          Transaction.load) := by
  have hreachable : Reachable sha256 (serveAll sha256 sampleDatabase tiedRequests) :=
    (Reachable.initial initial_sampleDatabase).serveAll _
  have hids := Database.nodup_transactionIds hreachable.consistent.keys
  obtain ⟨hlisting, hrows⟩ := tiedRequests_outcome
  obtain ⟨rows, hfollow, hlength⟩ := Option.map_eq_some_iff.mp hlisting
  refine ⟨hreachable, rows.map Transaction.load, ?_, ?_⟩
  · rw [listAll_eq hids 3 0 .start, matching_none, hfollow]
    rfl
  · intro hperm
    have hcount := hperm.length_eq
    rw [matching_none, List.length_map, List.length_map, hlength, hrows] at hcount
    exact absurd hcount (by decide)

end LedgerApi
