import LedgerApi.EntryListing
import LedgerApi.StatementWindows

/-! # The views of an account

The balance of an account is derived in four places: the sum that `compute_balance` reads, the line
of `verify_ledger`, the loop of `get_statement`, and what a client adds up that lists all entries.
In every state that requests reach they are one and the same decimal (`views_agree`). -/

namespace LedgerApi

open Sessions System Paging

variable {H : HexHash} {planner : Planner} {planners : ℕ → Planner} {db db₀ : Database}
  {a : Account}
  {accountId : UUID} {limit : ℕ}

/-! ## The views -/

/-- What a client makes of the entries it has listed: `sum(amounts, Decimal("0"))`. -/
def addUp (entries : List LedgerEntry) : Decimal :=
  (entries.map fun e => readAmount e.amount).foldl (· + ·) decimalZero

/-- It is the sum of the amounts. -/
theorem addUp_eq (entries : List LedgerEntry) :
    addUp entries = coalesceSum (entries.map (·.amount)) := by
  have hfold : ∀ before : List ℤ,
      (entries.map fun e => readAmount e.amount).foldl (· + ·) (coalesceSum before) =
        coalesceSum (before ++ entries.map (·.amount)) := by
    induction entries with
    | nil => exact fun before => by rw [List.map_nil, List.map_nil, List.append_nil]; rfl
    | cons e entries ih =>
        intro before
        rw [List.map_cons, List.foldl_cons, coalesceSum_add, ih, List.append_assoc]
        rfl
  exact hfold []

/-- `compute_balance` reads the sum of the committed amounts. -/
theorem eval_computeBalance (db : Database) (accountId : UUID) :
    postgres.eval (computeBalance accountId) db .blank =
      ⟨.ok (coalesceSum (db.amounts accountId)), db, .blank, []⟩ := by
  have hexec : postgres.exec db .blank (.sumEntries accountId) =
      .ok (coalesceSum (db.amounts accountId), .blank) := by
    rw [exec_of_free rfl, perform, Database.view_blank]
  rw [computeBalance, execute, Prog.stmt, postgres.eval_exec_ok hexec]
  rfl

/-- `get_balance` reads it as well. -/
theorem read_getBalance (hfound : db.accountById accountId = some a) :
    read planner db (getBalance accountId) =
      .ok ⟨accountId, coalesceSum (db.amounts accountId)⟩ := by
  rw [read, Store.run]
  show ((snapshot planner).eval (getBalance accountId) db ()).result = _
  rw [getBalance, eval_findAccount_bind hfound, eval_query_bind]
  rfl

/-- The line of an account in the audit. -/
theorem accountDetails_of_accountId {line : AccountDetail} (hline : line ∈ db.accountDetails)
    (hid : line.accountId = accountId.str) :
    line.derivedBalance = (coalesceSum (db.amounts accountId)).str ∧
      line.entryCount = (db.amounts accountId).length := by
  obtain ⟨b, -, rfl⟩ := List.mem_map.mp hline
  obtain rfl := UUID.str_inj hid
  exact ⟨rfl, rfl⟩

/-- The statement without dates closes with the sum of all amounts, after a line for each entry. -/
theorem Consistent.windowStatement_all (h : Consistent H db) (planner : Planner)
    (accountId : UUID) :
    (windowStatement planner db accountId none none).closingBalance =
        coalesceSum (db.amounts accountId) ∧
      (windowStatement planner db accountId none none).entries.length =
        (db.amounts accountId).length := by
  have hall : ∀ time, InWindow none none time := fun time =>
    ⟨fun start h => (Option.not_mem_none start h).elim,
      fun finish h => (Option.not_mem_none finish h).elim⟩
  have hrows : db.rowsWhen accountId (InWindow none none) = db.statementRows accountId :=
    List.filter_eq_self.mpr fun _ _ => decide_eq_true (hall _)
  have hentries := congrArg List.length (h.map_fst_statementRows accountId)
  rw [List.length_map] at hentries
  constructor
  · rw [windowStatement_closingBalance, h.balanceWhen_eq accountId hall]
  · rw [windowStatement, length_statementEntries, windowRows_perm.length_eq, hrows, hentries,
      Database.amounts, List.length_map]
    rfl

/-- A listing of tables that do not change has the entries of the account, each of them once. -/
theorem exists_listing (hkeys : db.uniqueKeys.Nodup) (ha : a ∈ db.accounts)
    (planners : ℕ → Planner) (hlimit : 0 < limit) :
    ∃ fuel pages, listEntryPages planners (fun _ => db) a.id limit fuel 0 none = some pages ∧
      pages.flatten.Perm (db.entriesOn a.id) := by
  obtain ⟨fuel, pages, hpages, hnodup, hmem, hall, -⟩ :=
    (Growing.const hkeys ha).listEntryPages planners hlimit
  refine ⟨fuel, pages, hpages, ?_⟩
  have hentries : (db.entriesOn a.id).Nodup :=
    ((Database.nodup_entryIds hkeys).of_map).filter _
  refine (List.perm_ext_iff_of_nodup hnodup.of_map hentries).mpr fun e => ⟨fun he => ?_, hall e⟩
  obtain ⟨-, he⟩ := hmem e he
  exact he

/-- **All derived views of an account agree** in every state: `compute_balance`, `get_balance`, the
line of `verify_ledger`, the statement without dates and a complete listing of its entries. -/
theorem views_agree {w : World sql Database Writes Resource Request Response} (h₀ : Initial db₀)
    (h : (api H).Reachable (World.init db₀) w) (ha : a ∈ w.shared.store.accounts)
    (planner : Planner) (planners : ℕ → Planner) (limit : ℕ) (hlimit : 1 ≤ limit ∧ limit ≤ 100) :
    ∃ balance statement fuel pages,
      postgres.eval (computeBalance a.id) w.shared.store .blank =
        ⟨.ok balance, w.shared.store, .blank, []⟩ ∧
      read planner w.shared.store (getBalance a.id) = .ok ⟨a.id, balance⟩ ∧
      (∃ line ∈ (verifyLedger w.shared.store).checks.accountBalances.details,
        line.accountId = a.id.str) ∧
      (∀ line ∈ (verifyLedger w.shared.store).checks.accountBalances.details,
        line.accountId = a.id.str →
          line.derivedBalance = balance.str ∧ line.entryCount = statement.entries.length) ∧
      read planner w.shared.store (getStatement a.id none none) = .ok statement ∧
      statement.closingBalance = balance ∧
      listEntryPages planners (fun _ => w.shared.store) a.id limit fuel 0 none = some pages ∧
      addUp pages.flatten = balance := by
  have hdb := consistent_of_api (.initial h₀) h
  have hfound := Database.accountById_of_mem hdb.keys ha
  obtain ⟨fuel, pages, hpages, hperm⟩ := exists_listing hdb.keys ha planners hlimit.1
  obtain ⟨hclosing, hlines⟩ := hdb.windowStatement_all planner a.id
  refine ⟨coalesceSum (w.shared.store.amounts a.id),
    windowStatement planner w.shared.store a.id none none, fuel, pages, eval_computeBalance _ _,
    read_getBalance hfound, ⟨_, List.mem_map_of_mem ha, rfl⟩, fun line hline hid => ?_,
    read_statement hfound, hclosing, hpages, ?_⟩
  · obtain ⟨hbalance, hcount⟩ := accountDetails_of_accountId hline hid
    exact ⟨hbalance, hcount.trans hlines.symm⟩
  · rw [addUp_eq]
    exact coalesceSum_perm (hperm.map _)

theorem depositRun_tables :
    depositRun.map (fun w => (w.shared.store.accounts, w.shared.store.transactions.map (·.type),
        (read .stable w.shared.store (getBalance 2)).toOption)) =
      some (sampleDatabase.accounts, [.deposit], some ⟨2, ⟨1000, -2⟩⟩) := by
  decide +kernel

/-- The views of the customer's account in the state that a deposit of ten leaves: all are 10.00. -/
theorem views_agree_depositRun :
    ∃ w, (api sha256).Reachable (World.init sampleDatabase) w ∧
      w.shared.store.transactions.map (·.type) = [.deposit] ∧
      ∃ statement fuel pages,
        read .stable w.shared.store (getBalance 2) = .ok ⟨2, ⟨1000, -2⟩⟩ ∧
        read .stable w.shared.store (getStatement 2 none none) = .ok statement ∧
        statement.closingBalance = ⟨1000, -2⟩ ∧
        listEntryPages (fun _ => .stable) (fun _ => w.shared.store) 2 1 fuel 0 none = some pages ∧
        addUp pages.flatten = ⟨1000, -2⟩ := by
  obtain ⟨w, hw, htables⟩ := Option.map_eq_some_iff.mp depositRun_tables
  simp only [Prod.mk.injEq] at htables
  obtain ⟨haccounts, htypes, hten⟩ := htables
  have hmem : (⟨2, "alice", false, 0⟩ : Account) ∈ w.shared.store.accounts := by
    rw [haccounts]
    exact List.mem_cons_of_mem _ List.mem_cons_self
  obtain ⟨balance, statement, fuel, pages, -, hbalance, -, -, hstatement, hclosing, hpages, hsum⟩ :=
    views_agree initial_sampleDatabase (Reaches.of_run hw) hmem .stable (fun _ => .stable) 1
      (by decide)
  -- the balance that was read
  obtain rfl : balance = ⟨1000, -2⟩ := by
    rw [hbalance] at hten
    injection Option.some.inj hten
  exact ⟨w, Reaches.of_run hw, htypes, statement, fuel, pages, hbalance, hstatement, hclosing,
    hpages, hsum⟩

end LedgerApi
