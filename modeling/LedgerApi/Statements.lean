import LedgerApi.Reads
import LedgerApi.Serializability

/-! # Statements and the order of history

A statement adds up the entries of an account in the order of `created_at`, the start of their
transactions. The overdraft check saw the entries that had committed. Where every debit that commits
is covered without the credits that started no earlier than it (`SpendsInOrder`), the two orders
agree as far as it matters, and no line of a statement shows a negative balance
(`statement_nonneg`). A withdrawal that starts before a deposit and commits after it, spending it,
is shown before it: the statement goes negative although the account never did
(`statement_negative`). -/

namespace LedgerApi

open Sessions System Ordering

variable {H : HexHash} {db : Database} {data : TransactionCreate} {gen : Generated} {post : Posting}

/-! ## Lines -/

/-- One more amount. -/
theorem coalesceSum_add (amounts : List ℤ) (cents : ℤ) :
    coalesceSum amounts + readAmount cents = coalesceSum (amounts ++ [cents]) := by
  have hone : coalesceSum (amounts ++ [cents]) = readAmount (amounts.sum + cents) := by
    rw [coalesceSum, if_neg (by simp), List.sum_append, List.sum_singleton]
  rw [hone, coalesceSum]
  split
  case isTrue hnil =>
    rw [hnil, List.sum_nil, zero_add]
    exact Decimal.zero_add_of_nonpos (by decide)
  case isFalse => exact Decimal.add_same_exp _ _ _

/-- **A running balance** is the sum of the rows up to that of the line. -/
theorem runningBalance_eq {rows : List StatementRow} (before : List ℤ) {line : StatementEntry}
    (h : line ∈ (statementEntries (coalesceSum before) rows).1) :
    ∃ initial row, initial ++ [row] <+: rows ∧ line.createdAt = row.2.createdAt ∧
      line.runningBalance = coalesceSum (before ++ (initial ++ [row]).map (·.1.amount)) := by
  induction rows generalizing before with
  | nil => cases h
  | cons row rows ih =>
      obtain ⟨entry, txn⟩ := row
      rw [statementEntries, coalesceSum_add] at h
      rcases List.mem_cons.mp h with rfl | h
      · exact ⟨[], (entry, txn), List.prefix_append [_] rows, rfl, rfl⟩
      · obtain ⟨initial, row, hinitial, htime, hline⟩ := ih _ h
        refine ⟨(entry, txn) :: initial, row, List.cons_prefix_cons.mpr ⟨rfl, hinitial⟩, htime, ?_⟩
        rw [hline, List.append_assoc]
        rfl

/-- **The closing balance** is the sum of all rows. -/
theorem closingBalance_eq (before : List ℤ) (rows : List StatementRow) :
    (statementEntries (coalesceSum before) rows).2 =
      coalesceSum (before ++ rows.map (·.1.amount)) := by
  induction rows generalizing before with
  | nil => rw [statementEntries, List.map_nil, List.append_nil]
  | cons row rows ih =>
      obtain ⟨entry, txn⟩ := row
      rw [statementEntries, coalesceSum_add, ih, List.append_assoc]
      rfl

/-- A sum of amounts is negative when it is negative in cents. -/
theorem coalesceSum_lt_zero_iff (amounts : List ℤ) :
    coalesceSum amounts < decimalZero ↔ amounts.sum < 0 :=
  Decimal.lt_iff_of_exactAt (exactAt_coalesceSum amounts) (by decide)

/-! ## Rows -/

/-- In a consistent database the rows of a statement are the entries of the account. -/
theorem Consistent.map_fst_statementRows (h : Consistent H db) (accountId : UUID) :
    (db.statementRows accountId).map Prod.fst = db.entriesOn accountId := by
  have hone : ∀ e ∈ db.entriesOn accountId,
      ((db.transactions.filter (·.id = e.transactionId)).map fun t => (e, t)).map Prod.fst =
        [e] := by
    intro e he
    obtain ⟨t, ht, hid⟩ := List.mem_map.mp (h.transaction_refs e (List.mem_of_mem_filter he))
    have hfound : (db.transactions.find? (·.id = e.transactionId)) = some t := by
      have hmem : t ∈ (db.transactions.find? (·.id = e.transactionId)).toList := by
        rw [← Grouping.filter_eq_find? (Database.nodup_transactionIds h.keys)]
        exact List.mem_filter.mpr ⟨ht, decide_eq_true hid⟩
      exact Option.mem_toList.mp hmem
    rw [Grouping.filter_eq_find? (Database.nodup_transactionIds h.keys), hfound]
    rfl
  rw [Database.statementRows, List.map_flatMap]
  refine (List.flatMap_congr fun e he => hone e he).trans ?_
  exact List.flatMap_singleton' _

/-- Entries and transactions that are added without referring across only add rows. -/
theorem statementRows_view {w : Writes} (h : Consistent H db) (hfresh : Fresh db w)
    (hrefs : ∀ e ∈ w.ledgerEntries, e.transactionId ∉ db.transactions.map (·.id))
    (accountId : UUID) :
    (db.view w).statementRows accountId = db.statementRows accountId ++
      (w.ledgerEntries.filter (·.accountId = accountId)).flatMap fun e =>
        (w.transactions.filter (·.id = e.transactionId)).map fun t => (e, t) := by
  have hold : ∀ e ∈ db.ledgerEntries,
      (db.view w).transactions.filter (·.id = e.transactionId) =
        db.transactions.filter (·.id = e.transactionId) := by
    intro e he
    have hnone : w.transactions.filter (·.id = e.transactionId) = [] := by
      refine List.filter_eq_nil_iff.mpr fun t ht hid => hfresh.transaction_not_mem ht ?_
      rw [of_decide_eq_true hid]
      exact h.transaction_refs e he
    rw [Database.view_transactions hfresh.rechained, List.filter_append, hnone, List.append_nil]
  have hnew : ∀ e ∈ w.ledgerEntries,
      (db.view w).transactions.filter (·.id = e.transactionId) =
        w.transactions.filter (·.id = e.transactionId) := by
    intro e he
    have hnone : db.transactions.filter (·.id = e.transactionId) = [] := by
      refine List.filter_eq_nil_iff.mpr fun t ht hid => hrefs e he ?_
      rw [← of_decide_eq_true hid]
      exact List.mem_map_of_mem ht
    rw [Database.view_transactions hfresh.rechained, List.filter_append, hnone, List.nil_append]
  rw [Database.statementRows, Database.entriesOn, Database.view_ledgerEntries, List.filter_append,
    List.flatMap_append]
  congr 1
  · exact List.flatMap_congr fun e he => by rw [hold e (List.mem_of_mem_filter he)]
  · exact List.flatMap_congr fun e he => by rw [hnew e (List.mem_of_mem_filter he)]

/-- A posting adds the rows of its entries. -/
theorem Consistent.statementRows_posting (h : Consistent H db) (hs : Settles H db data gen post)
    (accountId : UUID) :
    (db.view (postingWrites H db data gen post)).statementRows accountId =
      db.statementRows accountId ++
        ((newEntries data gen post.debit post.credit).filter (·.accountId = accountId)).map
          fun e => (e, postedRow H db data gen) := by
  have hid : ∀ e ∈ newEntries data gen post.debit post.credit,
      e.transactionId = gen.transactionId := by
    intro e he
    simp only [newEntries, List.mem_cons, List.not_mem_nil, or_false] at he
    rcases he with rfl | rfl <;> rfl
  rw [statementRows_view h hs.fresh fun e he => hid e he ▸ hs.transactionId_not_mem]
  congr 1
  rw [List.map_eq_flatMap]
  refine List.flatMap_congr fun e he => ?_
  have hrow : (postedRow H db data gen).id = e.transactionId :=
    (hid e (List.mem_of_mem_filter he)).symm
  simp [postingWrites, hrow]

/-! ## Spending in order -/

/-- The rows of an account that a debit starting at `time` can count on: those of transactions that
started before it, and all other debits. -/
def Database.countedRows (db : Database) (accountId : UUID) (time : Timestamp) :
    List StatementRow :=
  (db.statementRows accountId).filter fun row => row.2.createdAt < time ∨ row.1.amount ≤ 0

/-- The debits of a commit, on customer accounts, are covered by the rows they can count on. -/
def Covers (db : Database) (p : Writes) : Prop :=
  ∀ t ∈ p.transactions, ∀ e ∈ p.ledgerEntries, e.amount < 0 →
    ∀ a ∈ db.accounts, a.id = e.accountId → a.name ≠ externalClearingName →
      0 ≤ ((db.countedRows e.accountId t.createdAt).map (·.1.amount)).sum + e.amount

instance (db : Database) (p : Writes) : Decidable (Covers db p) := by
  unfold Covers
  infer_instance

/-- What the session in a slot commits when it goes on covers its debits. -/
def slotCovers (db : Database) : Slot sql Writes Resource Call Response → Prop
  | .running ⟨_, .commit _, pending, _, _⟩ => Covers db pending
  | _ => True

instance (db : Database) :
    (slot : Slot sql Writes Resource Call Response) → Decidable (slotCovers db slot)
  | .running ⟨_, .commit _, pending, _, _⟩ => inferInstanceAs (Decidable (Covers db pending))
  | .running ⟨_, .ret _, _, _, _⟩ => isTrue trivial
  | .running ⟨_, .raise _, _, _, _⟩ => isTrue trivial
  | .running ⟨_, .exec _ _, _, _, _⟩ => isTrue trivial
  | .running ⟨_, .emit _ _, _, _, _⟩ => isTrue trivial
  | .finished _ _ => isTrue trivial

/-- **Spending in order**: no step commits a debit that spends a credit which started no earlier
than it. -/
def SpendsInOrder (w : World sql Database Writes Resource Call Response) : Action Call → Prop
  | .advance i => ∀ slot ∈ w.slots[i]?, slotCovers w.shared.store slot
  | _ => True

instance (w : World sql Database Writes Resource Call Response) :
    (a : Action Call) → Decidable (SpendsInOrder w a)
  | .start _ => isTrue trivial
  | .acquire _ => isTrue trivial
  | .advance i =>
      inferInstanceAs (Decidable (∀ slot ∈ w.slots[i]?, slotCovers w.shared.store slot))
  | .fault _ => isTrue trivial

/-- Writes that make the same rows visible cover the same debits. -/
theorem Covers.of_view_eq {p q : Writes} (h : Covers db p) (hview : db.view q = db.view p) :
    Covers db q := by
  have htransactions := Database.transactions_eq_of_view hview
  have hentries : q.ledgerEntries = p.ledgerEntries :=
    List.append_cancel_left (congrArg Database.ledgerEntries hview)
  rw [Covers, htransactions, hentries]
  exact h

/-! ## Statements that are not negative -/

/-- Added up in the order of `created_at`, the entries of no customer's account fall below zero. -/
def StatementsCovered (db : Database) : Prop :=
  ∀ a ∈ db.accounts, a.name ≠ externalClearingName →
    NeverNegative (fun row : StatementRow => row.2.createdAt) (fun row => row.1.amount)
      (db.statementRows a.id)

/-- A debit that is covered, and then a credit. -/
theorem neverNegative_posting {rows : List StatementRow} {accountId : UUID}
    (h : NeverNegative (fun row : StatementRow => row.2.createdAt) (fun row => row.1.amount) rows)
    (hdebit : post.debit = accountId →
      0 ≤ ((rows.filter fun row => row.2.createdAt < gen.now ∨ row.1.amount ≤ 0).map
        (·.1.amount)).sum + -data.cents) :
    NeverNegative (fun row : StatementRow => row.2.createdAt) (fun row => row.1.amount)
      (rows ++ ((newEntries data gen post.debit post.credit).filter
        (·.accountId = accountId)).map fun e => (e, postedRow H db data gen)) := by
  have hcredit : ∀ {before : List StatementRow} {e : LedgerEntry}, e.amount = data.cents →
      NeverNegative (fun row : StatementRow => row.2.createdAt) (fun row => row.1.amount) before →
      NeverNegative (fun row : StatementRow => row.2.createdAt) (fun row => row.1.amount)
        (before ++ [(e, postedRow H db data gen)]) := by
    intro before e he hbefore
    refine hbefore.credit ?_
    rw [he]
    exact data.cents_pos.le
  by_cases hd : post.debit = accountId <;> by_cases hc : post.credit = accountId <;>
    simp only [newEntries, data.toScale_amount, data.toScale_neg_amount, List.filter_cons, hd, hc,
      decide_true, decide_false, if_true, Bool.false_eq_true, if_false, List.filter_nil,
      List.map_cons, List.map_nil]
  · -- the debit of an account that pays itself comes first
    rw [List.append_cons]
    exact hcredit rfl (h.debit (hdebit hd))
  · exact h.debit (hdebit hd)
  · exact hcredit rfl h
  · rw [List.append_nil]
    exact h

/-- **A commit keeps statements from being negative** if it spends in order. -/
theorem StatementsCovered.commit {call : Call} {w : Writes} (hcovered : StatementsCovered db)
    (h : Consistent H db) (hcall : Commits H db call w) (hcovers : Covers db w) :
    StatementsCovered (db.view w) := by
  intro a ha hname
  cases hcall with
  | @postAccount body id now hfresh =>
      rw [statementRows_view h hfresh nofun]
      simp only [accountWrites, List.filter_nil, List.flatMap_nil, List.append_nil]
      rcases List.mem_append.mp ha with ha | ha
      · exact hcovered a ha hname
      · -- nothing is posted to an account that is new
        have hnone : db.statementRows a.id = [] := by
          rw [← List.map_eq_nil_iff (f := Prod.fst), h.map_fst_statementRows]
          refine List.filter_eq_nil_iff.mpr fun e he heq => hfresh.account_not_mem ha ?_
          exact of_decide_eq_true heq ▸ h.account_refs e he
        rw [hnone]
        exact NeverNegative.nil
  | @createTransaction data gen post hs =>
      have hold := hs.customer_mem ha hname
      rw [h.statementRows_posting hs]
      refine neverNegative_posting (hcovered a hold hname) fun hdebit => ?_
      have hentry := hcovers (postedRow H db data gen) (List.mem_singleton_self _)
        ⟨gen.firstEntryId, gen.transactionId, post.debit, (-data.amount).toScale 2⟩
        List.mem_cons_self
        (by
          rw [data.toScale_neg_amount]
          exact neg_neg_of_pos data.cents_pos)
        a hold hdebit.symm hname
      rw [data.toScale_neg_amount, Database.countedRows] at hentry
      rw [← hdebit]
      exact hentry

/-- **Statements follow the real history** in every interleaving that spends in order: no line of a
customer's statement shows a negative balance. -/
theorem statement_nonneg {db₀ : Database} {w : World sql Database Writes Resource Call Response}
    (h₀ : Initial db₀) (h : (ledger H).Reaches SpendsInOrder (World.init db₀) w) {a : Account}
    (ha : a ∈ w.shared.store.accounts) (hname : a.name ≠ externalClearingName)
    (planner : Planner) :
    ∃ response, read planner w.shared.store (getStatement a.id none none) = .ok response ∧
      ∀ line ∈ response.entries, ¬ line.runningBalance < decimalZero := by
  have hcovered : StatementsCovered w.shared.store := by
    refine ledger_invariant h ?_ ?_
    · intro b _ _
      rw [Database.statementRows, Database.entriesOn, h₀.ledgerEntries]
      exact NeverNegative.nil
    · rintro v i ⟨call, prog, pending, held, acquired⟩ next written hv hadm hs rfl hinv hcall hview
      exact hinv.commit (consistent_of_ledger (.initial h₀) hv) hcall
        (Covers.of_view_eq (hadm _ hs) hview)
  have hfound : w.shared.store.accountById a.id = some a :=
    Database.accountById_of_mem (consistent_of_ledger (.initial h₀) h.reachable).keys ha
  refine ⟨_, read_getStatement hfound none none, fun line hline => ?_⟩
  obtain ⟨initial, row, hinitial, -, hrunning⟩ := runningBalance_eq [] hline
  rw [hrunning, coalesceSum_lt_zero_iff, not_lt, List.nil_append]
  have hnone : ∀ time : Timestamp, time ∉ (none : Option Timestamp) := Option.not_mem_none
  have hrows : (w.shared.store.statementRows a.id).filter (fun row =>
      (∀ time ∈ (none : Option Date).map startOfDay, time ≤ row.2.createdAt) ∧
        ∀ time ∈ (none : Option Date).map endOfDay, row.2.createdAt < time) =
      w.shared.store.statementRows a.id :=
    List.filter_eq_self.mpr fun row _ =>
      decide_eq_true ⟨fun time h => absurd h (hnone time), fun time h => absurd h (hnone time)⟩
  rw [hrows] at hinitial
  exact (hcovered a ha hname).of_arrange planner.statement hinitial

/-- A withdrawal that starts after the deposit it spends has committed. -/
def orderedRun : Option (World sql Database Writes Resource Call Response) :=
  (ledger sha256).run SpendsInOrder sampleDatabase
    [.createTransaction sampleDeposit (sampleGenerated 1),
      .createTransaction (sampleWithdrawal "withdrawal-1" validLength_withdrawalKey)
        (sampleGenerated 2)]
    (List.replicate 13 0 ++ List.replicate 14 1)

/-- The customer of the run, and what is left to them. -/
theorem orderedRun_outcome :
    orderedRun.map (fun w => (w.shared.store.accountById 2, w.shared.store.balance 2)) =
      some (some ⟨2, "alice", false, 0⟩, 250) := by
  decide +kernel

/-- Their statement does not go below zero. -/
theorem statement_nonneg_orderedRun :
    ∃ w : World sql Database Writes Resource Call Response, w.shared.store.balance 2 = 250 ∧
      ∃ response, read .stable w.shared.store (getStatement 2 none none) = .ok response ∧
        ∀ line ∈ response.entries, ¬ line.runningBalance < decimalZero := by
  obtain ⟨w, hw, houtcome⟩ := Option.map_eq_some_iff.mp orderedRun_outcome
  have hfound : w.shared.store.accountById 2 = some ⟨2, "alice", false, 0⟩ :=
    congrArg Prod.fst houtcome
  refine ⟨w, congrArg Prod.snd houtcome, ?_⟩
  exact statement_nonneg initial_sampleDatabase (Reaches.of_run hw)
    (a := ⟨2, "alice", false, 0⟩) (List.mem_of_find?_eq_some hfound) (by decide) .stable

/-- A withdrawal starts, a deposit starts and commits, and the withdrawal spends it. -/
def overtakingRun : Option (World sql Database Writes Resource Call Response) :=
  (ledger sha256).run (fun _ _ => True) sampleDatabase
    [.createTransaction (sampleWithdrawal "withdrawal-1" validLength_withdrawalKey)
        (sampleGenerated 1),
      .createTransaction sampleDeposit (sampleGenerated 2)]
    ([0] ++ List.replicate 13 1 ++ List.replicate 13 0)

/-- The running balances of a statement. -/
def runningBalances (db : Database) (accountId : UUID) : List Decimal :=
  match read .stable db (getStatement accountId none none) with
  | .ok response => response.entries.map (·.runningBalance)
  | .error _ => []

/-- The withdrawal is shown first. -/
theorem overtakingRun_outcome :
    overtakingRun.map (fun w => (w.shared.store.accounts, runningBalances w.shared.store 2)) =
      some (sampleDatabase.accounts, [⟨-750, -2⟩, ⟨250, -2⟩]) := by
  decide +kernel

/-- **A statement that goes negative**, of an account that never did. -/
theorem statement_negative :
    Initial sampleDatabase ∧ ∃ w a response,
      (ledger sha256).Reachable (World.init sampleDatabase) w ∧ a ∈ w.shared.store.accounts ∧
        a.name ≠ externalClearingName ∧
        read .stable w.shared.store (getStatement a.id none none) = .ok response ∧
        ∃ line ∈ response.entries, line.runningBalance < decimalZero := by
  obtain ⟨w, hw, houtcome⟩ := Option.map_eq_some_iff.mp overtakingRun_outcome
  obtain ⟨haccounts, hbalances⟩ := Prod.mk.inj houtcome
  rw [runningBalances] at hbalances
  split at hbalances
  case h_1 response hread =>
    refine ⟨initial_sampleDatabase, w, ⟨2, "alice", false, 0⟩, response, Reaches.of_run hw, ?_,
      by decide, hread, ?_⟩
    · rw [haccounts]
      exact List.mem_cons_of_mem _ List.mem_cons_self
    · have hmem : (⟨-750, -2⟩ : Decimal) ∈ response.entries.map (·.runningBalance) := by
        rw [hbalances]
        exact List.mem_cons_self
      obtain ⟨line, hline, heq⟩ := List.mem_map.mp hmem
      refine ⟨line, hline, ?_⟩
      rw [heq]
      decide
  case h_2 => cases hbalances

end LedgerApi
