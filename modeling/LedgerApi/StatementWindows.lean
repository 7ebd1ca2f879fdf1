import LedgerApi.Replays
import LedgerApi.Statements

/-! # Statements of a window

A statement with dates shows the rows from the start of `from_date` up to, strictly, the last
microsecond of `to_date` (`InWindow`), and its running balance starts at zero.

* It carries the true balance of the account exactly when nothing is left of the rows before the
  window, and nothing of those at its last microsecond (`trueBalances_iff`).
* The windows of adjacent dates show what the window of both shows exactly when no row of the
  account stands at the last microsecond between them (`partitions_iff`). -/

namespace LedgerApi

open Sessions System Ordering

/-! ## Windows -/

/-- The condition of the query of a statement. -/
def InWindow (fromDate toDate : Option Date) (time : Timestamp) : Prop :=
  (∀ start ∈ fromDate.map startOfDay, start ≤ time) ∧ ∀ finish ∈ toDate.map endOfDay, time < finish

/-- Before the first day of the window. -/
def BeforeWindow (fromDate : Option Date) (time : Timestamp) : Prop :=
  ∃ date ∈ fromDate, time < startOfDay date

/-- At the last microsecond of its last day. -/
def AtLastInstant (toDate : Option Date) (time : Timestamp) : Prop :=
  ∃ date ∈ toDate, time = endOfDay date

/-- Before the end of its last day. -/
def BeforeEnd (toDate : Option Date) (time : Timestamp) : Prop :=
  ∀ date ∈ toDate, time < startOfDay (date + 1)

instance (fromDate toDate : Option Date) : DecidablePred (InWindow fromDate toDate) := fun time =>
  inferInstanceAs (Decidable ((∀ start ∈ fromDate.map startOfDay, start ≤ time) ∧
    ∀ finish ∈ toDate.map endOfDay, time < finish))

instance (fromDate : Option Date) : DecidablePred (BeforeWindow fromDate) := fun time =>
  inferInstanceAs (Decidable (∃ date ∈ fromDate, time < startOfDay date))

instance (toDate : Option Date) : DecidablePred (AtLastInstant toDate) := fun time =>
  inferInstanceAs (Decidable (∃ date ∈ toDate, time = endOfDay date))

instance (toDate : Option Date) : DecidablePred (BeforeEnd toDate) := fun time =>
  inferInstanceAs (Decidable (∀ date ∈ toDate, time < startOfDay (date + 1)))

/-- A day ends where the next one starts. -/
theorem endOfDay_add_one (date : Date) : endOfDay date + 1 = startOfDay (date + 1) := by
  rw [endOfDay, startOfDay, add_mul]
  ring

/-- A day is not over when it starts. -/
theorem startOfDay_le_endOfDay {d d' : Date} (h : d ≤ d') : startOfDay d ≤ endOfDay d' := by
  have hmul : d * dayMicroseconds ≤ d' * dayMicroseconds :=
    mul_le_mul_of_nonneg_right h (by decide)
  have hpos : (0 : ℤ) ≤ dayMicroseconds - 1 := by decide
  rw [startOfDay, endOfDay]
  exact hmul.trans (le_add_of_nonneg_right hpos)

/-- Where a window holds some instant, what comes before its end is before it, in it, or at its last
microsecond. -/
theorem beforeEnd_iff {fromDate toDate : Option Date} {inside : Timestamp}
    (hinside : InWindow fromDate toDate inside) (time : Timestamp) :
    BeforeEnd toDate time ↔
      BeforeWindow fromDate time ∨ InWindow fromDate toDate time ∨ AtLastInstant toDate time := by
  cases fromDate <;> cases toDate <;>
    simp only [BeforeEnd, BeforeWindow, InWindow, AtLastInstant, Option.map_none, Option.map_some,
      Option.mem_def, Option.some.injEq, reduceCtorEq, forall_eq', exists_eq_left', false_and,
      exists_const, false_implies, implies_true, true_and, and_true,
        ← endOfDay_add_one] at hinside ⊢
  -- what remains compares integers
  all_goals grind

/-- What comes no later than an instant of a window is before the window or in it. -/
theorem le_inside_iff {fromDate toDate : Option Date} {inside : Timestamp}
    (hinside : InWindow fromDate toDate inside) (time : Timestamp) :
    time ≤ inside ↔
      BeforeWindow fromDate time ∨ (InWindow fromDate toDate time ∧ time ≤ inside) := by
  cases fromDate <;> cases toDate <;>
    simp only [BeforeWindow, InWindow, Option.map_none, Option.map_some, Option.mem_def,
      Option.some.injEq, reduceCtorEq, forall_eq', exists_eq_left', false_and, exists_const,
      false_implies, implies_true, true_and] at hinside ⊢
  all_goals grind

/-- The three parts have nothing in common. -/
theorem not_inWindow_of_beforeWindow {fromDate toDate : Option Date} {time : Timestamp}
    (h : BeforeWindow fromDate time) : ¬ InWindow fromDate toDate time := by
  obtain ⟨date, hdate, hlt⟩ := h
  intro hin
  exact absurd (hin.1 _ (Option.mem_map_of_mem _ hdate)) (not_le.mpr hlt)

theorem not_inWindow_of_atLastInstant {fromDate toDate : Option Date} {time : Timestamp}
    (h : AtLastInstant toDate time) : ¬ InWindow fromDate toDate time := by
  obtain ⟨date, hdate, rfl⟩ := h
  intro hin
  exact lt_irrefl _ (hin.2 _ (Option.mem_map_of_mem _ hdate))

theorem not_beforeWindow_of_atLastInstant {fromDate toDate : Option Date} {time inside : Timestamp}
    (hinside : InWindow fromDate toDate inside) (h : AtLastInstant toDate time) :
    ¬ BeforeWindow fromDate time := by
  obtain ⟨date, hdate, rfl⟩ := h
  rintro ⟨first, hfirst, hlt⟩
  have hstart := hinside.1 _ (Option.mem_map_of_mem _ hfirst)
  have hfinish := hinside.2 _ (Option.mem_map_of_mem _ hdate)
  exact lt_asymm hlt (hstart.trans_lt hfinish)

/-! ## Balances by time -/

section Balances

variable (db : Database) (accountId : UUID) (p : Timestamp → Prop) [DecidablePred p]

/-- The rows of an account at certain times. -/
def Database.rowsWhen : List StatementRow :=
  (db.statementRows accountId).filter fun row => p row.2.createdAt

/-- Their amounts, in cents. -/
def Database.amountsWhen : List ℤ := (db.rowsWhen accountId p).map (·.1.amount)

/-- **The derived balance** over the entries at certain times. -/
def Database.balanceWhen : Decimal := coalesceSum (db.amountsWhen accountId p)

end Balances

variable {H : HexHash} {planner : Planner} {db : Database} {accountId : UUID} {account : Account}
  {fromDate toDate : Option Date}

section Kinds

variable (db accountId) {p q r : Timestamp → Prop} [DecidablePred p] [DecidablePred q]
  [DecidablePred r]
  (h : ∀ time, p time ↔ q time ∨ r time) (hexcl : ∀ time, q time → ¬ r time)
include h hexcl

/-- The rows at two kinds of times that exclude each other. -/
theorem rowsWhen_or_perm : (db.rowsWhen accountId p).Perm
    (db.rowsWhen accountId q ++ db.rowsWhen accountId r) := by
  have hperm := List.filter_append_perm (fun row : StatementRow => q row.2.createdAt)
    (db.rowsWhen accountId p)
  have hq : (db.rowsWhen accountId p).filter (fun row => q row.2.createdAt) =
      db.rowsWhen accountId q := by
    rw [Database.rowsWhen, List.filter_filter]
    refine List.filter_congr fun row _ => ?_
    rw [← Bool.decide_and, decide_eq_decide]
    exact and_iff_left_of_imp fun hq => (h _).mpr (Or.inl hq)
  have hr : (db.rowsWhen accountId p).filter (fun row => !decide (q row.2.createdAt)) =
      db.rowsWhen accountId r := by
    rw [Database.rowsWhen, List.filter_filter]
    refine List.filter_congr fun row _ => ?_
    rw [← decide_not, ← Bool.decide_and, decide_eq_decide]
    constructor
    · rintro ⟨hq, hp⟩
      exact ((h _).mp hp).resolve_left hq
    · exact fun hr => ⟨fun hq => hexcl _ hq hr, (h _).mpr (Or.inr hr)⟩
  rw [hq, hr] at hperm
  exact hperm.symm

/-- Their sum. -/
theorem sum_amountsWhen_or : (db.amountsWhen accountId p).sum =
    (db.amountsWhen accountId q).sum + (db.amountsWhen accountId r).sum := by
  rw [Database.amountsWhen, ((rowsWhen_or_perm db accountId h hexcl).map _).sum_eq, List.map_append,
    List.sum_append]
  rfl

end Kinds

/-- At whatever times, the derived balance over all entries is the one `compute_balance` reads. -/
theorem Consistent.balanceWhen_eq (h : Consistent H db) (accountId : UUID) {p : Timestamp → Prop}
    [DecidablePred p] (hp : ∀ time, p time) :
    db.balanceWhen accountId p = coalesceSum (db.amounts accountId) := by
  have hrows : db.rowsWhen accountId p = db.statementRows accountId :=
    List.filter_eq_self.mpr fun _ _ => decide_eq_true (hp _)
  have hentries := congrArg (List.map (·.amount)) (h.map_fst_statementRows accountId)
  rw [List.map_map] at hentries
  rw [Database.balanceWhen, Database.amountsWhen, hrows]
  exact congrArg coalesceSum hentries

/-- The order of amounts makes no difference. -/
theorem coalesceSum_perm {xs ys : List ℤ} (h : xs.Perm ys) : coalesceSum xs = coalesceSum ys := by
  have hnil : xs = [] ↔ ys = [] := by
    rw [← List.length_eq_zero_iff, h.length_eq, List.length_eq_zero_iff]
  simp only [coalesceSum, h.sum_eq, hnil]

/-- Sums of amounts are equal numbers when they are equal in cents. -/
theorem coalesceSum_numEq_iff (xs ys : List ℤ) :
    (coalesceSum xs).NumEq (coalesceSum ys) ↔ xs.sum = ys.sum :=
  Decimal.numEq_iff_of_exactAt (exactAt_coalesceSum xs) (exactAt_coalesceSum ys)

/-! ## True balances -/

/-- **A statement carries the true balance**: every line that of all entries up to it, and its end
that of all entries up to the end of the window. -/
def TrueBalances (db : Database) (accountId : UUID) (toDate : Option Date)
    (response : StatementResponse) : Prop :=
  (∀ line ∈ response.entries,
      line.runningBalance.NumEq (db.balanceWhen accountId (· ≤ line.createdAt))) ∧
    response.closingBalance.NumEq (db.balanceWhen accountId (BeforeEnd toDate))

/-- **Nothing is left out**: of the entries before a window that shows some, and of those at its
last microsecond, nothing remains; or the window shows none, and nothing remains of all up to its
end. -/
def NothingLeftOut (db : Database) (accountId : UUID) (fromDate toDate : Option Date) : Prop :=
  if db.rowsWhen accountId (InWindow fromDate toDate) = [] then
    (db.amountsWhen accountId (BeforeEnd toDate)).sum = 0
  else
    (db.amountsWhen accountId (BeforeWindow fromDate)).sum = 0 ∧
      (db.amountsWhen accountId (AtLastInstant toDate)).sum = 0

instance (db : Database) (accountId : UUID) (fromDate toDate : Option Date) :
    Decidable (NothingLeftOut db accountId fromDate toDate) := by
  unfold NothingLeftOut
  infer_instance

/-- The rows of a statement, in the order of its lines. -/
def windowRows (planner : Planner) (db : Database) (accountId : UUID)
    (fromDate toDate : Option Date) : List StatementRow :=
  planner.statement.arrange (db.rowsWhen accountId (InWindow fromDate toDate))

theorem windowRows_perm : (windowRows planner db accountId fromDate toDate).Perm
    (db.rowsWhen accountId (InWindow fromDate toDate)) :=
  planner.statement.perm _

/-- The statement of a window. -/
def windowStatement (planner : Planner) (db : Database) (accountId : UUID)
    (fromDate toDate : Option Date) : StatementResponse :=
  let lines := statementEntries decimalZero (windowRows planner db accountId fromDate toDate)
  ⟨accountId, lines.1, lines.2⟩

/-- It is what `get_statement` answers. -/
theorem read_statement (hfound : db.accountById accountId = some account) :
    read planner db (getStatement accountId fromDate toDate) =
      .ok (windowStatement planner db accountId fromDate toDate) :=
  read_getStatement hfound fromDate toDate

section Lines

variable (hdistinct : ((db.statementRows accountId).map (·.2.createdAt)).Nodup)
include hdistinct

/-- Rows with distinct times are shown in one order. -/
theorem pairwise_windowRows : (windowRows planner db accountId fromDate toDate).Pairwise
    fun r s => r.2.createdAt < s.2.createdAt := by
  have hnodup : ((windowRows planner db accountId fromDate toDate).map (·.2.createdAt)).Nodup :=
    (windowRows_perm.map _).nodup_iff.mpr (hdistinct.sublist (List.filter_sublist.map _))
  refine ((planner.statement.sorted _).and (List.pairwise_map.mp hnodup)).imp ?_
  exact fun h => lt_of_le_of_ne h.1 h.2

/-- **A line carries the true balance** when the rows before the window add up to nothing. -/
theorem runningBalance_numEq_iff {line : StatementEntry}
    (hline : line ∈ (windowStatement planner db accountId fromDate toDate).entries) :
    line.runningBalance.NumEq (db.balanceWhen accountId (· ≤ line.createdAt)) ↔
      (db.amountsWhen accountId (BeforeWindow fromDate)).sum = 0 := by
  obtain ⟨initial, row, hinit, htime, hrunning⟩ := runningBalance_eq [] hline
  have hrow : InWindow fromDate toDate row.2.createdAt := by
    have hmem := windowRows_perm.mem_iff.mp
      (hinit.subset (List.mem_append_right _ List.mem_cons_self))
    exact of_decide_eq_true (List.mem_filter.mp hmem).2
  -- the rows up to the line are those before the window and those in it up to the line
  have hsplit := sum_amountsWhen_or db accountId
      (p := (· ≤ line.createdAt)) (q := BeforeWindow fromDate)
    (r := fun time => InWindow fromDate toDate time ∧ time ≤ line.createdAt)
    (fun time => htime ▸ le_inside_iff hrow time)
    (fun time hbefore hin => not_inWindow_of_beforeWindow hbefore hin.1)
  have hinitial : (db.amountsWhen accountId fun time =>
      InWindow fromDate toDate time ∧ time ≤ line.createdAt).sum =
        ((initial ++ [row]).map (·.1.amount)).sum := by
    have hfilter := filter_le_of_prefix (pairwise_windowRows hdistinct) hinit
    have hrows : (db.rowsWhen accountId fun time =>
        InWindow fromDate toDate time ∧ time ≤ line.createdAt).Perm (initial ++ [row]) := by
      rw [← hfilter, ← htime]
      refine List.Perm.trans (List.Perm.of_eq ?_) (windowRows_perm.symm.filter _)
      rw [Database.rowsWhen, Database.rowsWhen, List.filter_filter]
      refine List.filter_congr fun r _ => ?_
      rw [Bool.decide_and, Bool.and_comm]
    exact (hrows.map _).sum_eq
  rw [hrunning, Database.balanceWhen, coalesceSum_numEq_iff, hsplit, hinitial, List.nil_append]
  exact right_eq_add

end Lines

/-- The closing balance is the sum of the rows of the window. -/
theorem windowStatement_closingBalance :
    (windowStatement planner db accountId fromDate toDate).closingBalance =
      db.balanceWhen accountId (InWindow fromDate toDate) :=
  (closingBalance_eq [] _).trans (coalesceSum_perm (windowRows_perm.map _))

/-- **A closing balance is true** when nothing is left out of it. -/
theorem closingBalance_numEq_iff :
    (windowStatement planner db accountId fromDate toDate).closingBalance.NumEq
        (db.balanceWhen accountId (BeforeEnd toDate)) ↔
      if db.rowsWhen accountId (InWindow fromDate toDate) = [] then
        (db.amountsWhen accountId (BeforeEnd toDate)).sum = 0
      else
        (db.amountsWhen accountId (BeforeWindow fromDate)).sum +
          (db.amountsWhen accountId (AtLastInstant toDate)).sum = 0 := by
  rw [windowStatement_closingBalance, Database.balanceWhen, Database.balanceWhen,
    coalesceSum_numEq_iff]
  split
  case isTrue hnone =>
    rw [Database.amountsWhen, hnone, List.map_nil, List.sum_nil]
    exact eq_comm
  case isFalse hsome =>
    obtain ⟨row, hrow⟩ := List.exists_mem_of_ne_nil _ hsome
    have hinside : InWindow fromDate toDate row.2.createdAt :=
      of_decide_eq_true (List.mem_filter.mp hrow).2
    have hend := sum_amountsWhen_or db accountId
      (p := BeforeEnd toDate) (q := BeforeWindow fromDate)
      (r := fun time => InWindow fromDate toDate time ∨ AtLastInstant toDate time)
      (beforeEnd_iff hinside) fun time hbefore hin => hin.elim
        (not_inWindow_of_beforeWindow hbefore)
        fun hlast => not_beforeWindow_of_atLastInstant hinside hlast hbefore
    have hrest := sum_amountsWhen_or db accountId
      (p := fun time => InWindow fromDate toDate time ∨ AtLastInstant toDate time)
      (q := InWindow fromDate toDate) (r := AtLastInstant toDate) (fun _ => Iff.rfl)
      fun time hin hlast => not_inWindow_of_atLastInstant hlast hin
    rw [hend, hrest]
    omega

/-- **When a statement is true**: exactly when nothing is left out of it. -/
theorem trueBalances_iff (hdistinct : ((db.statementRows accountId).map (·.2.createdAt)).Nodup) :
    TrueBalances db accountId toDate (windowStatement planner db accountId fromDate toDate) ↔
      NothingLeftOut db accountId fromDate toDate := by
  rw [TrueBalances, NothingLeftOut, closingBalance_numEq_iff]
  have hlines : ∀ line ∈ (windowStatement planner db accountId fromDate toDate).entries,
      line.runningBalance.NumEq (db.balanceWhen accountId (· ≤ line.createdAt)) ↔
        (db.amountsWhen accountId (BeforeWindow fromDate)).sum = 0 :=
    fun line hline => runningBalance_numEq_iff hdistinct hline
  split
  case isTrue hnone =>
    -- without rows there are no lines
    have hempty : windowRows planner db accountId fromDate toDate = [] := by
      refine List.length_eq_zero_iff.mp ?_
      rw [windowRows_perm.length_eq, hnone, List.length_nil]
    refine and_iff_right fun line hline => ?_
    rw [windowStatement, hempty] at hline
    cases hline
  case isFalse hsome =>
    have hline : ∃ line, line ∈ (windowStatement planner db accountId fromDate toDate).entries := by
      obtain ⟨row, hrow⟩ := List.exists_mem_of_ne_nil _ hsome
      have hrow' : row ∈ windowRows planner db accountId fromDate toDate :=
        windowRows_perm.mem_iff.mpr hrow
      obtain ⟨first, rest, hcons⟩ := List.exists_cons_of_ne_nil (List.ne_nil_of_mem hrow')
      rw [windowStatement, hcons]
      exact ⟨_, List.mem_cons_self⟩
    constructor
    · rintro ⟨hall, hclosing⟩
      obtain ⟨line, hline⟩ := hline
      have hbefore := (hlines line hline).mp (hall line hline)
      exact ⟨hbefore, by omega⟩
    · rintro ⟨hbefore, hlast⟩
      exact ⟨fun line hline => (hlines line hline).mpr hbefore, by omega⟩

/-- **Date-filtered statements** carry the true balance of the account exactly when nothing is left
out of them. -/
theorem statement_true_iff (hfound : db.accountById accountId = some account)
    (hdistinct : ((db.statementRows accountId).map (·.2.createdAt)).Nodup)
    (fromDate toDate : Option Date) (planner : Planner) :
    ∃ response, read planner db (getStatement accountId fromDate toDate) = .ok response ∧
      (TrueBalances db accountId toDate response ↔
        NothingLeftOut db accountId fromDate toDate) :=
  ⟨_, read_statement hfound, trueBalances_iff hdistinct⟩

/-- A deposit, and a withdrawal on the next day. -/
def nextDayLedger : Database :=
  serveAll sha256 sampleDatabase
    [.call (.createTransaction sampleDeposit (sampleGenerated 1)),
      .call (.createTransaction (sampleWithdrawal "withdrawal-1" validLength_withdrawalKey)
        { sampleGenerated 2 with now := startOfDay 1 })]

theorem reachable_nextDayLedger : Reachable sha256 nextDayLedger :=
  (Reachable.initial initial_sampleDatabase).serveAll _

/-- The rows of the customer, and what the statements of both days and of the second day leave
out. -/
theorem nextDayLedger_outcome :
    nextDayLedger.accountById 2 = some ⟨2, "alice", false, 0⟩ ∧
      ((nextDayLedger.statementRows 2).map (·.2.createdAt)).Nodup ∧
      NothingLeftOut nextDayLedger 2 (some 0) (some 1) ∧
      ¬ NothingLeftOut nextDayLedger 2 (some 1) none := by
  decide +kernel

/-- The statement of both days is true. -/
theorem statement_true_nextDayLedger :
    ∃ response, read .stable nextDayLedger (getStatement 2 (some 0) (some 1)) = .ok response ∧
      TrueBalances nextDayLedger 2 (some 1) response := by
  obtain ⟨hfound, hdistinct, hnothing, -⟩ := nextDayLedger_outcome
  obtain ⟨response, hread, hiff⟩ :=
    statement_true_iff hfound hdistinct (some 0) (some 1) .stable
  exact ⟨response, hread, hiff.mpr hnothing⟩

/-- **A statement that starts at zero**: the deposit of the day before is not in the balances of the
second day. -/
theorem statement_untrue :
    Reachable sha256 nextDayLedger ∧
      ((nextDayLedger.statementRows 2).map (·.2.createdAt)).Nodup ∧
      ∃ response, read .stable nextDayLedger (getStatement 2 (some 1) none) = .ok response ∧
        response.closingBalance = ⟨-750, -2⟩ ∧
        nextDayLedger.balanceWhen 2 (BeforeEnd none) = ⟨250, -2⟩ ∧
        ¬ TrueBalances nextDayLedger 2 none response := by
  obtain ⟨hfound, hdistinct, -, hleft⟩ := nextDayLedger_outcome
  refine ⟨reachable_nextDayLedger, hdistinct, _, read_statement hfound, ?_, ?_,
    fun htrue => hleft ((trueBalances_iff hdistinct).mp htrue)⟩
  · decide +kernel
  · decide +kernel

/-! ## Adjacent windows -/

/-- A line without its running balance. -/
def StatementEntry.unbalanced (line : StatementEntry) : StatementEntry :=
  { line with runningBalance := decimalZero }

/-- **Two statements make up a third**: the lines of the one and then those of the other are its
lines, each of them once, in the order of `created_at`. -/
def Partitions (first second whole : StatementResponse) : Prop :=
  ((first.entries ++ second.entries).map StatementEntry.unbalanced).Perm
      (whole.entries.map StatementEntry.unbalanced) ∧
    (first.entries ++ second.entries).Pairwise fun l m => l.createdAt ≤ m.createdAt

/-- The line of a row. -/
def statementLine (row : StatementRow) : StatementEntry :=
  ⟨row.1.id, row.1.transactionId, row.2.type, readAmount row.1.amount, decimalZero,
    row.2.reference, row.2.createdAt⟩

/-- Every row has its line. -/
theorem map_unbalanced_statementEntries (running : Decimal) (rows : List StatementRow) :
    (statementEntries running rows).1.map StatementEntry.unbalanced = rows.map statementLine := by
  induction rows generalizing running with
  | nil => rfl
  | cons row rows ih => exact congrArg (statementLine row :: ·) (ih _)

/-- There are as many lines as rows. -/
theorem length_statementEntries (running : Decimal) (rows : List StatementRow) :
    (statementEntries running rows).1.length = rows.length := by
  have h := congrArg List.length (map_unbalanced_statementEntries running rows)
  rwa [List.length_map, List.length_map] at h

/-- The lines are in the order of their rows. -/
theorem map_createdAt_statementEntries (running : Decimal) (rows : List StatementRow) :
    (statementEntries running rows).1.map (·.createdAt) = rows.map (·.2.createdAt) := by
  have h := congrArg (List.map (·.createdAt)) (map_unbalanced_statementEntries running rows)
  rw [List.map_map, List.map_map] at h
  exact h

/-- The lines of both statements are in the order of `created_at`. -/
theorem pairwise_adjacent (planner₁ planner₂ : Planner) (d₁ d₂ d₃ : Date) :
    (windowRows planner₁ db accountId (some d₁) (some d₂) ++
      windowRows planner₂ db accountId (some (d₂ + 1)) (some d₃)).Pairwise
        fun r s => r.2.createdAt ≤ s.2.createdAt := by
  have hin : ∀ {planner : Planner} {fromDate toDate : Option Date} {row : StatementRow},
      row ∈ windowRows planner db accountId fromDate toDate →
        InWindow fromDate toDate row.2.createdAt := fun hrow =>
    of_decide_eq_true (List.mem_filter.mp (windowRows_perm.mem_iff.mp hrow)).2
  refine List.pairwise_append.mpr ⟨planner₁.statement.sorted _, planner₂.statement.sorted _, ?_⟩
  intro r hr s hs
  have hbefore : r.2.createdAt < endOfDay d₂ := (hin hr).2 _ rfl
  have hafter : startOfDay (d₂ + 1) ≤ s.2.createdAt := (hin hs).1 _ rfl
  rw [← endOfDay_add_one] at hafter
  exact hbefore.le.trans ((Int.lt_succ _).le.trans hafter)

section Adjacent

variable {d₁ d₂ d₃ : Date} (h₁ : d₁ ≤ d₂) (h₂ : d₂ < d₃)
include h₁ h₂

/-- An instant of both windows is in one of them, or at the last microsecond between them. -/
theorem inWindow_adjacent_iff (time : Timestamp) :
    InWindow (some d₁) (some d₃) time ↔
      (InWindow (some d₁) (some d₂) time ∨ InWindow (some (d₂ + 1)) (some d₃) time) ∨
        time = endOfDay d₂ := by
  have hfirst := startOfDay_le_endOfDay h₁
  have hsecond := startOfDay_le_endOfDay (Int.add_one_le_of_lt h₂)
  simp only [InWindow, Option.map_some, Option.mem_def, Option.some.injEq, forall_eq',
    ← endOfDay_add_one] at hfirst hsecond ⊢
  grind

/-- The rows of both windows, and those between them. -/
theorem rowsWhen_adjacent_perm :
    (db.rowsWhen accountId (InWindow (some d₁) (some d₃))).Perm
      ((db.rowsWhen accountId (InWindow (some d₁) (some d₂)) ++
        db.rowsWhen accountId (InWindow (some (d₂ + 1)) (some d₃))) ++
          db.rowsWhen accountId (· = endOfDay d₂)) := by
  have hstart := endOfDay_add_one d₂
  have hlast : ∀ time, InWindow (some d₁) (some d₂) time ∨ InWindow (some (d₂ + 1)) (some d₃) time →
      ¬ time = endOfDay d₂ := by
    rintro time (hin | hin) rfl
    · exact lt_irrefl _ (hin.2 _ rfl)
    · exact absurd (hin.1 _ rfl) (not_le.mpr (hstart ▸ Int.lt_succ _))
  have hboth : ∀ time, InWindow (some d₁) (some d₂) time →
      ¬ InWindow (some (d₂ + 1)) (some d₃) time := fun time hin hin' =>
    lt_asymm (hin.2 _ rfl) ((Int.lt_succ _).trans_le (hstart ▸ hin'.1 _ rfl))
  refine (rowsWhen_or_perm _ _ (inWindow_adjacent_iff h₁ h₂) hlast).trans ?_
  refine List.Perm.append_right _ ?_
  exact rowsWhen_or_perm _ _ (fun _ => Iff.rfl) hboth

/-- **Adjacent windows** show what the window of both shows exactly when no row stands at the last
microsecond between them. -/
theorem partitions_iff (planner₁ planner₂ planner₃ : Planner) :
    Partitions (windowStatement planner₁ db accountId (some d₁) (some d₂))
        (windowStatement planner₂ db accountId (some (d₂ + 1)) (some d₃))
        (windowStatement planner₃ db accountId (some d₁) (some d₃)) ↔
      ∀ row ∈ db.statementRows accountId, row.2.createdAt ≠ endOfDay d₂ := by
  have hboth : (windowRows planner₁ db accountId (some d₁) (some d₂) ++
      windowRows planner₂ db accountId (some (d₂ + 1)) (some d₃)).Perm
        (db.rowsWhen accountId (InWindow (some d₁) (some d₂)) ++
          db.rowsWhen accountId (InWindow (some (d₂ + 1)) (some d₃))) :=
    windowRows_perm.append windowRows_perm
  have hwhole : (windowRows planner₃ db accountId (some d₁) (some d₃)).Perm
      ((db.rowsWhen accountId (InWindow (some d₁) (some d₂)) ++
        db.rowsWhen accountId (InWindow (some (d₂ + 1)) (some d₃))) ++
          db.rowsWhen accountId (· = endOfDay d₂)) :=
    windowRows_perm.trans (rowsWhen_adjacent_perm h₁ h₂)
  have hnone : (∀ row ∈ db.statementRows accountId, row.2.createdAt ≠ endOfDay d₂) ↔
      db.rowsWhen accountId (· = endOfDay d₂) = [] := by
    rw [Database.rowsWhen, List.filter_eq_nil_iff]
    simp only [decide_eq_true_eq, ne_eq]
  have hsorted : ((windowStatement planner₁ db accountId (some d₁) (some d₂)).entries ++
      (windowStatement planner₂ db accountId (some (d₂ + 1)) (some d₃)).entries).Pairwise
        fun l m => l.createdAt ≤ m.createdAt := by
    refine List.pairwise_map.mp ?_
    rw [List.map_append, windowStatement, windowStatement, map_createdAt_statementEntries,
      map_createdAt_statementEntries, ← List.map_append]
    exact List.pairwise_map.mpr (pairwise_adjacent planner₁ planner₂ d₁ d₂ d₃)
  rw [Partitions, hnone, and_iff_left hsorted, List.map_append, windowStatement, windowStatement,
    windowStatement, map_unbalanced_statementEntries, map_unbalanced_statementEntries,
    map_unbalanced_statementEntries, ← List.map_append]
  constructor
  · intro hperm
    -- both sides have as many lines, so none is left for the rows in between
    have hlength := hperm.length_eq
    rw [List.length_map, List.length_map, hboth.length_eq, hwhole.length_eq] at hlength
    simp only [List.length_append] at hlength
    exact List.length_eq_zero_iff.mp (by omega)
  · intro hempty
    rw [hempty, List.append_nil] at hwhole
    exact (hboth.trans hwhole.symm).map _

end Adjacent

/-- **Adjacent statements partition the history** exactly when no row of the account stands at the
last microsecond between them. -/
theorem statement_partition_iff (hfound : db.accountById accountId = some account)
    (d₁ d₂ d₃ : Date) (h₁ : d₁ ≤ d₂) (h₂ : d₂ < d₃) (planner₁ planner₂ planner₃ : Planner) :
    ∃ first second whole,
      read planner₁ db (getStatement accountId (some d₁) (some d₂)) = .ok first ∧
      read planner₂ db (getStatement accountId (some (d₂ + 1)) (some d₃)) = .ok second ∧
      read planner₃ db (getStatement accountId (some d₁) (some d₃)) = .ok whole ∧
      (Partitions first second whole ↔
        ∀ row ∈ db.statementRows accountId, row.2.createdAt ≠ endOfDay d₂) :=
  ⟨_, _, _, read_statement hfound, read_statement hfound, read_statement hfound,
    partitions_iff h₁ h₂ planner₁ planner₂ planner₃⟩

/-- No row of the sample stands between its two days. -/
theorem statement_partition_nextDayLedger :
    ∃ first second whole,
      read .stable nextDayLedger (getStatement 2 (some 0) (some 0)) = .ok first ∧
      read .stable nextDayLedger (getStatement 2 (some (0 + 1)) (some 1)) = .ok second ∧
      read .stable nextDayLedger (getStatement 2 (some 0) (some 1)) = .ok whole ∧
      Partitions first second whole := by
  obtain ⟨first, second, whole, hfirst, hsecond, hwhole, hiff⟩ :=
    statement_partition_iff nextDayLedger_outcome.1 0 0 1 (by decide) (by decide) .stable .stable
      .stable
  exact ⟨first, second, whole, hfirst, hsecond, hwhole, hiff.mpr (by decide +kernel)⟩

/-- A deposit in the last microsecond of a day. -/
def midnightLedger : Database :=
  serveAll sha256 sampleDatabase
    [.call (.createTransaction sampleDeposit { sampleGenerated 1 with now := endOfDay 0 })]

theorem midnightLedger_outcome :
    midnightLedger.accountById 2 = some ⟨2, "alice", false, 0⟩ ∧
      (midnightLedger.statementRows 2).map (·.2.createdAt) = [endOfDay 0] := by
  decide +kernel

/-- **An entry that neither statement shows**: it was made in the last microsecond of a day. -/
theorem statement_partition_fails :
    Reachable sha256 midnightLedger ∧ ∃ first second whole,
      read .stable midnightLedger (getStatement 2 (some 0) (some 0)) = .ok first ∧
      read .stable midnightLedger (getStatement 2 (some (0 + 1)) (some 1)) = .ok second ∧
      read .stable midnightLedger (getStatement 2 (some 0) (some 1)) = .ok whole ∧
      ¬ Partitions first second whole := by
  obtain ⟨hfound, htimes⟩ := midnightLedger_outcome
  refine ⟨(Reachable.initial initial_sampleDatabase).serveAll _, _, _, _, read_statement hfound,
    read_statement hfound, read_statement hfound, fun hpartitions => ?_⟩
  have h₁ : (0 : Date) ≤ 0 := by decide
  have h₂ : (0 : Date) < 1 := by decide
  have hnone := (partitions_iff h₁ h₂ .stable .stable .stable).mp hpartitions
  have hmem : endOfDay 0 ∈ (midnightLedger.statementRows 2).map (·.2.createdAt) := by
    rw [htimes]
    exact List.mem_singleton_self _
  obtain ⟨row, hrow, htime⟩ := List.mem_map.mp hmem
  exact hnone row hrow htime

end LedgerApi
