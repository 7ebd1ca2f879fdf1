import LedgerApi.Library.Progress
import LedgerApi.Serializability

/-! # Deadlock freedom of the write path

Every statement of the write path is issued under locks that come before its own in `lockOrder`
(`annotated_ledger`), so that sessions never wait for each other in a circle (`deadlock_free`). The
waits are those for the two advisory locks, for row locks on accounts, those of the foreign keys
included, and for uncommitted rows with the same unique key. So every call under way can come to its
end (`calls_end`). -/

namespace LedgerApi

open Sessions System

variable {H : HexHash} {db₀ : Database} {w : World sql Database Writes Resource Call Response}

/-- **Deadlock freedom**: however calls are interleaved, from any database and with any account ids
and keys, no session waits for itself through others. -/
theorem deadlock_free (h : (ledger H).Reachable (World.init db₀) w) (i : ℕ) :
    ¬ Relation.TransGen (WaitsFor (ledger H) w) i i :=
  not_waitsFor_cycle (C := ledgerContract (Committed H db₀) false) annotated_committed
    (fun _ _ hordered => hordered) (fun v a _ => admits_of_concurrent v a)
    (World.Sound.init History.nil) rfl h i

/-- The clearing account and three customers. -/
def crowdedDatabase : Database :=
  ⟨[⟨1, externalClearingName, true, 0⟩, ⟨2, "alice", false, 0⟩, ⟨3, "bob", false, 0⟩,
    ⟨4, "carol", false, 0⟩], [], [], []⟩

/-- A transfer of one cent. -/
def sampleTransfer (key : String) (source target : UUID) (h : ValidLength key) :
    TransactionCreate :=
  ⟨key, .transfer, ⟨1, -2⟩, none, some source, some target, none, h, by decide⟩

/-- Bob pays Carol, Alice pays Bob and makes a deposit: of the rows that each call locks in the
order of their ids, the second one is locked by the call before it. -/
def waitingRun : Option (World sql Database Writes Resource Call Response) :=
  (ledger sha256).run (fun _ _ => True) crowdedDatabase
    [.createTransaction (sampleTransfer "transfer-1" 3 4 (by decide)) (sampleGenerated 1),
      .createTransaction (sampleTransfer "transfer-2" 2 3 (by decide)) (sampleGenerated 2),
      .createTransaction sampleDeposit (sampleGenerated 3)]
    [0, 0, 0, 1, 1, 2, 2, 2]

theorem waitingRun_outcome :
    waitingRun.map (fun w =>
      decide (WaitsFor (ledger sha256) w 2 1 ∧ WaitsFor (ledger sha256) w 1 0)) = some true := by
  decide +kernel

/-- In that run the third session waits for the second and that one for the first, and none waits
for itself. -/
theorem deadlock_free_waitingRun :
    ∃ w, (WaitsFor (ledger sha256) w 2 1 ∧ WaitsFor (ledger sha256) w 1 0) ∧
      ∀ i, ¬ Relation.TransGen (WaitsFor (ledger sha256) w) i i := by
  obtain ⟨w, hw, hwaits⟩ := Option.map_eq_some_iff.mp waitingRun_outcome
  exact ⟨w, of_decide_eq_true hwaits, deadlock_free (Reaches.of_run hw)⟩

/-- **Calls end**: wherever an interleaving of calls has got to, one of the sessions still running
can go on; carried on in some order, all of them return or raise; and no run goes on for ever unless
new calls keep coming. -/
theorem calls_end (h : (ledger H).Reachable (World.init db₀) w) :
    (∀ i s, w.Running i s → ∃ a v, Action.Forward a ∧ (ledger H).step w a = some v) ∧
      (∃ v, (ledger H).Reaches (fun _ a => a.Forward) w v ∧ (∀ i s, ¬ v.Running i s) ∧
        ∀ i s, w.Running i s → ∃ verdict, v.slots[i]? = some (.finished s.call verdict) ∧
          verdict ≠ .lost) ∧
      ∀ (ws : ℕ → World sql Database Writes Resource Call Response) (as : ℕ → Action Call),
        ws 0 = w → (∀ n, (ledger H).step (ws n) (as n) = some (ws (n + 1))) →
        ∀ n, ∃ m ≥ n, ∃ call, as m = .start call := by
  have hcycle : ∀ {v}, (ledger H).Reachable (World.init db₀) v → ∀ i,
      ¬ Relation.TransGen (WaitsFor (ledger H) v) i i := fun hv i =>
    not_waitsFor_cycle (C := ledgerContract (Committed H db₀) false) annotated_committed
      (fun _ _ hordered => hordered) (fun v a _ => admits_of_concurrent v a)
      (World.Sound.init History.nil) rfl hv i
  refine ⟨fun i s hs => exists_forward (hcycle h) hs, ?_, fun ws as _ hrun n =>
    frequently_starts hrun n⟩
  exact exists_rest fun v hv => hcycle (h.trans hv.reachable)

/-- The run in which three calls wait in a row can be brought to its end. -/
theorem calls_end_waitingRun :
    ∃ w, WaitsFor (ledger sha256) w 2 1 ∧
      ∃ v, (ledger sha256).Reaches (fun _ a => a.Forward) w v ∧ ∀ i s, ¬ v.Running i s := by
  obtain ⟨w, hw, hwaits⟩ := Option.map_eq_some_iff.mp waitingRun_outcome
  obtain ⟨-, ⟨v, hv, hrest, -⟩, -⟩ := calls_end (Reaches.of_run hw)
  exact ⟨w, (of_decide_eq_true hwaits).1, v, hv, hrest⟩

end LedgerApi
