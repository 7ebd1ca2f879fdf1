import LedgerApi.Serializability

/-! # Idempotency under concurrency

What a call gets whose idempotency key another call has committed. In a run in which no call commits
while another one has looked up the same key in vain (`NoOvertaking`), it gets the committed
transaction or, with other parameters, the conflict (`replays_answered`). Without that condition it
may run into the unique index on the key (`replay_overtaken`): `create_transaction` looks its key up
before it takes any lock and does not look again. -/

namespace LedgerApi

open Sessions System

variable {H : HexHash} {db₀ db : Database} {log : List Call}
  {w : World sql Database Writes Resource Call Response}

/-! ## The canonical texts of a run -/

/-- The canonical text of a call, if it has one. -/
def Call.canonicalText : Call → Option String
  | postAccount _ _ _ => none
  | createTransaction data _ => some (canonicalRequest data)

/-- The call that runs or ran in a slot. -/
def slotCall : Slot sql Writes Resource Call Response → Call
  | .running s => s.call
  | .finished call _ => call

/-- The canonical texts that a run has hashed. -/
def canonicalTexts (w : World sql Database Writes Resource Call Response) : List String :=
  (w.shared.log ++ w.slots.map slotCall).filterMap Call.canonicalText

/-! ## Committed calls -/

/-- The row of a committed call. -/
theorem History.exists_row (h : History H db₀ log db) {data : TransactionCreate} {gen : Generated}
    (hcall : .createTransaction data gen ∈ log) :
    ∃ row ∈ db.transactions, row.id = gen.transactionId ∧
      row.idempotencyKey = data.idempotencyKey ∧ row.requestHash = requestHash H data := by
  induction h with
  | nil => cases hcall
  | @snoc log db call w _ hcommits ih =>
      rcases List.mem_append.mp hcall with hcall | hcall
      · obtain ⟨row, hrow, h⟩ := ih hcall
        refine ⟨row, ?_, h⟩
        rw [Database.view_transactions hcommits.fresh.rechained]
        exact List.mem_append_left _ hrow
      · obtain rfl := List.mem_singleton.mp hcall
        cases hcommits with
        | createTransaction =>
            exact ⟨_, List.mem_append_right _ (List.mem_singleton_self _), rfl, rfl, rfl⟩

/-! ## Calls that carry a committed key -/

/-- The keys that the session in a slot has looked up in vain. -/
def slotMissed : Slot sql Writes Resource Call Response → List String
  | .running s => s.pending.missed
  | .finished _ _ => []

/-- The keys that the session in a slot commits when it goes on. -/
def slotCommitting : Slot sql Writes Resource Call Response → List String
  | .running ⟨_, .commit _, pending, _, _⟩ => pending.transactions.map (·.idempotencyKey)
  | _ => []

/-- **No overtaking**: no step commits a key that another running call has looked up in vain. -/
def NoOvertaking (w : World sql Database Writes Resource Call Response) : Action Call → Prop
  | .advance i => ∀ slot ∈ w.slots[i]?, ∀ j ∈ List.range w.slots.length, j ≠ i →
      ∀ other ∈ w.slots[j]?, ∀ key ∈ slotCommitting slot, key ∉ slotMissed other
  | _ => True

instance (w : World sql Database Writes Resource Call Response) :
    (a : Action Call) → Decidable (NoOvertaking w a)
  | .start _ => isTrue trivial
  | .acquire _ => isTrue trivial
  | .advance i => inferInstanceAs (Decidable (∀ slot ∈ w.slots[i]?, ∀ j ∈ List.range w.slots.length,
      j ≠ i → ∀ other ∈ w.slots[j]?, ∀ key ∈ slotCommitting slot, key ∉ slotMissed other))
  | .fault _ => isTrue trivial

/-- Without overtaking, commits keep to the contract under which a lookup in vain stays true. -/
theorem NoOvertaking.admits {inv : Shared sql Database Call → Prop} {a : Action Call}
    (h : NoOvertaking w a) : (ledgerContract inv true).Admits w a := by
  rintro i ⟨call, prog, pending, held, acquired⟩ next rfl hs rfl j t hji ht - row hrow
  have hj : j < w.slots.length := (List.getElem?_eq_some_iff.mp ht).1
  exact h _ hs j (List.mem_range.mpr hj) hji _ ht _ (List.mem_map_of_mem hrow)

/-- Calls that carry a committed key and are about to end: with the same parameters they return the
committed transaction, with others they raise the conflict. -/
def ReplaysAnswered (w : World sql Database Writes Resource Call Response) : Prop :=
  ∀ data₀ gen₀, .createTransaction data₀ gen₀ ∈ w.shared.log →
    ∀ i s data gen, w.Running i s → s.call = .createTransaction data gen →
      data.idempotencyKey = data₀.idempotencyKey →
        (∀ answer, s.prog = .ret answer → data.parameters = data₀.parameters ∧
          ∃ row ∈ w.shared.store.transactions, row.id = gen₀.transactionId ∧
            answer = .transaction row.load) ∧
        ∀ e, s.prog = .raise e → data.parameters ≠ data₀.parameters ∧
          e = .http 409 "Idempotency key already used with different parameters"

/-- A world reached without overtaking is sound, lookups in vain included. -/
theorem sound_of_noOvertaking (h : (ledger H).Reaches NoOvertaking (World.init db₀) w) :
    w.Sound (ledgerContract (Committed H db₀) true) (ledger H) (CallReturns H)
      (CallRaises H true) :=
  World.Sound.of_reaches annotated_committed (fun _ _ hadm => hadm.admits)
    (World.Sound.init History.nil) h

/-- **Idempotency under concurrency**: without overtaking, every call that carries a committed key
ends as it should. -/
theorem replays_answered (h₀ : Reachable H db₀)
    (h : (ledger H).Reaches NoOvertaking (World.init db₀) w)
    (hH : H.CollisionFree (canonicalTexts w)) : ReplaysAnswered w := by
  intro data₀ gen₀ hlog i s data gen hs hcall hkey
  have hsound := sound_of_noOvertaking h
  have hconsistent := consistent_of_ledger h₀ h.reachable
  obtain ⟨row₀, hrow₀, hid₀, hkey₀, hhash₀⟩ := (ledger_history h.reachable).exists_row hlog
  -- the row of the committed call is the only one with the key
  have hunique : ∀ row ∈ w.shared.store.transactions,
      row.idempotencyKey = data.idempotencyKey → row = row₀ := fun row hrow hrowKey =>
    List.inj_on_of_nodup_map (Database.nodup_idempotencyKeys hconsistent.keys) hrow hrow₀
      ((hrowKey.trans hkey).trans hkey₀.symm)
  have htext₀ : canonicalRequest data₀ ∈ canonicalTexts w :=
    List.mem_filterMap.mpr ⟨_, List.mem_append_left _ hlog, rfl⟩
  have htext : canonicalRequest data ∈ canonicalTexts w := by
    refine List.mem_filterMap.mpr ⟨s.call, List.mem_append_right _ ?_, by rw [hcall]; rfl⟩
    exact List.mem_map.mpr ⟨_, List.mem_of_getElem? hs, rfl⟩
  constructor
  · intro answer hprog
    have hreturns := hsound.returned hs hprog
    rw [hcall] at hreturns
    obtain ⟨txn, rfl, row, hrow, hrowKey, hrowHash, rfl⟩ := hreturns
    obtain rfl := hunique row hrow hrowKey
    have hhash : H.hexdigest (canonicalRequest data) = H.hexdigest (canonicalRequest data₀) :=
      hrowHash.symm.trans hhash₀
    exact ⟨canonicalRequest_inj (hH _ htext _ htext₀ hhash), row, hrow, hid₀, rfl⟩
  · intro e hprog
    have hraises := hsound.raised hs hprog
    rw [hcall] at hraises
    rcases hraises with ⟨he, row, hrow, hrowKey, hrowHash⟩ | ⟨-, -, hserial⟩
    · obtain rfl := hunique row hrow hrowKey
      refine ⟨fun hsame => hrowHash ?_, he⟩
      rw [hhash₀, requestHash, requestHash, canonicalRequest_congr hsame]
    · -- a call that has looked up its key in vain could not see it committed
      have hnone := List.find?_eq_none.mp (hserial rfl).2 row₀ hrow₀
      exact absurd (by rw [hkey₀, hkey]; exact decide_eq_true rfl) hnone

/-! ## Runs -/

/-- How the session in a slot is about to end. -/
def slotEnding : Slot sql Writes Resource Call Response → Option (Except Exn Response)
  | .running ⟨_, .ret answer, _, _, _⟩ => some (.ok answer)
  | .running ⟨_, .raise e, _, _, _⟩ => some (.error e)
  | _ => none

/-- A session about to end with an exception raises it. -/
theorem exists_of_slotEnding_error {slot : Slot sql Writes Resource Call Response} {e : Exn}
    (h : slotEnding slot = some (.error e)) : ∃ s, slot = .running s ∧ s.prog = .raise e := by
  unfold slotEnding at h
  split at h
  case h_1 => cases h
  case h_2 => cases h; exact ⟨_, rfl, rfl⟩
  case h_3 => cases h

/-- The deposit of the sample run, with another amount. -/
def changedDeposit : TransactionCreate :=
  ⟨"deposit-1", .deposit, ⟨2, 1⟩, some 2, none, none, none, sampleDeposit.valid_key, by decide⟩

/-- A deposit commits; then it is sent again, once unchanged and once changed. -/
def replayedRun : Option (World sql Database Writes Resource Call Response) :=
  (ledger sha256).run NoOvertaking sampleDatabase
    [.createTransaction sampleDeposit (sampleGenerated 1),
      .createTransaction sampleDeposit (sampleGenerated 2),
      .createTransaction changedDeposit (sampleGenerated 3)]
    (List.replicate 13 0 ++ [1, 2])

/-- The second call of the run is about to return and the third to raise. -/
theorem replayedRun_outcome :
    replayedRun.map (fun w => (w.shared.log, w.slots.map fun slot => (slotEnding slot).map (·.isOk),
        decide (sha256.CollisionFree (canonicalTexts w)))) =
      some ([.createTransaction sampleDeposit (sampleGenerated 1)],
        [none, some true, some false], true) := by
  decide +kernel

/-- In that run both calls with the committed key are answered. -/
theorem replays_answered_replayedRun :
    ∃ w : World sql Database Writes Resource Call Response,
      (w.slots.map fun slot => (slotEnding slot).map (·.isOk)) = [none, some true, some false] ∧
      w.shared.log = [.createTransaction sampleDeposit (sampleGenerated 1)] ∧
      ReplaysAnswered w := by
  obtain ⟨w, hw, houtcome⟩ := Option.map_eq_some_iff.mp replayedRun_outcome
  simp only [Prod.mk.injEq, decide_eq_true_eq] at houtcome
  obtain ⟨hlog, hslots, hH⟩ := houtcome
  exact ⟨w, hslots, hlog,
    replays_answered (.initial initial_sampleDatabase) (Reaches.of_run hw) hH⟩

/-- Two copies of a deposit look up their key before either commits. -/
def overtakenRun : Option (World sql Database Writes Resource Call Response) :=
  (ledger sha256).run (fun _ _ => True) sampleDatabase
    [.createTransaction sampleDeposit (sampleGenerated 1),
      .createTransaction sampleDeposit (sampleGenerated 2)]
    ([0, 1] ++ List.replicate 10 0 ++ List.replicate 4 1)

/-- The first copy has committed, and the second is about to end with a violation of the unique
index on the key. -/
theorem overtakenRun_outcome :
    overtakenRun.map (fun w => (w.shared.log, w.slots[1]?.map slotCall,
        w.slots[1]?.bind slotEnding, decide (sha256.CollisionFree (canonicalTexts w)))) =
      some ([.createTransaction sampleDeposit (sampleGenerated 1)],
        some (.createTransaction sampleDeposit (sampleGenerated 2)),
        some (.error (.uniqueViolation (.transactionsIdempotencyKey "deposit-1"))), true) := by
  decide +kernel

/-- **A call that is overtaken** by a copy of itself is not answered. -/
theorem replay_overtaken :
    ∃ w, (ledger sha256).Reachable (World.init sampleDatabase) w ∧
      sha256.CollisionFree (canonicalTexts w) ∧ ¬ ReplaysAnswered w := by
  obtain ⟨w, hw, houtcome⟩ := Option.map_eq_some_iff.mp overtakenRun_outcome
  simp only [Prod.mk.injEq, decide_eq_true_eq] at houtcome
  obtain ⟨hlog, hcall, hending, hH⟩ := houtcome
  obtain ⟨slot, hslot, hending⟩ := Option.bind_eq_some_iff.mp hending
  obtain ⟨s, rfl, hprog⟩ := exists_of_slotEnding_error hending
  rw [hslot, Option.map_some, Option.some.injEq] at hcall
  refine ⟨w, Reaches.of_run hw, hH, fun hanswered => ?_⟩
  have hraises := (hanswered sampleDeposit (sampleGenerated 1) (hlog ▸ List.mem_singleton_self _)
    1 s sampleDeposit (sampleGenerated 2) hslot hcall rfl).2 _ hprog
  cases hraises.2

end LedgerApi
