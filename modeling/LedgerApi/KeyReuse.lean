import LedgerApi.AppendOnly
import LedgerApi.Idempotency
import LedgerApi.Retries

/-! # Keys that are used again

What becomes of a request whose idempotency key belongs to a committed transaction: it is answered
with that transaction or refused with 409, whichever the two request hashes say, and nothing changes
(`serve_reuse`).

* A request that differs from the original in anything but the form of its amount is refused, if
  SHA-256 tells the two canonical texts apart (`different_request_refused`).
* A request that means the same is recognised when its amount has the form of the original, and only
  then: `10` is not `1E+1` (`same_request_recognised_iff`). -/

namespace LedgerApi

open Sessions System

variable {H : HexHash} {db₀ : Database} {data data₀ : TransactionCreate} {gen gen₀ : Generated}

/-! ## Requests that mean the same -/

/-- **Two requests mean the same**: their amounts are equal numbers, and all else is the same. -/
structure SameMeaning (data data₀ : TransactionCreate) : Prop where
  idempotencyKey : data.idempotencyKey = data₀.idempotencyKey
  type : data.type = data₀.type
  amount : data.amount.NumEq data₀.amount
  accountId : data.accountId = data₀.accountId
  fromAccountId : data.fromAccountId = data₀.fromAccountId
  toAccountId : data.toAccountId = data₀.toAccountId
  reference : data.reference = data₀.reference

instance (data data₀ : TransactionCreate) : Decidable (SameMeaning data data₀) :=
  decidable_of_iff (data.idempotencyKey = data₀.idempotencyKey ∧ data.type = data₀.type ∧
    data.amount.NumEq data₀.amount ∧ data.accountId = data₀.accountId ∧
    data.fromAccountId = data₀.fromAccountId ∧ data.toAccountId = data₀.toAccountId ∧
    data.reference = data₀.reference)
    ⟨fun ⟨hkey, htype, hamount, haccount, hfrom, hto, hreference⟩ =>
      ⟨hkey, htype, hamount, haccount, hfrom, hto, hreference⟩,
    fun h => ⟨h.idempotencyKey, h.type, h.amount, h.accountId, h.fromAccountId, h.toAccountId,
      h.reference⟩⟩

/-- The same parameters mean the same. -/
theorem SameMeaning.of_parameters (hkey : data.idempotencyKey = data₀.idempotencyKey)
    (h : data.parameters = data₀.parameters) : SameMeaning data data₀ := by
  simp only [TransactionCreate.parameters, Prod.mk.injEq] at h
  obtain ⟨htype, hamount, haccount, hfrom, hto, hreference⟩ := h
  refine ⟨hkey, htype, ?_, haccount, hfrom, hto, hreference⟩
  rw [hamount, Decimal.numEq_iff_toRat_eq]

/-- Requests that mean the same have the same parameters but for the form of the amount. -/
theorem SameMeaning.parameters_iff (h : SameMeaning data data₀) :
    data.parameters = data₀.parameters ↔ data.amount = data₀.amount := by
  simp [TransactionCreate.parameters, h.type, h.accountId, h.fromAccountId, h.toAccountId,
    h.reference]

/-- **Request hashes** agree on requests with the same parameters, and on no others unless SHA-256
collides on their texts. -/
theorem requestHash_eq_iff
    (hH : H.CollisionFree [canonicalRequest data₀, canonicalRequest data]) :
    requestHash H data₀ = requestHash H data ↔ data.parameters = data₀.parameters := by
  constructor
  · intro hhash
    have htext := hH _ List.mem_cons_self _ (List.mem_cons_of_mem _ List.mem_cons_self) hhash
    exact (canonicalRequest_inj htext).symm
  · intro hparameters
    rw [requestHash, requestHash, canonicalRequest_congr hparameters]

/-! ## Keys of committed transactions -/

section Runs

variable {w : World sql Database Writes Resource Request Response} (h₀ : Initial db₀)
  (h : (api H).Reachable (World.init db₀) w)
  (hcall : .call (.createTransaction data₀ gen₀) ∈ w.shared.log)
include h₀ h hcall

omit h₀ in
/-- The row of a committed request. -/
theorem exists_row_of_api : ∃ row ∈ w.shared.store.transactions, row.id = gen₀.transactionId ∧
    row.idempotencyKey = data₀.idempotencyKey ∧ row.requestHash = requestHash H data₀ := by
  obtain ⟨w', hw', hshadows⟩ := (hideRelay H).exists_shadow SameRows.refl h
  have halike : SameRows w.shared.store w'.shared.store := hshadows.alike
  have hcall' : .createTransaction data₀ gen₀ ∈ w'.shared.log := by
    rw [hshadows.log]
    exact List.mem_filterMap.mpr ⟨_, hcall, rfl⟩
  rw [← halike.transactions]
  exact (ledger_history hw').exists_row hcall'

/-- **A key that is used again**: the answer is the transaction of the key or 409, as the request
hashes say, and nothing changes. -/
theorem serve_reuse (hkey : data.idempotencyKey = data₀.idempotencyKey) (gen : Generated) :
    ∃ row ∈ w.shared.store.transactions, row.id = gen₀.transactionId ∧
      (requestHash H data₀ = requestHash H data →
        serve H w.shared.store (.call (.createTransaction data gen)) =
          (.ok (.transaction row.load), w.shared.store)) ∧
      (requestHash H data₀ ≠ requestHash H data →
        serve H w.shared.store (.call (.createTransaction data gen)) =
          (.error (.http 409 "Idempotency key already used with different parameters"),
            w.shared.store)) := by
  obtain ⟨row, hrow, hid, hrowKey, hhash⟩ := exists_row_of_api h hcall
  have hkeys := (consistent_of_api (.initial h₀) h).keys
  have hfound : w.shared.store.transactionByKey data.idempotencyKey = some row := by
    rw [hkey, ← hrowKey]
    exact Grouping.find?_eq_some (Database.nodup_idempotencyKeys hkeys) hrow
  refine ⟨row, hrow, hid, fun hsame => ?_, fun hother => ?_⟩
  · exact serve_replay hfound (hhash.trans hsame)
  · exact serve_conflict hfound (hhash.trans_ne hother)

/-- **Semantically equal retries**: a request that means the same as a committed one is answered
with the original, and nothing changes, when its amount has the same form; if SHA-256 does not
collide on the two texts, only then. -/
theorem same_request_recognised_iff (hsame : SameMeaning data data₀) (gen : Generated) :
    ∃ row ∈ w.shared.store.transactions, row.id = gen₀.transactionId ∧
      (data.amount = data₀.amount →
        serve H w.shared.store (.call (.createTransaction data gen)) =
          (.ok (.transaction row.load), w.shared.store)) ∧
      (H.CollisionFree [canonicalRequest data₀, canonicalRequest data] →
        (serve H w.shared.store (.call (.createTransaction data gen)) =
          (.ok (.transaction row.load), w.shared.store) ↔ data.amount = data₀.amount)) := by
  obtain ⟨row, hrow, hid, hreplay, hconflict⟩ := serve_reuse h₀ h hcall hsame.idempotencyKey gen
  have hrecognised : data.amount = data₀.amount →
      serve H w.shared.store (.call (.createTransaction data gen)) =
        (.ok (.transaction row.load), w.shared.store) := by
    intro hamount
    apply hreplay
    rw [requestHash, requestHash, canonicalRequest_congr (hsame.parameters_iff.mpr hamount)]
  refine ⟨row, hrow, hid, hrecognised, fun hH => ⟨fun hserve => ?_, hrecognised⟩⟩
  by_contra hamount
  have hhash : requestHash H data₀ ≠ requestHash H data := by
    intro hhash
    exact hamount (hsame.parameters_iff.mp ((requestHash_eq_iff hH).mp hhash))
  rw [hconflict hhash, Prod.mk.injEq] at hserve
  cases hserve.1

/-- **A reused key never hides a different request**: one that differs from the committed request in
its type, the value of its amount, an account or its reference is refused, and nothing changes. -/
theorem different_request_refused (hkey : data.idempotencyKey = data₀.idempotencyKey)
    (hdifferent : data.type ≠ data₀.type ∨ ¬ data.amount.NumEq data₀.amount ∨
      data.accountId ≠ data₀.accountId ∨ data.fromAccountId ≠ data₀.fromAccountId ∨
      data.toAccountId ≠ data₀.toAccountId ∨ data.reference ≠ data₀.reference)
    (hH : H.CollisionFree [canonicalRequest data₀, canonicalRequest data]) (gen : Generated) :
    serve H w.shared.store (.call (.createTransaction data gen)) =
      (.error (.http 409 "Idempotency key already used with different parameters"),
        w.shared.store) := by
  obtain ⟨row, -, -, -, hconflict⟩ := serve_reuse h₀ h hcall hkey gen
  apply hconflict
  intro hhash
  -- with the same parameters the requests would mean the same
  have hsame := SameMeaning.of_parameters hkey ((requestHash_eq_iff hH).mp hhash)
  rcases hdifferent with h | h | h | h | h | h
  · exact h hsame.type
  · exact h hsame.amount
  · exact h hsame.accountId
  · exact h hsame.fromAccountId
  · exact h hsame.toAccountId
  · exact h hsame.reference

end Runs

/-! ## A deposit of ten -/

/-- What a run of one deposit has committed. -/
theorem depositRun_log :
    depositRun.map (fun w => w.shared.log.filterMap Request.writer) =
      some [.createTransaction sampleDeposit (sampleGenerated 1)] := by
  decide +kernel

/-- The deposit is in the log. -/
theorem exists_depositRun : ∃ w, (api sha256).Reachable (World.init sampleDatabase) w ∧
    .call (.createTransaction sampleDeposit (sampleGenerated 1)) ∈ w.shared.log := by
  obtain ⟨w, hw, hlog⟩ := Option.map_eq_some_iff.mp depositRun_log
  refine ⟨w, Reaches.of_run hw, ?_⟩
  have hmem : .createTransaction sampleDeposit (sampleGenerated 1) ∈
      w.shared.log.filterMap Request.writer := by
    rw [hlog]
    exact List.mem_singleton_self _
  obtain ⟨r, hr, hwriter⟩ := List.mem_filterMap.mp hmem
  cases r with
  | call call => exact Option.some.inj hwriter ▸ hr
  | outboxPublish limit accepts now => cases hwriter

/-- The deposit of `1E+1` once more, as `10`. -/
def plainDeposit : TransactionCreate :=
  { sampleDeposit with amount := ⟨10, 0⟩, valid_amount := by decide }

/-- The deposit once more, with a reference that reads like none. -/
def nullDeposit : TransactionCreate := { sampleDeposit with reference := some "null" }

/-- SHA-256 tells their texts apart. -/
theorem collisionFree_deposits :
    sha256.CollisionFree [canonicalRequest sampleDeposit, canonicalRequest plainDeposit] ∧
      sha256.CollisionFree [canonicalRequest sampleDeposit, canonicalRequest nullDeposit] := by
  have hdigests : sha256.hexdigest (canonicalRequest sampleDeposit) ∉
      [canonicalRequest plainDeposit, canonicalRequest nullDeposit].map sha256.hexdigest := by
    decide +kernel
  rw [List.map_cons, List.mem_cons, List.map_singleton, List.mem_singleton, not_or] at hdigests
  exact ⟨HexHash.collisionFree_pair hdigests.1, HexHash.collisionFree_pair hdigests.2⟩

/-- Sent once more as it was, the deposit is recognised. -/
theorem same_request_recognised_depositRun : ∃ w,
    (api sha256).Reachable (World.init sampleDatabase) w ∧
      ∃ row ∈ w.shared.store.transactions, row.id = (sampleGenerated 1).transactionId ∧
        serve sha256 w.shared.store (.call (.createTransaction sampleDeposit (sampleGenerated 2))) =
          (.ok (.transaction row.load), w.shared.store) := by
  obtain ⟨w, hw, hcall⟩ := exists_depositRun
  obtain ⟨row, hrow, hid, hrecognised, -⟩ := same_request_recognised_iff initial_sampleDatabase hw
    hcall (by decide : SameMeaning sampleDeposit sampleDeposit) (sampleGenerated 2)
  exact ⟨w, hw, row, hrow, hid, hrecognised rfl⟩

/-- **A retry that is not recognised**: `10` is not `1E+1`. -/
theorem same_request_refused : ∃ w,
    (api sha256).Reachable (World.init sampleDatabase) w ∧
      .call (.createTransaction sampleDeposit (sampleGenerated 1)) ∈ w.shared.log ∧
      SameMeaning plainDeposit sampleDeposit ∧
      serve sha256 w.shared.store (.call (.createTransaction plainDeposit (sampleGenerated 2))) =
        (.error (.http 409 "Idempotency key already used with different parameters"),
          w.shared.store) := by
  obtain ⟨w, hw, hcall⟩ := exists_depositRun
  obtain ⟨row, -, -, -, hconflict⟩ :=
    serve_reuse initial_sampleDatabase hw hcall (rfl : plainDeposit.idempotencyKey = _)
      (sampleGenerated 2)
  refine ⟨w, hw, hcall, by decide, hconflict fun hhash => ?_⟩
  have hparameters := (requestHash_eq_iff collisionFree_deposits.1).mp hhash
  exact absurd hparameters (by decide)

/-- With another reference it is refused. -/
theorem different_request_refused_depositRun : ∃ w,
    (api sha256).Reachable (World.init sampleDatabase) w ∧
      serve sha256 w.shared.store (.call (.createTransaction nullDeposit (sampleGenerated 2))) =
        (.error (.http 409 "Idempotency key already used with different parameters"),
          w.shared.store) := by
  obtain ⟨w, hw, hcall⟩ := exists_depositRun
  have hkey : nullDeposit.idempotencyKey = sampleDeposit.idempotencyKey := rfl
  have hreference : nullDeposit.reference ≠ sampleDeposit.reference := by decide
  refine ⟨w, hw, ?_⟩
  exact different_request_refused initial_sampleDatabase hw hcall hkey (by simp [hreference])
    collisionFree_deposits.2 (sampleGenerated 2)

end LedgerApi
