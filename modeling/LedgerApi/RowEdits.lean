import LedgerApi.Application
import LedgerApi.HashCommitment

/-! # Rows that are modified

A row of `transactions` whose request columns are overwritten while every row keeps its columns of
the chain. The chain hash covers the key, the type, the amount and the request hash, and the
verifier fails exactly when one of these has changed (`row_edit_found_iff`). It does not cover
`reference`, which only the request hash knows of, and that is not recomputed: a reference alone can
be rewritten unnoticed (`reference_edit_passes`).

Whatever is done to a part of the chain, by edits, deletions or insertions, the verifier reports
nothing but the rows of that part and the first row after it (`tampering_located`). -/

namespace LedgerApi

open Sessions HashChain

/-- The request columns of a row of `transactions`. -/
structure RequestColumns where
  idempotencyKey : String
  type : TransactionType
  amount : ℤ
  requestHash : String
  reference : Option String
  /-- The column is a `VARCHAR(64)`. -/
  length_requestHash : requestHash.length ≤ 64

/-- A row with other request columns. Its id and its place in the chain are its own. -/
def Transaction.withRequest (row : Transaction ℤ) (edit : RequestColumns) : Transaction ℤ :=
  { row with
    idempotencyKey := edit.idempotencyKey
    type := edit.type
    amount := edit.amount
    requestHash := edit.requestHash
    reference := edit.reference }

/-- A row after the edit of the row with a given id. -/
def Transaction.edited (id : UUID) (edit : RequestColumns) (row : Transaction ℤ) : Transaction ℤ :=
  if row.id = id then row.withRequest edit else row

/-- The database with the request columns of one row overwritten. -/
def Database.editTransaction (db : Database) (id : UUID) (edit : RequestColumns) : Database :=
  { db with transactions := db.transactions.map (Transaction.edited id edit) }

/-- The edit changes a column that the chain hash covers. -/
def RequestColumns.ChangesHashed (edit : RequestColumns) (row : Transaction ℤ) : Prop :=
  edit.idempotencyKey ≠ row.idempotencyKey ∨ edit.type ≠ row.type ∨ edit.amount ≠ row.amount ∨
    edit.requestHash ≠ row.requestHash

instance (edit : RequestColumns) (row : Transaction ℤ) : Decidable (edit.ChangesHashed row) :=
  inferInstanceAs (Decidable (_ ∨ _))

variable {H : HexHash} {db db₀ : Database} {row : Transaction ℤ} {edit : RequestColumns}

/-! ## The edited chain -/

section Edited

variable (id : UUID) (edit : RequestColumns) (row : Transaction ℤ)

@[simp] theorem Transaction.edited_prevHash : (row.edited id edit).prevHash = row.prevHash := by
  unfold edited
  split <;> rfl

@[simp] theorem Transaction.edited_chainHash : (row.edited id edit).chainHash = row.chainHash := by
  unfold edited
  split <;> rfl

@[simp] theorem Transaction.edited_chainSeq : (row.edited id edit).chainSeq = row.chainSeq := by
  unfold edited
  split <;> rfl

end Edited

/-- Every row of a consistent database stays where it is in the chain. -/
theorem Consistent.chain_editTransaction (h : Consistent H db) (id : UUID) (edit : RequestColumns) :
    (db.editTransaction id edit).chain = db.transactions.map (Transaction.edited id edit) := by
  refine Database.chain_eq_of_perm (List.Perm.refl (db.transactions.map _)) ?_
  have hseq : (·.chainSeq) ∘ Transaction.edited id edit = fun row => row.chainSeq := by
    funext row
    exact row.edited_chainSeq id edit
  rw [Numbered, List.map_map, List.length_map, hseq]
  exact h.chain_seq

/-- The verifier passes the edited chain exactly when the row is hashed as before. -/
theorem Consistent.editTransaction_pass_iff (h : Consistent H db) (hrow : row ∈ db.transactions)
    (edit : RequestColumns) :
    (verifyHashChain H (db.editTransaction row.id edit)).status = .pass ↔
      computeChainHash H (row.withRequest edit).load row.prevHash =
        computeChainHash H row.load row.prevHash := by
  have hids := Database.nodup_transactionIds h.keys
  have hedited : row.edited row.id edit = row.withRequest edit := if_pos rfl
  rw [verifyHashChain_eq_pass_iff, h.chain_editTransaction,
    h.linked.map_iff (Transaction.edited_prevHash row.id edit)
      (Transaction.edited_chainHash row.id edit)]
  constructor
  · intro hall
    have hself := hall row hrow
    rw [hedited] at hself
    exact Option.some.inj hself
  · intro hself other hother
    by_cases hid : other.id = row.id
    · -- there is one row with the id
      obtain rfl := List.inj_on_of_nodup_map hids hother hrow hid
      rw [hedited]
      exact congrArg some hself
    · rw [Transaction.edited, if_neg hid]

/-- The edited row has the payload of the row exactly when the edit changes no hashed column. -/
theorem Consistent.withRequest_payload_iff (h : Consistent H db) (hrow : row ∈ db.transactions)
    (edit : RequestColumns) :
    chainPayload (row.withRequest edit).load row.prevHash = chainPayload row.load row.prevHash ↔
      ¬ edit.ChangesHashed row := by
  constructor
  · intro hpayload
    have hfits : (row.withRequest edit).FitsSchema := by
      refine ⟨edit.length_requestHash, fun prev hprev => ?_⟩
      obtain ⟨digest, hdigest, hform⟩ := h.prev_digest hrow
      obtain rfl := Option.some.inj (hdigest.symm.trans hprev)
      exact hform.1.le
    obtain ⟨-, hkey, htype, hamount, hhash, -⟩ :=
      h.covered_eq_of_payload_eq hrow hfits hpayload.symm
    rintro (hne | hne | hne | hne)
    · exact hne hkey.symm
    · exact hne htype.symm
    · exact hne hamount.symm
    · exact hne hhash.symm
  · intro hsame
    unfold RequestColumns.ChangesHashed at hsame
    push Not at hsame
    obtain ⟨hkey, htype, hamount, hhash⟩ := hsame
    rw [chainPayload_load, chainPayload_load]
    simp only [Transaction.withRequest, hkey, htype, hamount, hhash]

/-- **Modified rows**: overwriting the request columns of a row of the chain is reported exactly
when its key, type, amount or request hash changes, if SHA-256 does not collide on the two
payloads. -/
theorem row_edit_found_iff {w : World sql Database Writes Resource Request Response}
    (h₀ : Reachable H db₀) (h : (api H).Reachable (World.init db₀) w)
    (hrow : row ∈ w.shared.store.chain)
    (hH : H.CollisionFree (payloads [row, row.withRequest edit])) :
    (verifyHashChain H (w.shared.store.editTransaction row.id edit)).status = .fail ↔
      edit.ChangesHashed row := by
  have hc := consistent_of_api h₀ h
  rw [hc.chain_eq] at hrow
  have hpass := hc.editTransaction_pass_iff hrow edit
  -- without a collision equal hashes are those of equal payloads
  have hhash : computeChainHash H (row.withRequest edit).load row.prevHash =
      computeChainHash H row.load row.prevHash ↔ ¬ edit.ChangesHashed row := by
    rw [← hc.withRequest_payload_iff hrow edit]
    refine ⟨fun heq => ?_, fun heq => congrArg H.hexdigest heq⟩
    exact hH _ (by simp [payloads, Transaction.withRequest]) _ (by simp [payloads]) heq
  rw [hhash] at hpass
  cases hstatus : (verifyHashChain H (w.shared.store.editTransaction row.id edit)).status with
  | pass => exact iff_of_false nofun (hpass.mp hstatus)
  | fail =>
      refine iff_of_true rfl ?_
      by_contra hsame
      rw [hpass.mpr hsame] at hstatus
      cases hstatus

/-! ## What is reported -/

/-- The walk over a chain goes on from the digest its first part ends with. -/
theorem brokenLinks_append (g : Option String) (xs ys : List (Transaction ℤ)) :
    brokenLinks H g (xs ++ ys) =
      brokenLinks H g xs ++ brokenLinks H (tip (chainScheme H) g xs) ys := by
  induction xs generalizing g with
  | nil => rfl
  | cons row xs ih => simp only [List.cons_append, brokenLinks, ih, List.append_assoc, tip]; rfl

/-- The broken links of a report, none if there is nothing to verify. -/
theorem brokenLinks_verifyHashChain (H : HexHash) (db : Database) :
    (verifyHashChain H db).brokenLinks.getD [] = brokenLinks H (some genesisHash) db.chain := by
  unfold verifyHashChain
  by_cases hnil : db.chain = []
  · rw [hnil]
    rfl
  · rw [if_neg hnil]
    rfl

/-- **Tampering is located**: when a part of the chain is replaced by any other rows, the verifier
reports nothing of the rows before it, and of those after it at most the first one, which it reports
exactly when the digest before it is another. -/
theorem tampering_located {w : World sql Database Writes Resource Request Response}
    (h₀ : Reachable H db₀) (h : (api H).Reachable (World.init db₀) w)
    {before part part' after : List (Transaction ℤ)}
    (hchain : w.shared.store.chain = before ++ part ++ after) {db' : Database}
    (hchain' : db'.chain = before ++ part' ++ after) :
    (verifyHashChain H db').brokenLinks.getD [] =
        brokenLinks H (tip (chainScheme H) (some genesisHash) before)
          (part' ++ after.head?.toList) ∧
      ∀ next ∈ after.head?,
        (brokenLinks H (tip (chainScheme H) (some genesisHash) (before ++ part')) [next] = [] ↔
          tip (chainScheme H) (some genesisHash) (before ++ part') =
            tip (chainScheme H) (some genesisHash) (before ++ part)) := by
  have hlinked := (consistent_of_api h₀ h).chainSound.linked
  rw [hchain, linked_append] at hlinked
  obtain ⟨hpart, hafter⟩ := hlinked
  have hbefore := ((linked_append _ _ _).mp hpart).1
  rw [brokenLinks_verifyHashChain, hchain', List.append_assoc, brokenLinks_append,
    (brokenLinks_eq_nil_iff H _ _).mpr hbefore, List.nil_append]
  cases after with
  | nil => exact ⟨rfl, fun _ hnext => by cases hnext⟩
  | cons next rest =>
      obtain ⟨hprev, hstored, hrest⟩ := hafter
      -- the rows after the first one are linked to it still
      have hquiet := (brokenLinks_eq_nil_iff H _ _).mpr hrest
      refine ⟨?_, ?_⟩
      · have hsplit : part' ++ next :: rest = (part' ++ [next]) ++ rest := by simp
        have htip : tip (chainScheme H) (tip (chainScheme H) (some genesisHash) before)
            (part' ++ [next]) = next.chainHash := tip_append_singleton _ _ _
        rw [hsplit, brokenLinks_append, htip]
        exact (congrArg _ hquiet).trans (List.append_nil _)
      · rintro next' hnext
        obtain rfl := Option.some.inj hnext
        rw [brokenLinks_eq_nil_iff, linked_cons, ← hprev]
        exact ⟨fun ⟨h, _⟩ => h.symm, fun h => ⟨h.symm, hstored, trivial⟩⟩

/-! ## Edits of a concrete ledger -/

/-- The columns of the deposit with a key that ends like the fields after it begin. -/
def shiftedColumns : RequestColumns where
  idempotencyKey := "deposit-1|deposit"
  type := .deposit
  amount := 1000
  requestHash := "512805c1698e4c4f916ad221f65926a3fac365ce0383ee23ee14f5fd47662e8f"
  reference := some "salary"
  length_requestHash := by decide

/-- The columns of the deposit with another reference. -/
def referenceColumns : RequestColumns :=
  { shiftedColumns with idempotencyKey := "deposit-1" }

/-- The deposit of the ledger. -/
theorem exists_row_sampleLedger : ∃ row ∈ sampleLedger.chain, row.id = 12 ∧
    computeChainHash sha256 row.load row.prevHash ≠
        computeChainHash sha256 (row.withRequest shiftedColumns).load row.prevHash ∧
      shiftedColumns.ChangesHashed row ∧ referenceColumns.reference ≠ row.reference ∧
      ¬ referenceColumns.ChangesHashed row := by
  rw [sampleLedger_chain]
  decide +kernel

/-- A key that shifts the fields of the payload is noticed. -/
theorem row_edit_found_shiftedColumns :
    (verifyHashChain sha256 (sampleLedger.editTransaction 12 shiftedColumns)).status = .fail := by
  obtain ⟨row, hrow, hid, hH, hchanges, -, -⟩ := exists_row_sampleLedger
  rw [← hid]
  exact (row_edit_found_iff (w := World.init sampleLedger) reachable_sampleLedger .refl hrow
    (HexHash.collisionFree_pair hH)).mpr hchanges

/-- Without the first transaction of the ledger, the second one is reported. -/
theorem tampering_located_withoutFirst :
    ∃ first second, sampleLedger.chain = [first, second] ∧
      (verifyHashChain sha256 withoutFirst).brokenLinks.getD [] =
        brokenLinks sha256 (some genesisHash) [second] ∧
      (brokenLinks sha256 (some genesisHash) [second] = [] ↔
        some genesisHash = first.chainHash) := by
  obtain ⟨first, second, hrows⟩ := List.length_eq_two.mp (show sampleRows.length = 2 from rfl)
  have hchain : sampleLedger.chain = [] ++ [first] ++ [second] := sampleLedger_chain.trans hrows
  have hchain' : withoutFirst.chain = [] ++ [] ++ [second] := by
    have hdrop : withoutFirst.chain = sampleRows.drop 1 := by decide +kernel
    rw [hdrop, hrows]
    rfl
  obtain ⟨hreport, hnext⟩ := tampering_located (w := World.init sampleLedger)
    reachable_sampleLedger .refl hchain hchain'
  exact ⟨first, second, hchain, hreport, hnext second rfl⟩

/-- **A rewritten reference is not reported.** -/
theorem reference_edit_passes : Reachable sha256 sampleLedger ∧ ∃ row ∈ sampleLedger.chain,
    row.id = 12 ∧ referenceColumns.reference ≠ row.reference ∧
      sha256.CollisionFree (payloads [row, row.withRequest referenceColumns]) ∧
      (verifyHashChain sha256 (sampleLedger.editTransaction row.id referenceColumns)).status =
        .pass := by
  have hc := reachable_sampleLedger.consistent
  obtain ⟨row, hrow, hid, -, -, hreference, hsame⟩ := exists_row_sampleLedger
  have hmem : row ∈ sampleLedger.transactions := hc.chain_eq ▸ hrow
  have hpayload := (hc.withRequest_payload_iff hmem referenceColumns).mpr hsame
  refine ⟨reachable_sampleLedger, row, hrow, hid, hreference, ?_, ?_⟩
  · -- it is one payload, twice
    have hone : payloads [row, row.withRequest referenceColumns] =
        List.replicate 2 (chainPayload row.load row.prevHash) := by
      show [_, chainPayload (row.withRequest referenceColumns).load row.prevHash] = _
      rw [hpayload]
      rfl
    rw [hone]
    intro x hx y hy _
    rw [List.eq_of_mem_replicate hx, List.eq_of_mem_replicate hy]
  · rw [hc.editTransaction_pass_iff hmem]
    exact congrArg sha256.hexdigest hpayload

end LedgerApi
