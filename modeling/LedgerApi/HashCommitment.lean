import LedgerApi.AuditSoundness

/-! # What the chain commits to

The chain of a reachable database against other tables that verify. Equal tips mean equal histories,
in every field the hash covers (`tip_commits_to_history`), and of the rows of a history the verifier
passes the prefixes and nothing else (`verifies_iff_prefix`): it notices every deletion and
reordering but a cut at the end. Both assume that the hash has no collision on the payloads at hand
and maps none of them to the genesis value. -/

namespace LedgerApi

open Sessions HashChain

variable {H : HexHash} {db db' : Database}

/-- The fields of a row that its chain hash covers, the hash included. -/
def Transaction.covered (row : Transaction ℤ) :
    UUID × String × TransactionType × ℤ × String × Option String × Option String :=
  (row.id, row.idempotencyKey, row.type, row.amount, row.requestHash, row.prevHash, row.chainHash)

/-- The lengths of the `VARCHAR(64)` columns. -/
structure Transaction.FitsSchema (row : Transaction ℤ) : Prop where
  request_hash : row.requestHash.length ≤ 64
  prev_hash : ∀ prev ∈ row.prevHash, prev.length ≤ 64

/-- The assumption on the hash: no collision on the payloads of some rows, and no payload with the
genesis value. -/
structure Separates (H : HexHash) (rows : List (Transaction ℤ)) : Prop where
  collision_free : H.CollisionFree (payloads rows)
  ne_genesis : ∀ text ∈ payloads rows, H.hexdigest text ≠ genesisHash

section Rows

variable (h : Consistent H db)
include h

/-- A row of a consistent database names a predecessor by a digest. -/
theorem Consistent.prev_digest {row : Transaction ℤ} (hrow : row ∈ db.transactions) :
    ∃ prev, row.prevHash = some prev ∧ IsDigest prev := by
  have hprev : row.prevHash ∈ some genesisHash :: db.transactions.map (chainScheme H).stored := by
    rw [h.linked.map_prev]
    exact List.mem_append_left _ (List.mem_map_of_mem hrow)
  -- the genesis value, or the digest of the row before
  rcases List.mem_cons.mp hprev with hprev | hprev
  · exact ⟨genesisHash, hprev, isDigest_genesisHash⟩
  · obtain ⟨before, hbefore, hstored⟩ := List.mem_map.mp hprev
    have hrehash := h.linked.rehash_eq hbefore
    exact ⟨_, (hrehash.trans hstored).symm, H.isDigest_hexdigest _⟩

theorem Consistent.request_digest {row : Transaction ℤ} (hrow : row ∈ db.transactions) :
    IsDigest row.requestHash := by
  obtain ⟨text, htext⟩ := h.request_hash row hrow
  rw [htext]
  exact H.isDigest_hexdigest text

end Rows

/-- Rows with the same payload agree in the fields it covers, when one of them is of a consistent
database. -/
theorem Consistent.covered_eq_of_payload_eq (h : Consistent H db) {s t : Transaction ℤ}
    (hs : s ∈ db.transactions) (ht : t.FitsSchema)
    (heq : chainPayload s.load s.prevHash = chainPayload t.load t.prevHash) :
    s.id = t.id ∧ s.idempotencyKey = t.idempotencyKey ∧ s.type = t.type ∧ s.amount = t.amount ∧
      s.requestHash = t.requestHash ∧ s.prevHash = t.prevHash := by
  obtain ⟨prev, hprev, hdigest⟩ := h.prev_digest hs
  rw [hprev] at heq ⊢
  exact chainPayload_inj (h.request_digest hs) hdigest ht.request_hash ht.prev_hash heq

/-- Rows that are hashed alike have the same payload, when the hash separates them. -/
theorem Separates.payload_eq {rows : List (Transaction ℤ)} (hsep : Separates H rows)
    {s t : Transaction ℤ} (hs : s ∈ rows) (ht : t ∈ rows)
    (heq : (chainScheme H).rehash s = (chainScheme H).rehash t) :
    chainPayload s.load s.prevHash = chainPayload t.load t.prevHash :=
  hsep.collision_free _ (List.mem_map_of_mem hs) _ (List.mem_map_of_mem ht) (Option.some.inj heq)

/-- No row is hashed to the genesis value, when the hash separates them. -/
theorem Separates.rehash_ne_genesis {rows : List (Transaction ℤ)} (hsep : Separates H rows)
    {s : Transaction ℤ} (hs : s ∈ rows) : (chainScheme H).rehash s ≠ some genesisHash :=
  fun heq => hsep.ne_genesis _ (List.mem_map_of_mem hs) (Option.some.inj heq)

/-- The hash separates rows with no other payloads than those it separates. -/
theorem Separates.of_subset {rows rows' : List (Transaction ℤ)} (hsep : Separates H rows)
    (hsub : payloads rows' ⊆ payloads rows) : Separates H rows' :=
  ⟨fun _ hx _ hy heq => hsep.collision_free _ (hsub hx) _ (hsub hy) heq,
    fun _ hx => hsep.ne_genesis _ (hsub hx)⟩

/-- The hash separates a chain whose digests are distinct and not the genesis value. -/
theorem Consistent.separates_of_nodup (h : Consistent H db)
    (hnodup : (some genesisHash :: db.chain.map (·.chainHash)).Nodup) : Separates H db.chain := by
  obtain ⟨hgenesis, hnodup⟩ := List.nodup_cons.mp hnodup
  refine ⟨h.collisionFree_of_nodup hnodup, fun text htext heq => hgenesis ?_⟩
  obtain ⟨row, hrow, rfl⟩ := List.mem_map.mp htext
  have hrehash := (h.chain_eq ▸ h.linked).rehash_eq hrow
  rw [← heq]
  exact List.mem_map.mpr ⟨row, hrow, hrehash.symm⟩

/-- The tip of a chain is the hash of its last row. -/
theorem tip_eq_of_getLast? {rows : List (Transaction ℤ)} {last : Transaction ℤ}
    (h : rows.getLast? = some last) (g : Option String) :
    tip (chainScheme H) g rows = last.chainHash := by
  obtain ⟨before, rfl⟩ := List.getLast?_eq_some_iff.mp h
  exact tip_append_singleton g before last

/-- **The tip commits to the history**: chained transactions of a reachable database and of any
table that verifies, with the same hash in their last rows, are equally many and agree row by row in
all that is covered. -/
theorem tip_commits_to_history (h : Reachable H db) (hpass : (verifyHashChain H db').status = .pass)
    (hschema : ∀ row ∈ db'.chain, row.FitsSchema) (hsep : Separates H (db.chain ++ db'.chain))
    {last last' : Transaction ℤ} (hlast : db.chain.getLast? = some last)
    (hlast' : db'.chain.getLast? = some last') (htip : last.chainHash = last'.chainHash) :
    db.chain.length = db'.chain.length ∧
      db.chain.map Transaction.covered = db'.chain.map Transaction.covered := by
  have hc := h.consistent
  have hmem : ∀ {row}, row ∈ db.chain → row ∈ db.transactions := fun hrow =>
    (Database.mem_chain.mp hrow).1
  have hsame := Linked.forall₂_of_tip_eq (hc.chain_eq ▸ hc.linked)
    ((verifyHashChain_eq_pass_iff H db').mp hpass)
    (fun s hs t ht heq => hc.covered_eq_of_payload_eq (hmem hs) (hschema t ht)
      (hsep.payload_eq (List.mem_append_left _ hs) (List.mem_append_right _ ht) heq))
    (fun s _ t _ hst => hst.2.2.2.2.2) (fun r hr => hsep.rehash_ne_genesis hr)
    (by rw [tip_eq_of_getLast? hlast, tip_eq_of_getLast? hlast', htip])
  have hcovered : List.Forall₂ (fun s t : Transaction ℤ => s.covered = t.covered)
      db.chain db'.chain := by
    refine hsame.imp fun s t ⟨⟨hid, hkey, htype, hamount, hhash, hprev⟩, hstored⟩ => ?_
    have hchain : s.chainHash = t.chainHash := hstored
    rw [Transaction.covered, hid, hkey, htype, hamount, hhash, hprev, hchain]
    rfl
  refine ⟨hsame.length_eq, ?_⟩
  have hmap := List.forall₂_map_left_iff.mpr (List.forall₂_map_right_iff.mpr hcovered)
  exact List.forall₂_eq_eq_eq ▸ hmap

/-- The transactions of the ledger alone, renumbered from eleven. -/
def renumberedLedger : Database where
  accounts := []
  transactions := sampleRows.map fun row =>
    { row with chainSeq := row.chainSeq.map (· + 10), reference := some "restored" }
  ledgerEntries := []
  outboxEvents := []

/-- Neither payload of the ledger collides with the other or with the genesis value. -/
theorem separates_sampleLedger : Separates sha256 sampleLedger.chain := by
  refine reachable_sampleLedger.consistent.separates_of_nodup ?_
  rw [sampleLedger_chain]
  decide

/-- The renumbered table has the tip of the ledger, and so its history. -/
theorem tip_commits_renumberedLedger :
    sampleLedger.chain.length = renumberedLedger.chain.length ∧
      sampleLedger.chain.map Transaction.covered =
        renumberedLedger.chain.map Transaction.covered := by
  have hfits : ∀ row ∈ renumberedLedger.chain,
      row.requestHash.length ≤ 64 ∧ ∀ prev ∈ row.prevHash, prev.length ≤ 64 := by
    decide +kernel
  have hsub : payloads (sampleLedger.chain ++ renumberedLedger.chain) ⊆
      payloads sampleLedger.chain := by
    rw [sampleLedger_chain]
    decide +kernel
  have hlast : sampleLedger.chain.getLast? = sampleRows[1]? := congrArg _ sampleLedger_chain
  have hlast' : renumberedLedger.chain.getLast? = renumberedLedger.transactions[1]? := by
    decide +kernel
  exact tip_commits_to_history reachable_sampleLedger (by decide +kernel)
    (fun row hrow => ⟨(hfits row hrow).1, (hfits row hrow).2⟩)
    (separates_sampleLedger.of_subset hsub) hlast hlast' rfl

/-! ## Deletion and reordering -/

/-- The digests of a reachable chain are distinct, when the hash separates its rows. -/
theorem Consistent.nodup_digests (h : Consistent H db) (hsep : Separates H db.transactions) :
    (some genesisHash :: db.transactions.map (chainScheme H).stored).Nodup := by
  refine List.nodup_cons.mpr ⟨fun hmem => ?_, ?_⟩
  · obtain ⟨row, hrow, hstored⟩ := List.mem_map.mp hmem
    exact hsep.rehash_ne_genesis hrow ((h.linked.rehash_eq hrow).trans hstored)
  · have hids := List.pairwise_map.mp (Database.nodup_transactionIds h.keys)
    refine List.pairwise_map.mpr (hids.imp_of_mem fun {s t} hs ht hne heq => hne ?_)
    -- equal digests are those of equal payloads, which begin with the id
    rw [← h.linked.rehash_eq hs, ← h.linked.rehash_eq ht] at heq
    obtain ⟨prev, hprev, hdigest⟩ := h.prev_digest ht
    have hfits : t.FitsSchema := ⟨(h.request_digest ht).1.le, fun prev' hprev' => by
      rw [hprev, Option.mem_some_iff] at hprev'
      exact hprev' ▸ hdigest.1.le⟩
    exact (h.covered_eq_of_payload_eq hs hfits (hsep.payload_eq hs ht heq)).1

/-- A row read with another `chain_seq`. -/
def Renumbered (row row' : Transaction ℤ) : Prop := row' = { row with chainSeq := row'.chainSeq }

/-- **Deletion and reordering are noticed**, but for a cut at the end: of tables that hold rows of a
reachable chain, read in any order, those verify that hold a first part of it in its order. -/
theorem verifies_iff_prefix (h : Reachable H db) (hsep : Separates H db.chain)
    {rows : List (Transaction ℤ)} (hsub : ∀ row ∈ rows, row ∈ db.chain)
    (hread : List.Forall₂ Renumbered rows db'.chain) :
    (verifyHashChain H db').status = .pass ↔ rows <+: db.chain := by
  have hc := h.consistent
  rw [hc.chain_eq] at hsub hsep ⊢
  rw [verifyHashChain_eq_pass_iff,
    ← linked_congr (S := chainScheme H) (hread.imp fun row row' hrow => ?_)]
  · exact linked_iff_prefix hc.linked (hc.nodup_digests hsep) hsub
  · rw [hrow]
    exact ⟨rfl, rfl, rfl⟩

/-- The ledger without its first transaction. -/
def withoutFirst : Database :=
  { sampleLedger with transactions := sampleRows.drop 1 }

/-- A deletion at the beginning is noticed: what is left is no first part of the chain. -/
theorem verifies_iff_prefix_withoutFirst :
    withoutFirst.chain = sampleLedger.chain.drop 1 ∧
      (verifyHashChain sha256 withoutFirst).status = .fail := by
  have hchain : withoutFirst.chain = sampleLedger.chain.drop 1 := by
    rw [sampleLedger_chain]
    decide +kernel
  have hsub : ∀ row ∈ withoutFirst.chain, row ∈ sampleLedger.chain := fun row hrow =>
    List.mem_of_mem_drop (hchain ▸ hrow)
  have hprefix : ¬ withoutFirst.chain <+: sampleLedger.chain := by
    rw [hchain, sampleLedger_chain]
    decide
  have hiff :=
    verifies_iff_prefix reachable_sampleLedger separates_sampleLedger hsub
      (List.forall₂_same.mpr fun row _ => rfl)
  refine ⟨hchain, ?_⟩
  cases hstatus : (verifyHashChain sha256 withoutFirst).status with
  | pass => exact absurd (hiff.mp hstatus) hprefix
  | fail => rfl

end LedgerApi
