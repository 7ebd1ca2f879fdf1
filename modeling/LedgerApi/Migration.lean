import LedgerApi.Relay
import LedgerApi.Serializability

/-! # The migration to `chain_seq`

Migration 004 gives every transaction a number and rebuilds all hashes in one pass, in the order of
`created_at` and `id`, with a hashing loop of its own (`upgrade`). Its rows are those that linking
the sorted rows one after the other gives (`rebuild_perm`), with the digests of `app/chain.py`. So
the verifier passes on the migrated table, whatever chain columns it had before, and on everything
the application makes of it (`migration_agrees`). -/

namespace LedgerApi

open Sessions System HashChain

/-! ## The migration -/

/-- `op.add_column`: the new column is NULL in every row. -/
def addChainSeq (table : List (Transaction ℤ)) : List (Transaction ℤ) :=
  table.map fun row => { row with chainSeq := none }

/-- `ORDER BY created_at ASC, id ASC` -/
def MigrationLe (s t : Transaction ℤ) : Prop :=
  s.createdAt < t.createdAt ∨ s.createdAt = t.createdAt ∧ s.id ≤ t.id

instance : DecidableRel MigrationLe := fun s t =>
  inferInstanceAs (Decidable (s.createdAt < t.createdAt ∨ s.createdAt = t.createdAt ∧ s.id ≤ t.id))

/-- The text that the migration hashes for a row. -/
def migrationPayload (row : Transaction ℤ) (prevHash : String) : String :=
  let amount := (readAmount row.amount).quantize amountExp
  row.id.str ++ "|" ++ row.idempotencyKey ++ "|" ++ row.type.value ++ "|" ++
    amount.str ++ "|" ++ row.requestHash ++ "|" ++ prevHash

/-- `UPDATE transactions SET chain_seq = seq, prev_hash = prev, chain_hash = curr WHERE id = id` -/
def setChain (id : UUID) (seq : ℤ) (prev curr : String) (table : List (Transaction ℤ)) :
    List (Transaction ℤ) :=
  table.map fun row =>
    if row.id = id then
      { row with chainSeq := some seq, prevHash := some prev, chainHash := some curr }
    else row

variable (H : HexHash)

/-- The loop of `upgrade` over the rows it has fetched. -/
def rebuild : ℕ → String → List (Transaction ℤ) → List (Transaction ℤ) → List (Transaction ℤ)
  | _, _, [], table => table
  | seq, prevHash, row :: rows, table =>
      let chainHash := H.hexdigest (migrationPayload row prevHash)
      rebuild (seq + 1) chainHash rows (setChain row.id seq prevHash chainHash table)

/-- `upgrade`, unless the constraint it ends with cannot be created. -/
def upgrade (table : List (Transaction ℤ)) : Option (List (Transaction ℤ)) :=
  let table := addChainSeq table
  let rows := table.insertionSort MigrationLe
  let table := rebuild H 1 genesisHash rows table
  -- NULLs do not count for the unique constraint
  if (table.filterMap (·.chainSeq)).Nodup then some table else none

/-! ## The rebuilt chain -/

/-- A row as it is linked: number `seq`, after digest `prevHash`. -/
def rechained (seq : ℕ) (prevHash : Option String) (row : Transaction ℤ) : Transaction ℤ :=
  { row with
    chainSeq := some (seq : ℤ)
    prevHash := prevHash
    chainHash := some (computeChainHash H row.load prevHash) }

/-- **The two loops hash the same text.** -/
theorem migrationPayload_eq (row : Transaction ℤ) (prevHash : String) :
    migrationPayload row prevHash = chainPayload row.load (some prevHash) := rfl

variable {H} {db : Database} {w : Writes}

/-- An update by id does nothing to rows with other ids. -/
theorem setChain_of_not_mem {id : UUID} {rows : List (Transaction ℤ)} (h : id ∉ rows.map (·.id))
    (seq : ℤ) (prev curr : String) : setChain id seq prev curr rows = rows := by
  refine (List.map_congr_left fun row hrow => if_neg fun hid => h ?_).trans (List.map_id rows)
  rw [← hid]
  exact List.mem_map_of_mem hrow

/-- Among rows with distinct ids it changes one. -/
theorem setChain_append {done rows : List (Transaction ℤ)} {row : Transaction ℤ}
    (hids : ((done ++ row :: rows).map (·.id)).Nodup) (seq : ℕ) (prevHash : String) :
    setChain row.id seq prevHash (H.hexdigest (migrationPayload row prevHash))
        (done ++ row :: rows) =
      done ++ rechained H seq (some prevHash) row :: rows := by
  rw [List.map_append, List.map_cons, List.nodup_append, List.nodup_cons] at hids
  obtain ⟨-, ⟨hrows, -⟩, hdone⟩ := hids
  have hnew : row.id ∉ done.map (·.id) := fun hmem => hdone _ hmem _ List.mem_cons_self rfl
  obtain ⟨curr, hcurr⟩ : ∃ curr, curr = H.hexdigest (migrationPayload row prevHash) := ⟨_, rfl⟩
  have hbefore := setChain_of_not_mem hnew seq prevHash curr
  have hafter := setChain_of_not_mem hrows seq prevHash curr
  unfold setChain at hbefore hafter ⊢
  rw [← hcurr, List.map_append, List.map_cons, hbefore, hafter, if_pos rfl, hcurr,
    migrationPayload_eq]
  rfl

/-- **The loop rebuilds the chain**, wherever the rows stand in the table. -/
theorem rebuild_perm {done rows table : List (Transaction ℤ)} (seq : ℕ) (prevHash : String)
    (hids : ((done ++ rows).map (·.id)).Nodup) (h : table.Perm (done ++ rows)) :
    (rebuild H seq prevHash rows table).Perm
      (done ++ build (chainScheme H) (rechained H) seq (some prevHash) rows) := by
  induction rows generalizing done table seq prevHash with
  | nil => exact h
  | cons row rows ih =>
      have hupdated : (setChain row.id seq prevHash (H.hexdigest (migrationPayload row prevHash))
          table).Perm (done ++ [rechained H seq (some prevHash) row] ++ rows) := by
        rw [List.append_assoc, List.singleton_append, ← setChain_append hids seq prevHash]
        exact h.map _
      -- the updated row has its id still
      have hids' : ((done ++ [rechained H seq (some prevHash) row] ++ rows).map (·.id)).Nodup := by
        rw [List.append_assoc, List.singleton_append, List.map_append, List.map_cons]
        rwa [List.map_append, List.map_cons] at hids
      have hrest := ih (seq + 1) (H.hexdigest (migrationPayload row prevHash)) hids' hupdated
      rw [List.append_assoc, List.singleton_append] at hrest
      exact hrest

/-- The rebuilt rows are numbered from one. -/
theorem numbered_build (rows : List (Transaction ℤ)) :
    Numbered (build (chainScheme H) (rechained H) 1 (some genesisHash) rows) := by
  have hnumber : ∀ (n : ℕ) (g : Option String) (row : Transaction ℤ),
      (rechained H n g row).chainSeq = some (n : ℤ) := fun _ _ _ => rfl
  rw [Numbered, map_build hnumber, length_build]
  refine List.map_congr_left fun i _ => ?_
  rw [Nat.cast_add, Nat.cast_one, Int.add_comm]

/-- A constraint on the numbers of numbered rows can be created. -/
theorem Numbered.nodup_filterMap {rows : List (Transaction ℤ)} (h : Numbered rows) :
    (rows.filterMap (·.chainSeq)).Nodup := by
  have hmap : rows.filterMap (·.chainSeq) = (rows.map (·.chainSeq)).filterMap id := by
    rw [List.filterMap_map]
    rfl
  rw [hmap]
  refine h.nodup.filterMap fun a b seq ha hb => ?_
  exact (Option.mem_def.mp ha).trans (Option.mem_def.mp hb).symm

/-- They are linked. -/
theorem linked_build_rechained (rows : List (Transaction ℤ)) :
    Linked (chainScheme H) (some genesisHash)
      (build (chainScheme H) (rechained H) 1 (some genesisHash) rows) :=
  linked_build (fun _ _ _ => rfl) (fun _ _ _ => rfl) 1 _ rows

/-! ## What the application makes of it -/

/-- The transactions are numbered `1..n` and the verifier passes on all of them. -/
structure ChainVerifies (H : HexHash) (db : Database) : Prop where
  chain_seq : (db.transactions.map (·.chainSeq)).Perm
    ((List.range db.transactions.length).map fun i : ℕ => some ((i : ℤ) + 1))
  status : (verifyHashChain H db).status = .pass
  chainLength : (verifyHashChain H db).chainLength = db.transactions.length

theorem ChainSound.verifies (h : ChainSound H db) : ChainVerifies H db := by
  obtain ⟨hstatus, hlength, -⟩ := verifyHashChain_of_linked h.linked
  have hchain := h.complete.length_eq
  refine ⟨?_, hstatus, hlength.trans hchain.symm⟩
  rw [hchain, ← h.numbered]
  exact h.complete.map _

/-- A commit continues a sound chain. -/
theorem ChainSound.commit (h : ChainSound H db) {call : Call} (hcall : Commits H db call w) :
    ChainSound H (db.view w) := by
  cases hcall with
  | postAccount =>
      refine .of_perm db.chain ?_ h.numbered h.linked
      rw [Database.view_transactions rfl, accountWrites]
      exact (List.append_nil _).symm ▸ h.complete
  | createTransaction => exact h.append rfl rfl

/-- Marks leave it alone. -/
theorem ChainSound.mark (h : ChainSound H db) (marks : List (UUID × Timestamp)) :
    ChainSound H (db.view (markWrites marks)) := by
  refine .of_perm db.chain ?_ h.numbered h.linked
  rw [view_markWrites_transactions]
  exact h.complete

variable (H) in
/-- Transactions that are linked and flushed, one after the other. -/
def appendAll (db : Database) : List (TransactionCreate × Generated) → Database
  | [] => db
  | (data, gen) :: txns =>
      appendAll (db.view { Writes.blank with transactions := [postedRow H db data gen] }) txns

theorem ChainSound.appendAll (h : ChainSound H db) (txns : List (TransactionCreate × Generated)) :
    ChainSound H (appendAll H db txns) := by
  induction txns generalizing db with
  | nil => exact h
  | cons txn txns ih => exact ih (h.append rfl rfl)

/-- **A migrated table has a sound chain**, and the constraint on its numbers can be created. -/
theorem exists_upgrade (H : HexHash) {db : Database}
    (hids : (db.transactions.map (·.id)).Nodup) :
    ∃ rows, upgrade H db.transactions = some rows ∧ rows.length = db.transactions.length ∧
      ChainSound H { db with transactions := rows } := by
  have hcolumn : (addChainSeq db.transactions).map (·.id) = db.transactions.map (·.id) := by
    rw [addChainSeq, List.map_map]
    rfl
  have hlength : (addChainSeq db.transactions).length = db.transactions.length :=
    List.length_map _
  rw [← hcolumn] at hids
  rw [← hlength]
  unfold upgrade
  generalize addChainSeq db.transactions = table at hids ⊢
  have hsorted : table.Perm (table.insertionSort MigrationLe) := (List.perm_insertionSort _ _).symm
  have hids' : (([] ++ table.insertionSort MigrationLe).map Transaction.id).Nodup :=
    (hsorted.map _).nodup_iff.mp hids
  have hrebuilt := rebuild_perm (H := H) 1 genesisHash hids' hsorted
  have hnumbered := numbered_build (H := H) (table.insertionSort MigrationLe)
  have hunique := ((hrebuilt.filterMap (·.chainSeq)).nodup_iff).mpr hnumbered.nodup_filterMap
  refine ⟨_, if_pos hunique, ?_, .of_perm _ hrebuilt hnumbered (linked_build_rechained _)⟩
  rw [hrebuilt.length_eq, List.nil_append, length_build, hsorted.length_eq]

/-- **The migration agrees with the application**: after it the transactions, in whatever state
their chain columns were, are numbered `1..n` and verify; so do those of every state that the
application reaches from there, interleaved as it may be, and whatever sequence of transactions is
linked. -/
theorem migration_agrees (H : HexHash) (db : Database)
    (hids : (db.transactions.map (·.id)).Nodup) :
    ∃ rows, upgrade H db.transactions = some rows ∧ rows.length = db.transactions.length ∧
      ChainVerifies H { db with transactions := rows } ∧
      (∀ w, (api H).Reachable (World.init { db with transactions := rows }) w →
        ChainVerifies H w.shared.store) ∧
      ∀ txns, ChainVerifies H (appendAll H { db with transactions := rows } txns) := by
  obtain ⟨rows, hrows, hlength, hsound⟩ := exists_upgrade H hids
  refine ⟨rows, hrows, hlength, hsound.verifies, fun w hw => ?_, fun txns => ?_⟩
  · have hafter : ChainSound H w.shared.store := api_store_invariant hw hsound
      (fun _ _ _ h hcall => h.commit hcall) fun _ marks h => h.mark marks
    exact hafter.verifies
  · exact (hsound.appendAll txns).verifies

/-- A row from before the migration, with the same chain columns as every other. -/
def forkedRow (id : UUID) (key : String) (createdAt : Timestamp) : Transaction ℤ :=
  ⟨id, key, .deposit, 1000, genesisHash, some genesisHash, some genesisHash, none, none, createdAt⟩

/-- Three of them, two with the same `created_at`. -/
def forkedDatabase : Database :=
  { sampleDatabase with
    transactions := [forkedRow 30 "deposit-3" 5, forkedRow 20 "deposit-2" 5,
      forkedRow 10 "deposit-1" 3] }

/-- The migration repairs their chain, and the application continues it. -/
theorem migration_agrees_forkedDatabase :
    ∃ rows, upgrade sha256 forkedDatabase.transactions = some rows ∧ rows.length = 3 ∧
      ChainVerifies sha256 { forkedDatabase with transactions := rows } ∧
      (∀ w, (api sha256).Reachable (World.init { forkedDatabase with transactions := rows }) w →
        ChainVerifies sha256 w.shared.store) ∧
      ∀ txns, ChainVerifies sha256
        (appendAll sha256 { forkedDatabase with transactions := rows } txns) :=
  migration_agrees sha256 forkedDatabase (by decide)

example :
    (upgrade sha256 forkedDatabase.transactions).map (List.map fun t => (t.id, t.chainSeq)) =
      some [(30, some 3), (20, some 2), (10, some 1)] := by
  decide +kernel

end LedgerApi
