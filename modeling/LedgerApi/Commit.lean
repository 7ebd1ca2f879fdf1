import LedgerApi.Annotation
import LedgerApi.History

/-! # From the chain lock to the commit

The end of the annotated write path: under the chain lock the entries are inserted, the tip is read
and the transaction is linked to it, and at the commit the session has written what the request
posts on the database of that moment (`AtTip.settles`). With it every call is annotated
(`annotated_ledger`), for any invariant of the shared state that commits of this kind keep. -/

namespace LedgerApi

open Sessions

section Completion

variable {inv : Shared sql Database Call → Prop} {serial : Bool} {H : HexHash} {call : Call}
  {data : TransactionCreate} {gen : Generated} {post : Posting} {w : Writes} {r : ℕ}
  {prev : Option (Transaction ℤ)} {g : Shared sql Database Call} {p : Writes}
  {L L' : List (Lock Resource)}

/-- The chain lock, taken after all others. -/
theorem triple_chainLock :
    (ledgerContract inv serial).Triple postgres call
      (fun _ => Chaining serial data gen post w) (Raises serial data H)
      (execute (.advisoryXactLock chainLockKey))
      (Funded serial data gen post w (lastRank + 2)) := by
  have hne : chainLockKey ≠ clearingLockKey := by decide
  have hrank : lockOrder.rank (.advisory chainLockKey) = lastRank + 2 := by
    show (if chainLockKey = clearingLockKey then 0 else lastRank + 2) = lastRank + 2
    rw [if_neg hne]
  refine triple_advisoryXactLock stable_funded stable_chaining ?_ ?_
  · exact fun g p L h => ⟨Or.inr fun l hl => (h.below l hl).trans_eq hrank.symm, nofun⟩
  · intro g p L L' h hL hL' hlock
    have hbelow : ∀ l ∈ L, lockOrder.rank l.resource < lastRank + 4 := fun l hl =>
      Nat.lt_add_right 2 (h.below l hl)
    refine ⟨h.relock hL (below_append hL' hbelow ?_), hlock⟩
    intro l hl
    rw [List.mem_singleton.mp hl, Lock.resource_excl, hrank]
    exact Nat.add_lt_add_left (by decide) lastRank

/-- What the chain lock guards may be locked under it at any time. -/
theorem admissible_of_chainLock {res : Resource}
    (hguard : lockOrder.guard res = some (.advisory chainLockKey))
    (hlock : Lock.excl (.advisory chainLockKey) ∈ L) : lockOrder.Admissible L (.excl res) := by
  refine ⟨Or.inl (Or.inr ⟨_, hguard, hlock⟩), fun g hg => ?_⟩
  obtain rfl := Option.some.inj (hguard.symm.trans hg)
  exact hlock

/-- The keys and locks of the entries. -/
theorem footprint_newEntries (debit credit : UUID) :
    (Stmt.insertLedgerEntries (newEntries data gen debit credit)).footprint =
      [.excl (.index (.ledgerEntriesPkey gen.firstEntryId)),
        .excl (.index (.ledgerEntriesPkey gen.secondEntryId)),
        .share (.accountRow debit), .share (.accountRow credit)] := rfl

/-- Under the chain lock and the row locks, the locks of the entries are free. -/
theorem Chaining.ordered_entries (h : Chaining serial data gen post w g p L) :
    lockOrder.Ordered L
      (Stmt.insertLedgerEntries (newEntries data gen post.debit post.credit)).footprint := by
  -- the foreign keys want rows that the session has locked itself
  have hrow : ∀ {id : UUID} {K : List (Lock Resource)}, Lock.excl (.accountRow id) ∈ L → L ⊆ K →
      lockOrder.Admissible K (.share (.accountRow id)) :=
    fun hid hK => ⟨Or.inl (Or.inl (hK hid)), nofun⟩
  rw [footprint_newEntries]
  refine ⟨admissible_of_chainLock rfl h.chain_lock,
    admissible_of_chainLock rfl (List.mem_append_left _ h.chain_lock),
    hrow h.debit_lock ?_, hrow h.credit_lock ?_, trivial⟩
  · exact List.subset_append_of_subset_left _ (List.subset_append_left _ _)
  · exact List.subset_append_of_subset_left _
      (List.subset_append_of_subset_left _ (List.subset_append_left _ _))

/-- A stage under the chain lock, under more locks. -/
theorem Chaining.relock (h : Chaining serial data gen post w g p L) (hL : L ⊆ L')
    (hbelow : ∀ l ∈ L', lockOrder.rank l.resource < lastRank + 4) :
    Chaining serial data gen post w g p L' :=
  ⟨h.toFunded.relock hL hbelow, hL h.chain_lock⟩

/-- No lock is ranked higher than those taken under the chain lock. -/
theorem rank_lt (res : Resource) : lockOrder.rank res < lastRank + 4 := by
  have hrow : ∀ id : UUID, 3 + id.val < lastRank + 4 := fun id =>
    Nat.lt_add_right 4 (rank_accountRow_lt id)
  have h0 : 0 < lastRank + 4 := Nat.succ_pos _
  have h1 : 1 < lastRank + 4 := Nat.lt_add_left lastRank (by decide)
  have h2 : 2 < lastRank + 4 := Nat.lt_add_left lastRank (by decide)
  have hlast : ∀ n < 4, lastRank + n < lastRank + 4 := fun n hn => Nat.add_lt_add_left hn lastRank
  cases res with
  | advisory key =>
      show (if key = clearingLockKey then 0 else lastRank + 2) < lastRank + 4
      split
      · exact h0
      · exact hlast 2 (by decide)
  | accountRow id => exact hrow id
  | transactionRow id => exact hlast 3 (by decide)
  | index key =>
      cases key with
      | accountsPkey id => exact h1
      | accountsName name => exact h2
      | transactionsPkey id => exact hlast 0 (by decide)
      | transactionsIdempotencyKey key => exact hlast 1 (by decide)
      | _ => exact hlast 3 (by decide)
  | outboxRow id => exact hlast 3 (by decide)

/-- A stage whose session has written more, under the locks on the keys it added. -/
theorem Chaining.write {stmt : Stmt} {w' : Writes} (h : Chaining serial data gen post w g p L)
    (hL : L ⊆ L') (hmissed : w'.missed = w.missed) (haccounts : w'.accounts = w.accounts)
    (hrechained : w'.rechained = [])
    (hrows : w'.rows.uniqueKeys.Perm (w.rows.uniqueKeys ++ stmt.uniqueKeys))
    (hlocks : stmt.footprint ⊆ L') (hviol : violation g.store p stmt = none) :
    Chaining serial data gen post w' g w' L' := by
  refine ⟨⟨⟨⟨⟨rfl, hmissed ▸ h.missed, ?_, h.unused, fun l _ => rank_lt _⟩,
    haccounts.trans h.opened, h.posting⟩, hL h.debit_lock, hL h.credit_lock, h.debit_mem,
    h.credit_mem⟩, h.funds⟩, hL h.chain_lock⟩
  exact h.owned.add hL hrechained (by rw [h.writes]; exact hrows) hlocks hviol

/-- The entries refer to the transaction the session has inserted and to its locked accounts. -/
theorem Chaining.references (h : Chaining serial data gen post (recorded H data gen post) g p L) :
    ∀ e ∈ newEntries data gen post.debit post.credit,
      e.transactionId ∈ (g.store.view p).transactions.map (·.id) ∧
        e.accountId ∈ (g.store.view p).accounts.map (·.id) := by
  rw [h.writes]
  exact references_recorded h.debit_mem h.credit_mem

/-- The entries are inserted. -/
theorem triple_insertLedgerEntries :
    (ledgerContract inv serial).Triple postgres call
      (fun _ => Chaining serial data gen post (entered H data gen post)) (Raises serial data H)
      (execute (.insertLedgerEntries (newEntries data gen post.debit post.credit)))
      (Chaining serial data gen post (recorded H data gen post)) := by
  refine triple_insert nofun stable_chaining (fun _ => stable_chaining) ?_ ?_ ?_
  · exact fun g p L h => h.ordered_entries
  · intro g p L k h hk _
    refine h.raises ?_ ?_ <;> rintro x ⟨⟩ <;>
      simp [Stmt.uniqueKeys, LedgerEntry.uniqueKeys, newEntries] at hk
  · intro g p L L' h hL _ hlocks hviol
    refine ⟨(), entered H data gen post, ?_, h.write hL rfl rfl rfl perm_entered hlocks hviol⟩
    rw [perform, if_pos h.references, h.writes]
    rfl

/-- The tip of the chain is read. -/
theorem triple_selectChainTip :
    (ledgerContract inv serial).Triple postgres call
      (fun prev => AtTip serial data gen post prev (entered H data gen post))
      (Raises serial data H) (execute .selectChainTip)
      (Chaining serial data gen post (entered H data gen post)) := by
  refine triple_query rfl rfl stable_chaining (fun prev => stable_atTip) ?_
  intro g p L L' h hL hL'
  refine ⟨_, p, rfl, h.relock hL fun l hl => h.below l (hL' hl), ?_⟩
  rw [h.writes, chain_entered]

/-- **`link_transaction`** links to the tip of the committed chain. -/
theorem triple_linkTransaction :
    (ledgerContract inv serial).Triple postgres call
      (fun txn g p L => ∃ prev, txn = chainAfter H prev (newTransaction H data gen) ∧
        AtTip serial data gen post prev (entered H data gen post) g p L)
      (Raises serial data H)
      (linkTransaction H (newEntries data gen post.debit post.credit) (newTransaction H data gen))
      (Funded serial data gen post (recorded H data gen post) (lastRank + 2)) :=
  Contract.Triple.bind triple_chainLock fun _ =>
    Contract.Triple.bind triple_insertLedgerEntries fun _ =>
      Contract.Triple.bind triple_selectChainTip fun prev =>
        Contract.Triple.ret stable_atTip fun _ _ _ h => ⟨prev, rfl, h⟩

/-- The chain columns are written, with a number that is in no row. -/
theorem triple_updateChainColumns :
    (ledgerContract inv serial).Triple postgres call
      (fun _ => AtTip serial data gen post prev (chained H prev data gen post))
      (Raises serial data H)
      (execute (.updateChainColumns (chainAfter H prev (newTransaction H data gen)).id
        (chainAfter H prev (newTransaction H data gen)).prevHash
        (chainAfter H prev (newTransaction H data gen)).chainHash
        (chainAfter H prev (newTransaction H data gen)).chainSeq))
      (AtTip serial data gen post prev (entered H data gen post)) := by
  refine triple_insert nofun stable_atTip (fun _ => stable_atTip) ?_ ?_ ?_
  · intro g p L h
    -- the number and the row are guarded by the chain lock
    rw [Stmt.footprint, Stmt.uniqueKeys]
    cases (chainAfter H prev (newTransaction H data gen)).chainSeq with
    | none => exact ⟨admissible_of_chainLock rfl h.chain_lock, trivial⟩
    | some seq =>
        exact ⟨admissible_of_chainLock rfl h.chain_lock,
          admissible_of_chainLock rfl (List.mem_append_left _ h.chain_lock), trivial⟩
  · -- the number after the tip's is in no row, and the session has not used one before
    intro g p L k h hk hviol
    obtain ⟨seq, hseq, rfl⟩ := List.mem_map.mp hk
    have hnodup : ((chainAfter H prev (newTransaction H data gen)).chainSeq.toList.map
        UniqueKey.transactionsChainSeq).Nodup := by
      cases (chainAfter H prev (newTransaction H data gen)).chainSeq <;> simp
    rcases (Database.mem_uniqueKeys_view h.owned.rechained).mp
      (firstTaken_taken hviol hnodup) with hmem | hmem
    · have hnext : (chainAfter H g.store.chain.getLast? (newTransaction H data gen)).chainSeq =
          some seq := by
        rw [h.tip]
        exact Option.mem_toList.mp hseq
      exact absurd hmem (chainSeq_chainAfter_not_mem hnext)
    · rw [h.writes] at hmem
      simp only [entered, recorded, lookedUp, Writes.rows, Database.uniqueKeys, List.flatMap_nil,
        List.append_nil, List.mem_append] at hmem
      rcases hmem with (hmem | hmem) | hmem
      · rcases mem_uniqueKeys_opened h.posting hmem with hk | hk <;> cases hk
      · simp [Transaction.uniqueKeys, newTransaction, Transaction.flush] at hmem
      · simp [LedgerEntry.uniqueKeys, newEntries] at hmem
  · intro g p L L' h hL _ hlocks hviol
    refine ⟨(), chained H prev data gen post, ?_,
      h.write hL rfl rfl rfl perm_chained hlocks hviol, h.tip⟩
    -- its primary key is new, so the row is its own and no committed one
    have hrow : (newTransaction H data gen).flush ∈ p.rows.transactions := by
      rw [h.writes]
      exact List.mem_singleton_self _
    have hid : gen.transactionId ∉ g.store.transactions.map (·.id) := by
      rw [← Database.transactionsPkey_mem_iff]
      exact h.owned.absent _
        (Database.mem_uniqueKeys.mpr (Or.inr (Or.inl ⟨_, hrow, List.mem_cons_self⟩)))
    rw [h.writes, perform_updateChainColumns prev rfl hid]
    rfl

/-- The event is inserted. -/
theorem triple_insertOutboxEvent :
    (ledgerContract inv serial).Triple postgres call
      (fun _ => AtTip serial data gen post prev (announced H prev data gen post))
      (Raises serial data H)
      (execute (.insertOutboxEvent
        (writeTransactionEvent gen (chainAfter H prev (newTransaction H data gen)))))
      (AtTip serial data gen post prev (chained H prev data gen post)) := by
  refine triple_insert nofun stable_atTip (fun _ => stable_atTip) ?_ ?_ ?_
  · intro g p L h
    -- so is the primary key of the event
    exact ⟨admissible_of_chainLock rfl h.chain_lock, trivial⟩
  · intro g p L k h hk _
    refine h.raises ?_ ?_ <;> rintro x ⟨⟩ <;> simp [Stmt.uniqueKeys, OutboxEvent.uniqueKeys] at hk
  · intro g p L L' h hL _ hlocks hviol
    exact ⟨(), announced H prev data gen post, by rw [h.writes]; rfl,
      h.write hL rfl rfl rfl perm_announced hlocks hviol, h.tip⟩

/-! ## The commit -/

/-- **At its commit a request settles**, on the database of that moment. -/
theorem AtTip.settles (h : AtTip serial data gen post prev (announced H prev data gen post) g p L) :
    p = postingWrites H g.store data gen post ∧ Settles H g.store data gen post := by
  have hwrites : p = postingWrites H g.store data gen post := by
    rw [h.writes]
    -- the tip that was read under the chain lock is still the tip
    obtain rfl : prev = g.store.chain.getLast? := h.tip.symm
    rfl
  refine ⟨hwrites, h.posting, ⟨rfl, ?_, ?_⟩, h.debit_mem, h.credit_mem, h.funds⟩
  · rw [← hwrites]
    exact h.owned.nodup
  · rw [← hwrites]
    exact h.owned.absent

/-- The request's row can be read back, by a session that has done nothing since its commit. -/
def Recorded (H : HexHash) (data : TransactionCreate) (gen : Generated) : LedgerAssn :=
  fun g p _ => p = .blank ∧ ∃ row,
    g.store.transactions.find? (·.id = gen.transactionId) = some row ∧
    row.idempotencyKey = data.idempotencyKey ∧ row.requestHash = requestHash H data

theorem stable_recorded : (ledgerContract inv serial).Stable (Recorded H data gen) := by
  rintro g g' p L - - ⟨v, hv, hstore⟩ ⟨hp, row, hrow, h⟩
  refine ⟨hp, row, ?_, h⟩
  rw [hstore, Database.view_transactions hv.rechained, List.find?_append, hrow]
  rfl

/-- The commit keeps the invariant and changes nothing that other sessions rely on. -/
theorem triple_commit (hcall : call = .createTransaction data gen)
    (hinv : ∀ g call w, inv g → Commits H g.store call w → inv (g.commit postgres call w)) :
    (ledgerContract inv serial).Triple postgres call (fun _ => Recorded H data gen)
      (Raises serial data H) Prog.commitNow
      (AtTip serial data gen post prev (announced H prev data gen post)) := by
  subst hcall
  refine ⟨stable_atTip, Recorded H data gen,
    Contract.Triple.ret stable_recorded fun _ _ _ h => h, fun g p L hg h => ?_⟩
  obtain ⟨hwrites, hsettles⟩ := h.settles
  refine ⟨?_, ⟨rfl, postedRow H g.store data gen, ?_, rfl, rfl⟩, fun p' L' hcompat hbeside => ?_⟩
  · rw [hwrites]
    exact hinv g _ _ hg (.createTransaction hsettles)
  · rw [hwrites]
    exact hsettles.find?_postedRow
  · -- whatever it adds is locked, so the others see no change in what they rely on
    refine ⟨p, h.owned.interference ?_ ?_ (fun _ => h.chain_lock) hbeside hcompat, rfl⟩
    · rw [hwrites]
      rfl
    · rw [hwrites]
      intro e he
      simp only [postingWrites, newEntries, List.mem_cons, List.not_mem_nil, or_false] at he
      rcases he with rfl | rfl
      · exact h.debit_lock
      · exact h.credit_lock

/-- `db.refresh(txn)` reads the committed row. -/
theorem triple_refreshTransaction :
    (ledgerContract inv serial).Triple postgres call (fun row => Returns data H row.load)
      (Raises serial data H) (execute (.refreshTransaction gen.transactionId))
      (Recorded H data gen) := by
  refine triple_query rfl rfl stable_recorded (fun row => stable_returns row.load) ?_
  rintro g p L L' ⟨rfl, row, hrow, hkey, hhash⟩ - -
  refine ⟨row, .blank, ?_, row, List.mem_of_find?_eq_some hrow, hkey, hhash, rfl⟩
  rw [perform, Database.view_blank, hrow]

/-- **The end of `create_transaction`** commits what the request posts. -/
theorem triple_finishTransaction (hcall : call = .createTransaction data gen)
    (hinv : ∀ g call w, inv g → Commits H g.store call w → inv (g.commit postgres call w)) :
    (ledgerContract inv serial).Triple postgres call (Returns data H) (Raises serial data H)
      (finishTransaction H gen (newTransaction H data gen)
        (newEntries data gen post.debit post.credit))
      (Funded serial data gen post (recorded H data gen post) (lastRank + 2)) := by
  refine Contract.Triple.bind triple_linkTransaction fun txn => ?_
  refine Contract.Triple.exists fun prev => ?_
  have hstable : (ledgerContract inv serial).Stable fun g p L =>
      txn = chainAfter H prev (newTransaction H data gen) ∧
        AtTip serial data gen post prev (entered H data gen post) g p L :=
    (Contract.Stable.pure _).and stable_atTip
  -- the object is the linked transaction, or this point is never reached
  by_cases htxn : txn = chainAfter H prev (newTransaction H data gen)
  · subst htxn
    refine Contract.Triple.pre ?_ hstable fun g p L _ h => h.2
    refine Contract.Triple.bind triple_updateChainColumns fun _ => ?_
    refine Contract.Triple.bind triple_insertOutboxEvent fun _ => ?_
    refine Contract.Triple.bind (triple_commit hcall hinv) fun _ => ?_
    refine Contract.Triple.bind triple_refreshTransaction fun row => ?_
    exact Contract.Triple.ret (stable_returns row.load) fun _ _ _ h => h
  · exact Contract.Triple.absurd hstable fun g p L _ h => htxn h.1

/-! ## The calls -/

/-- Rows stay in the table, and so with their keys. -/
theorem stable_existing {existing : Transaction ℤ} :
    (ledgerContract inv serial).Stable fun g _ _ => existing ∈ g.store.transactions ∧
      existing.idempotencyKey = data.idempotencyKey := by
  rintro g g' p L - - ⟨v, hv, hstore⟩ ⟨hmem, hkey⟩
  refine ⟨?_, hkey⟩
  rw [hstore, Database.view_transactions hv.rechained]
  exact List.mem_append_left _ hmem

/-- The answer to a key that was found. -/
theorem triple_replay {existing : Transaction ℤ} :
    (ledgerContract inv serial).Triple postgres call (Returns data H) (Raises serial data H)
      (replay H data existing) (fun g _ _ => existing ∈ g.store.transactions ∧
        existing.idempotencyKey = data.idempotencyKey) := by
  unfold replay
  split
  case isTrue hhash =>
    exact Contract.Triple.raise stable_existing fun g p L h =>
      Or.inl ⟨rfl, existing, h.1, h.2, hhash⟩
  case isFalse hhash =>
    exact Contract.Triple.ret stable_existing fun g p L h =>
      ⟨existing, h.1, h.2, not_not.mp hhash, rfl⟩

/-- The lookup of the idempotency key. -/
theorem triple_selectTransactionByKey :
    (ledgerContract inv serial).Triple postgres call
      (fun existing => match existing with
        | some row => fun g _ _ => row ∈ g.store.transactions ∧
            row.idempotencyKey = data.idempotencyKey
        | none => Stage serial data (lookedUp data []) 0)
      (Raises serial data H) (execute (.selectTransactionByKey data.idempotencyKey))
      (Contract.Fresh postgres) := by
  refine triple_query rfl rfl Contract.Stable.fresh (fun existing => ?_) ?_
  · cases existing with
    | some row => exact stable_existing
    | none => exact stable_stage
  · rintro g p L L' ⟨rfl, rfl⟩ - hL'
    refine ⟨_, _, rfl, ?_⟩
    -- a session that has written nothing sees the committed rows
    have hview : g.store.view postgres.blank = g.store := Database.view_blank g.store
    rw [hview]
    cases hfound : g.store.transactionByKey data.idempotencyKey with
    | some row =>
        exact ⟨List.mem_of_find?_eq_some hfound, by simpa using List.find?_some hfound⟩
    | none =>
        have hkeys : (lookedUp data []).rows.uniqueKeys = [] := rfl
        refine ⟨rfl, List.mem_singleton_self _, ⟨rfl, ?_, ?_, ?_⟩, fun _ => hfound, ?_⟩
        · exact hkeys ▸ List.nodup_nil
        · exact fun k hk => nomatch (hkeys ▸ hk : k ∈ [])
        · exact fun k hk => nomatch (hkeys ▸ hk : k ∈ [])
        · exact fun l hl => nomatch hL' hl

/-- **`create_transaction`**: between its statements stand assertions that no other session can
falsify. -/
theorem triple_createTransaction (hcall : call = .createTransaction data gen)
    (hinv : ∀ g call w, inv g → Commits H g.store call w → inv (g.commit postgres call w)) :
    (ledgerContract inv serial).Triple postgres call (Returns data H) (Raises serial data H)
      (createTransaction H data gen) (Contract.Fresh postgres) := by
  refine Contract.Triple.bind triple_selectTransactionByKey fun existing => ?_
  cases existing with
  | some row => exact triple_replay
  | none =>
      refine Contract.Triple.bind triple_recordTransaction fun x => ?_
      refine Contract.Triple.exists fun post => ?_
      have hstable : (ledgerContract inv serial).Stable fun g p L =>
          x = (newTransaction H data gen, newEntries data gen post.debit post.credit) ∧
            Funded serial data gen post (recorded H data gen post) (lastRank + 2) g p L :=
        (Contract.Stable.pure _).and stable_funded
      by_cases hx : x = (newTransaction H data gen, newEntries data gen post.debit post.credit)
      · subst hx
        exact (triple_finishTransaction hcall hinv).pre hstable fun g p L _ h => h.2
      · exact Contract.Triple.absurd hstable fun g p L _ h => hx h.1

/-- A session of `post_account` that has inserted its row. -/
structure Opened (row : Account) (g : Shared sql Database Call) (p : Writes)
    (L : List (Lock Resource)) : Prop where
  writes : p = ⟨[row], [], [], [], [], [], []⟩
  owned : Owned g p L

theorem stable_opened {row : Account} : (ledgerContract inv serial).Stable (Opened row) :=
  fun _ _ _ _ hg hg' hrely h => ⟨h.writes, stable_owned hg hg' hrely h.owned⟩

/-- The row is inserted under the locks on its keys. -/
theorem triple_insertAccount {row : Account} :
    (ledgerContract inv serial).Triple postgres call (fun _ => Opened row)
      (fun e _ _ _ => ∀ seq, e ≠ .uniqueViolation (.transactionsChainSeq seq))
      (execute (.insertAccount row)) (Contract.Fresh postgres) := by
  refine triple_insert nofun Contract.Stable.fresh (fun _ => stable_opened) ?_ ?_ ?_
  · rintro g p L ⟨rfl, rfl⟩
    refine ⟨⟨Or.inr fun l hl => ?_, nofun⟩, ⟨Or.inr fun l hl => ?_, nofun⟩, trivial⟩
    · cases hl
    · rw [List.nil_append, List.mem_singleton] at hl
      rw [hl]
      exact Nat.one_lt_two
  · rintro g p L k - hk - seq ⟨⟩
    simp [Stmt.uniqueKeys, Account.uniqueKeys] at hk
  · rintro g p L L' ⟨rfl, rfl⟩ hL - hlocks hviol
    have hblank : Owned g postgres.blank [] := by
      refine ⟨rfl, List.nodup_nil, ?_, ?_⟩
      all_goals
        intro k hk
        cases hk
    exact ⟨(), _, rfl, rfl, hblank.add hL rfl (List.Perm.refl _) hlocks hviol⟩

/-- The committed account can be read back. -/
def Registered (id : UUID) : LedgerAssn :=
  fun g p _ => p = .blank ∧ (g.store.accountById id).isSome

theorem stable_registered {id : UUID} : (ledgerContract inv serial).Stable (Registered id) := by
  rintro g g' p L - - ⟨v, -, hstore⟩ ⟨hp, hid⟩
  refine ⟨hp, ?_⟩
  rw [Database.accountById_isSome_iff] at hid ⊢
  rw [hstore, Database.view_accounts, List.map_append]
  exact List.mem_append_left _ hid

/-- The commit of a new account. -/
theorem triple_commitAccount {E : Exn → LedgerAssn} {body : AccountCreate} {id : UUID}
    {now : Timestamp} (hcall : call = .postAccount body id now)
    (hinv : ∀ g call w, inv g → Commits H g.store call w → inv (g.commit postgres call w)) :
    (ledgerContract inv serial).Triple postgres call (fun _ => Registered id) E Prog.commitNow
      (Opened (postedAccount body id now)) := by
  subst hcall
  refine ⟨stable_opened, Registered id,
    Contract.Triple.ret stable_registered fun _ _ _ h => h, fun g p L hg h => ?_⟩
  obtain rfl : p = accountWrites body id now := h.writes
  refine ⟨hinv g _ _ hg (.postAccount ⟨rfl, h.owned.nodup, h.owned.absent⟩), ⟨rfl, ?_⟩, ?_⟩
  · rw [Database.accountById_isSome_iff]
    exact List.mem_map.mpr ⟨_, List.mem_append_right _ (List.mem_singleton_self _), rfl⟩
  · intro p' L' hcompat _
    -- there are no entries and no transactions among the writes
    refine ⟨_, h.owned.interference rfl nofun (absurd rfl) (fun _ t ht => ?_) hcompat, rfl⟩
    cases ht

/-- **`post_account`** commits an account whose id and name are new. -/
theorem triple_postAccount {body : AccountCreate} {id : UUID} {now : Timestamp}
    (hcall : call = .postAccount body id now)
    (hinv : ∀ g call w, inv g → Commits H g.store call w → inv (g.commit postgres call w)) :
    (ledgerContract inv serial).Triple postgres call (fun _ _ _ _ => True)
      (fun e _ _ _ => ∀ seq, e ≠ .uniqueViolation (.transactionsChainSeq seq))
      (postAccount body id now) (Contract.Fresh postgres) := by
  refine Contract.Triple.bind (R := fun _ => Contract.Fresh postgres) ?_ fun existing => ?_
  · refine triple_query rfl rfl Contract.Stable.fresh (fun _ => Contract.Stable.fresh) ?_
    rintro g p L L' ⟨rfl, rfl⟩ - hL'
    exact ⟨_, _, rfl, rfl, List.subset_nil.mp hL'⟩
  · cases existing with
    | some account => exact Contract.Triple.raise Contract.Stable.fresh fun g p L _ => nofun
    | none =>
        refine Contract.Triple.bind triple_insertAccount fun _ => ?_
        refine Contract.Triple.bind (triple_commitAccount hcall hinv) fun _ => ?_
        refine triple_query rfl rfl stable_registered (fun _ => Contract.Stable.pure True) ?_
        rintro g p L L' ⟨rfl, hid⟩ - -
        obtain ⟨row, hrow⟩ := Option.isSome_iff_exists.mp hid
        refine ⟨row, .blank, ?_, trivial⟩
        rw [perform, Database.view_blank, hrow]

/-! ## The system -/

/-- What is known when a call returns. -/
def CallReturns (H : HexHash) : Call → Response → LedgerAssn
  | .postAccount _ _ _, _ => fun _ _ _ => True
  | .createTransaction data _, answer => fun g p L =>
      ∃ txn, answer = .transaction txn ∧ Returns data H txn g p L

/-- What is known when a call raises. -/
def CallRaises (H : HexHash) (serial : Bool) : Call → Exn → LedgerAssn
  | .postAccount _ _ _, e => fun _ _ _ => ∀ seq, e ≠ .uniqueViolation (.transactionsChainSeq seq)
  | .createTransaction data _, e => Raises serial data H e

/-- **The ledger is annotated**, for every invariant that its commits keep. -/
theorem annotated_ledger
    (hinv : ∀ g call w, inv g → Commits H g.store call w → inv (g.commit postgres call w)) :
    Annotated (ledgerContract inv serial) (ledger H) (CallReturns H) (CallRaises H serial) := by
  refine ⟨fun call => ?_, fun call e => ?_⟩
  · cases call with
    | postAccount body id now =>
        exact Contract.Triple.bind (triple_postAccount rfl hinv) fun _ =>
          Contract.Triple.ret (Contract.Stable.pure True) fun _ _ _ h => h
    | createTransaction data gen =>
        exact Contract.Triple.bind (triple_createTransaction rfl hinv) fun txn =>
          Contract.Triple.ret (stable_returns txn) fun _ _ _ h => ⟨txn, rfl, h⟩
  · cases call with
    | postAccount body id now => exact Contract.Stable.pure _
    | createTransaction data gen => exact stable_raises e

end Completion

end LedgerApi
