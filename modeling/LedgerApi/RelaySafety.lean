import LedgerApi.AppendOnly
import LedgerApi.Delivery

/-! # Relays lose nothing

Any number of relays beside any number of writers, with transports that raise and sessions that are
lost at any point. A relay call is followed from the step in which it reads its batch (`HasRead`):
whatever it commits are marks of events at the beginning of the batch that its transport accepted
(`AfterRead.commits`). So nothing is marked that was not sent, and nothing is marked from the first
failure on (`relay_safe`); and what is in the outbox stays there, pending until it has been sent. -/

namespace LedgerApi

open Sessions System

variable {H : HexHash} {db₀ : Database}
  {w w' : World sql Database Writes Resource Request Response} {i limit : ℕ}
  {accepts : Message → Bool} {now : UUID → Timestamp} {batch : List OutboxEvent}

/-! ## A call that has read its batch -/

/-- Where a relay call is that has read `batch`. -/
inductive AfterRead (accepts : Message → Bool) (now : UUID → Timestamp)
    (batch : List OutboxEvent) : Prog sql Response → Writes → Prop
  /-- It is in the loop. -/
  | publishing {size : ℕ} {done rest : List OutboxEvent} (hbatch : done ++ rest = batch)
      (haccepted : ∀ e ∈ done, accepts e.message = true) :
      AfterRead accepts now batch (publishEach accepts now rest >>= fun marks =>
        finishPublish size (marksOf now done ++ marks)) .blank
  /-- It has flushed its marks. -/
  | marking {result : Response} {done rest : List OutboxEvent} (hbatch : done ++ rest = batch)
      (haccepted : ∀ e ∈ done, accepts e.message = true) :
      AfterRead accepts now batch (.commit (.ret result)) (markWrites (marksOf now done))
  /-- It has committed. -/
  | ended {result : Response} : AfterRead accepts now batch (.ret result) .blank

/-- **Step lemma** of a relay call. -/
theorem AfterRead.advance {g : Shared sql Database Request}
    {s t : Session sql Writes Resource Request Response}
    (h : AfterRead accepts now batch s.prog s.pending)
    (ht : ((api H).advance g s).2 = .running t) : AfterRead accepts now batch t.prog t.pending := by
  obtain ⟨call, prog, p, held, acquired⟩ := s
  replace h : AfterRead accepts now batch prog p := h
  cases h with
  | @publishing size done rest hbatch haccepted =>
      rcases publishEach_bind accepts now done rest size with
        ⟨e, rest', rfl, haccept, hnext⟩ | hnext
      · rw [hnext] at ht
        obtain rfl := Slot.running.inj ht
        refine .publishing (by rw [← hbatch, List.append_assoc]; rfl) ?_
        exact List.forall_mem_append.mpr ⟨haccepted, List.forall_mem_singleton.mpr haccept⟩
      · rw [hnext] at ht
        obtain rfl := Slot.running.inj ht
        exact .marking hbatch haccepted
  | marking =>
      obtain rfl := Slot.running.inj ht
      exact .ended
  | ended => cases ht

/-- **What a relay call commits**: marks of events that come first in its batch and that its
transport accepted. -/
theorem AfterRead.commits {next : Prog sql Response} {p : Writes}
    (h : AfterRead accepts now batch (.commit next) p) :
    ∃ done rest, done ++ rest = batch ∧ (∀ e ∈ done, accepts e.message = true) ∧
      p = markWrites (marksOf now done) := by
  generalize hprog : Prog.commit next = prog at h
  cases h with
  | @publishing size done rest hbatch haccepted =>
      -- in the loop a message comes next, or the flush
      rcases publishEach_bind accepts now done rest size with ⟨e, rest', -, -, hnext⟩ | hnext
      · rw [hnext] at hprog
        cases hprog
      · rw [hnext] at hprog
        cases hprog
  | @marking result done rest hbatch haccepted => exact ⟨done, rest, hbatch, haccepted, rfl⟩
  | ended => cases hprog

/-- The first step of a relay call: it reads its batch. -/
theorem advance_outboxPublish (g : Shared sql Database Request) (limit : ℕ)
    (accepts : Message → Bool) (now : UUID → Timestamp) :
    ((api H).advance g ((api H).fresh (.outboxPublish limit accepts now))).2 =
      .running ⟨.outboxPublish limit accepts now,
        publishEach accepts now (g.store.pendingEvents.take limit) >>= fun marks =>
          finishPublish (g.store.pendingEvents.take limit).length marks, .blank, [], []⟩ := by
  show ((api H).advance g ⟨_, (Request.outboxPublish limit accepts now).program H, .blank, [],
    []⟩).2 = _
  rw [program_outboxPublish]
  simp only [System.advance, api, exec_selectPendingEvents]
  rfl

variable (H db₀ i limit accepts now batch w) in
/-- Session `i` serves a relay call that has read `batch`, and the run has since come to `w`. -/
def HasRead : Prop :=
  ∃ w₁ w₂, (api H).Reachable (World.init db₀) w₁ ∧
    w₁.Running i ((api H).fresh (.outboxPublish limit accepts now)) ∧
    batch = w₁.shared.store.pendingEvents.take limit ∧
    (api H).step w₁ (.advance i) = some w₂ ∧ (api H).Reachable w₂ w

/-- Its ids are distinct. -/
theorem HasRead.nodup_ids (h₀ : Initial db₀) (h : HasRead H db₀ w i limit accepts now batch) :
    (batch.map (·.id)).Nodup := by
  obtain ⟨w₁, w₂, hw₁, -, rfl, -, -⟩ := h
  have hids := Database.nodup_eventIds (consistent_of_api (.initial h₀) hw₁).keys
  have hpending : (w₁.shared.store.pendingEvents.map (·.id)).Nodup := by
    refine ((List.perm_insertionSort _ _).map _).nodup_iff.mpr ?_
    exact hids.sublist (List.filter_sublist.map _)
  exact hpending.sublist ((List.take_sublist _ _).map _)

/-- **Run lemma** of a relay call. -/
theorem HasRead.afterRead (h : HasRead H db₀ w i limit accepts now batch)
    {t : Session sql Writes Resource Request Response} (ht : w.Running i t) :
    AfterRead accepts now batch t.prog t.pending := by
  obtain ⟨w₁, w₂, -, hs, rfl, hstep, hw⟩ := h
  have hlt : i < w₁.slots.length := (List.getElem?_eq_some_iff.mp hs).1
  rcases step_cases hstep with ⟨call, ha, -⟩ | ⟨j, s, l, rest, ha, -⟩ |
    ⟨j, s, ha, hs', -, rfl⟩ | ⟨j, s, ha, -⟩
  · cases ha
  · cases ha
  · cases ha
    obtain rfl := Slot.running.inj (Option.some.inj (hs.symm.trans hs'))
    refine hw.session_invariant (by rwa [List.length_set]) (fun t ht => ?_)
      (fun g s t => AfterRead.advance) t ht
    -- the session has just read
    rcases World.running_set ht with ⟨-, hread⟩ | ⟨hne, -⟩
    · rw [advance_outboxPublish] at hread
      obtain rfl := Slot.running.inj hread
      exact .publishing (List.nil_append _) nofun
    · exact absurd rfl hne
  · cases ha

/-- **The first failure ends a call**: no step of it marks the event at which the transport raised,
nor one that comes after it in the batch. -/
theorem HasRead.not_marked (h₀ : Initial db₀) (h : HasRead H db₀ w i limit accepts now batch)
    {before after : List OutboxEvent} {e : OutboxEvent} (hbatch : batch = before ++ e :: after)
    (hraise : accepts e.message = false) (hstep : (api H).step w (.advance i) = some w') {k : ℕ}
    {x : OutboxEvent} (hx : w.shared.store.outboxEvents[k]? = some x)
    (hid : x.id ∈ (e :: after).map (·.id)) : w'.shared.store.outboxEvents[k]? = some x := by
  rcases shared_step hstep with hsame | ⟨j, s, next, ha, hs, hprog, hcommit⟩ |
    ⟨j, s, m, next, -, -, -, hemit⟩
  · rw [hsame]
    exact hx
  · cases ha
    have hread := h.afterRead hs
    rw [hprog] at hread
    obtain ⟨done, rest, hdone, haccepted, hp⟩ := hread.commits
    -- the accepted events come before the failure, and the batch repeats no id
    have hbefore : done <+: before := by
      rcases List.append_eq_append_iff.mp (hdone.trans hbatch) with ⟨c, hc, -⟩ | ⟨c, hc, hrest⟩
      · exact ⟨c, hc.symm⟩
      · cases c with
        | nil =>
            rw [hc, List.append_nil]
        | cons e' c =>
            obtain ⟨rfl, -⟩ := List.cons.inj hrest
            rw [haccepted e (by rw [hc]; simp)] at hraise
            cases hraise
    have hnew : x.id ∉ done.map (·.id) := by
      have hids := h.nodup_ids h₀
      rw [hbatch, List.map_append, List.nodup_append] at hids
      intro hmem
      exact hids.2.2 _ ((hbefore.map _).subset hmem) _ hid rfl
    have hmark : x.mark (marksOf now done) = x := by
      apply OutboxEvent.mark_of_not_mem
      rwa [map_fst_marksOf]
    have hstore : w'.shared.store = w.shared.store.view (markWrites (marksOf now done)) := by
      rw [hcommit, hp]
      rfl
    rw [hstore, view_markWrites_outboxEvents, List.getElem?_map, hx, Option.map_some, hmark]
  · rw [hemit]
    exact hx

/-! ## Every run -/

/-- A row later: it is the same event, and it has not been unpublished. -/
structure StaysPublished (e e' : OutboxEvent) : Prop where
  same : SameEvent e e'
  published : e.publishedAt ≠ none → e'.publishedAt ≠ none

theorem StaysPublished.refl (e : OutboxEvent) : StaysPublished e e := ⟨.refl e, id⟩

theorem StaysPublished.trans {e e' e'' : OutboxEvent} (h : StaysPublished e e')
    (h' : StaysPublished e' e'') : StaysPublished e e'' :=
  ⟨h'.same.trans h.same, fun hpublished => h'.published (h.published hpublished)⟩

theorem StaysPublished.mark (marks : List (UUID × Timestamp)) (e : OutboxEvent) :
    StaysPublished e (e.mark marks) := by
  refine ⟨OutboxEvent.unmarked_mark marks e, fun hpublished => ?_⟩
  unfold OutboxEvent.mark
  split
  · exact Option.some_ne_none _
  · exact hpublished

/-- The same event has the same message. -/
theorem SameEvent.message_eq {e e' : OutboxEvent} (h : SameEvent e e') :
    e'.message = e.message := by
  have hmessage : e'.unmarked.message = e.unmarked.message := congrArg OutboxEvent.message h
  exact hmessage

/-- **Relays lose nothing and mark nothing falsely**, in every run of writers and relays. What is
published has been accepted; a call marks nothing from its first failure on; and an event of the
outbox stays there, published once it is, and pending as long as it has not been accepted. -/
theorem relay_safe (h₀ : Initial db₀) (h : (api H).Reachable (World.init db₀) w) :
    (∀ e ∈ w.shared.store.outboxEvents, e.publishedAt ≠ none → e.message ∈ w.shared.sent) ∧
      (∀ i limit accepts now batch, HasRead H db₀ w i limit accepts now batch →
        ∀ before e after, batch = before ++ e :: after → accepts e.message = false →
          ∀ w', (api H).step w (.advance i) = some w' →
            ∀ (k : ℕ) x, w.shared.store.outboxEvents[k]? = some x →
              x.id ∈ (e :: after).map (·.id) → w'.shared.store.outboxEvents[k]? = some x) ∧
      ∀ w', (api H).Reachable w w' → ∀ (k : ℕ) e, w.shared.store.outboxEvents[k]? = some e →
        ∃ e', w'.shared.store.outboxEvents[k]? = some e' ∧ StaysPublished e e' ∧
          (e.message ∉ w'.shared.sent → e' ∈ w'.shared.store.pendingEvents) := by
  refine ⟨(relayed_of_api h₀ h).published, ?_, fun w' h' k e he => ?_⟩
  · intro i limit accepts now batch hread before e after hbatch hraise w' hstep k x hx hid
    exact hread.not_marked h₀ hbatch hraise hstep hx hid
  · have hextends : Extends StaysPublished w.shared.store w'.shared.store :=
      extends_of_api StaysPublished.refl (fun _ _ _ => .trans) .mark (.initial h₀) h h'
    obtain ⟨e', he', hkept⟩ := hextends.outboxEvents k e he
    refine ⟨e', he', hkept, fun hunsent => ?_⟩
    rw [← hkept.same.message_eq] at hunsent
    exact (relayed_of_api h₀ (h.trans h')).mem_pendingEvents (List.mem_of_getElem? he') hunsent

/-- A relay call can be started in any world, and reads its batch. -/
theorem exists_hasRead (h : (api H).Reachable (World.init db₀) w) (limit : ℕ)
    (accepts : Message → Bool) (now : UUID → Timestamp) :
    ∃ w', (api H).Reachable w w' ∧ HasRead H db₀ w' w.slots.length limit accepts now
      (w.shared.store.pendingEvents.take limit) := by
  let call : Request := .outboxPublish limit accepts now
  let w₁ : World sql Database Writes Resource Request Response :=
    { w with slots := w.slots ++ [.running ((api H).fresh call)] }
  have hstart : (api H).step w (.start call) = some w₁ := rfl
  have hs : w₁.slots[w.slots.length]? = some (.running ((api H).fresh call)) :=
    List.getElem?_concat_length
  -- the query takes no locks
  have hmissing : (api H).missing w₁.shared ((api H).fresh call) = [] := rfl
  have hstep : (api H).step w₁ (.advance w.slots.length) =
      some ⟨((api H).advance w₁.shared ((api H).fresh call)).1,
        w₁.slots.set w.slots.length ((api H).advance w₁.shared ((api H).fresh call)).2⟩ := by
    simp only [System.step, hs, hmissing, if_pos]
  have hreach : (api H).Reachable w w₁ := Reaches.refl.step trivial hstart
  exact ⟨_, hreach.step trivial hstep, w₁, _, h.trans hreach, hs, rfl, hstep, .refl⟩

/-- A relay whose transport is down has read a deposit's event, and does not mark it. -/
theorem relay_safe_depositRun : ∃ w i batch, batch.map (·.eventType) = ["transaction.deposit"] ∧
    HasRead sha256 sampleDatabase w i 50 (fun _ => false) (fun _ => 7) batch ∧
      ∀ w', (api sha256).step w (.advance i) = some w' →
        ∀ (k : ℕ) x, w.shared.store.outboxEvents[k]? = some x → x.id ∈ batch.map (·.id) →
          w'.shared.store.outboxEvents[k]? = some x := by
  obtain ⟨w, hw, houtcome⟩ := Option.map_eq_some_iff.mp depositRun_outcome
  have hreach := Reaches.of_run hw
  obtain ⟨e, hbatch, htype⟩ := List.map_eq_singleton_iff.mp houtcome
  obtain ⟨w', hw', hread⟩ := exists_hasRead hreach 50 (fun _ => false) fun _ => 7
  rw [hbatch] at hread
  have hsafe := relay_safe initial_sampleDatabase (hreach.trans hw')
  exact ⟨w', _, [e], congrArg (fun type => [type]) htype, hread,
    hsafe.2.1 _ _ _ _ _ hread [] e [] rfl rfl⟩

end LedgerApi
