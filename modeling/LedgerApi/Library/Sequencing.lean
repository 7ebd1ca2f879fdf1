import Mathlib.Data.List.Nodup
import Mathlib.Data.List.Sublists
import Mathlib.Order.Lattice
import Mathlib.Tactic.Common

/-! # Sending in the order of a ledger

A ledger of messages grows at its end. Relays send its messages in batches, and may send one again.
They are sent in order when nothing is sent before all that stands before it in the ledger
(`InOrder`). That is so as long as what is left of every batch is `Safe`; and a batch of the oldest
unsent rows is safe if these rows are as old as their place in the ledger tells (`Safe.of_sorted`),
whatever is added to the ledger meanwhile. -/

namespace Sequencing

open List

variable {M : Type*} {ledger new sent sent' rest : List M} {x m : M}

/-- A message is sent after all those before it in the ledger. -/
def InOrder (ledger sent : List M) : Prop :=
  ∀ x m, [x, m] <+ ledger → ∀ before after, sent = before ++ m :: after → x ∈ before

/-- The rest of a batch can be sent: what stands before one of its messages in the ledger has been
sent or comes before it in the rest. -/
def Safe (ledger sent rest : List M) : Prop :=
  ∀ x m, [x, m] <+ ledger → ∀ before after, rest = before ++ m :: after → x ∈ sent ∨ x ∈ before

/-- What precedes an old message is old. -/
theorem sublist_of_append (h : [x, m] <+ ledger ++ new) (hm : m ∉ new) : [x, m] <+ ledger := by
  obtain ⟨l₁, l₂, heq, h₁, h₂⟩ := sublist_append_iff.mp h
  obtain rfl | ⟨l, y, rfl⟩ := l₂.eq_nil_or_concat
  · rw [heq, append_nil]
    exact h₁
  · -- the last of the two is `m`
    have hlast : m = y := by simpa using congrArg List.getLast? heq
    exact absurd (h₂.subset (by simp [hlast])) hm

/-! ## What keeps the order -/

theorem InOrder.nil : InOrder ledger ([] : List M) := by
  intro x m _ before after h
  simp at h

/-- The ledger grows. -/
theorem InOrder.append_ledger (h : InOrder ledger sent) (hnew : ∀ m ∈ sent, m ∉ new) :
    InOrder (ledger ++ new) sent := by
  intro x m hxm before after hsent
  have hm : m ∈ sent := hsent ▸ mem_append_right _ mem_cons_self
  exact h x m (sublist_of_append hxm (hnew m hm)) before after hsent

theorem Safe.append_ledger (h : Safe ledger sent rest) (hnew : ∀ m ∈ rest, m ∉ new) :
    Safe (ledger ++ new) sent rest := by
  intro x m hxm before after hrest
  have hm : m ∈ rest := hrest ▸ mem_append_right _ mem_cons_self
  exact h x m (sublist_of_append hxm (hnew m hm)) before after hrest

/-- More may have been sent. -/
theorem Safe.mono (h : Safe ledger sent rest) (hsent : sent ⊆ sent') : Safe ledger sent' rest :=
  fun x m hxm before after hrest => (h x m hxm before after hrest).imp_left fun hx => hsent hx

/-- **The next message of a safe batch** may be sent. -/
theorem InOrder.snoc (h : InOrder ledger sent) (hsafe : Safe ledger sent (m :: rest)) :
    InOrder ledger (sent ++ [m]) := by
  intro x y hxy before after hsent
  obtain rfl | ⟨after, z, rfl⟩ := after.eq_nil_or_concat
  · -- it is the last one
    obtain ⟨rfl, hy⟩ := append_inj' hsent rfl
    obtain rfl := singleton_inj.mp hy
    exact (hsafe x m hxy [] rest rfl).resolve_right not_mem_nil
  · rw [concat_eq_append, ← cons_append, ← append_assoc] at hsent
    exact h x y hxy before after (append_inj' hsent rfl).1

/-- The batch is safe still. -/
theorem Safe.tail (h : Safe ledger sent (m :: rest)) : Safe ledger (sent ++ [m]) rest := by
  intro x y hxy before after hrest
  rcases h x y hxy (m :: before) after (by rw [hrest]; rfl) with hx | hx
  · exact Or.inl (mem_append_left _ hx)
  · rcases mem_cons.mp hx with rfl | hx
    · exact Or.inl (mem_append_right _ mem_cons_self)
    · exact Or.inr hx

/-! ## Reading a batch -/

variable {E T : Type*} [LinearOrder T] [DecidableEq M] {message : E → M} (time : E → T)
  {rows batch : List E} (later : List E)

/-- **A batch of the oldest rows is safe** if the unsent rows of the ledger are in the order of
their times. -/
theorem Safe.of_sorted (h : InOrder (rows.map message) sent) (hnodup : (rows.map message).Nodup)
    (hunsent : (rows.filter (message · ∉ sent)).Pairwise (time · < time ·))
    (hmem : ∀ e ∈ rows, message e ∉ sent → e ∈ batch ++ later) (hbatch : batch ⊆ rows)
    (hsorted : (batch ++ later).Pairwise (time · ≤ time ·)) :
    Safe (rows.map message) sent (batch.map message) := by
  intro x m hxm before after hsplit
  obtain ⟨front, back, rfl, rfl, hback⟩ := map_eq_append_iff.mp hsplit
  obtain ⟨e, back, rfl, rfl, rfl⟩ := map_eq_cons_iff.mp hback
  by_cases hx : x ∈ sent
  · exact Or.inl hx
  -- the two rows of the ledger
  obtain ⟨pair, hpair, heq⟩ := sublist_map_iff.mp hxm
  obtain ⟨f, tail, rfl, rfl, htail⟩ := map_eq_cons_iff.mp heq.symm
  obtain ⟨e', last, rfl, he', hlast⟩ := map_eq_cons_iff.mp htail
  obtain rfl := map_eq_nil_iff.mp hlast
  have he : e ∈ rows := hbatch (by simp)
  obtain rfl : e' = e := inj_on_of_nodup_map hnodup (hpair.subset (by simp)) he he'
  have hf : f ∈ rows := hpair.subset (by simp)
  -- what is sent has been sent after what stands before it
  have hunsent_e : message e' ∉ sent := by
    intro hmem
    obtain ⟨before, after, hsent⟩ := append_of_mem hmem
    refine hx ?_
    rw [hsent]
    exact mem_append_left _ (h _ _ hxm before after hsent)
  have hlt : time f < time e' := by
    have hsub := hpair.filter (message · ∉ sent)
    rw [filter_cons_of_pos (by simpa using hx), filter_cons_of_pos (by simpa using hunsent_e)]
      at hsub
    exact pairwise_iff_forall_sublist.mp hunsent hsub
  refine Or.inr (mem_map_of_mem ?_)
  -- a row that is older than `e'` does not come after it
  have hbefore := hmem f hf hx
  rw [append_assoc, cons_append] at hbefore hsorted
  rcases mem_append.mp hbefore with hbefore | hafter
  · exact hbefore
  · rcases mem_cons.mp hafter with rfl | hafter
    · exact absurd hlt (lt_irrefl _)
    · have hle := (pairwise_cons.mp (pairwise_append.mp hsorted).2.1).1 f hafter
      exact absurd hle (not_le.mpr hlt)

end Sequencing
