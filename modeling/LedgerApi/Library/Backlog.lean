import LedgerApi.Library.Ordering

/-! # Draining a backlog

Rows wait for a worker that takes them in the order of a key, some at a time, and may stop at any of
them. Before each batch the rows that wait are ordered anew, and those that tie as the store likes.

* `Drained backlog accepted pending` is what holds after any number of batches; `Drained.take` is
  the step lemma, for a batch of which a first part `done` is accepted.
* **Oldest first** (`Drained.mem_of_lt`): of the backlog nothing is left out that is smaller than
  something accepted. Nothing is accepted twice (`Drained.nodup`).
* What still waits is what is left when the accepted rows are taken out (`perm_drop`). -/

namespace Backlog

open Ordering

variable {α K : Type*} [LinearOrder K] {key : α → K} {backlog accepted pending done rest : List α}

variable (key backlog accepted pending) in
/-- After some batches: what has been accepted of a backlog, and what is pending still. -/
structure Drained : Prop where
  /-- No row is lost. -/
  perm : (accepted ++ pending).Perm backlog
  sorted : accepted.Pairwise fun a b => key a ≤ key b
  /-- What is pending comes after what has been accepted. -/
  before : ∀ a ∈ accepted, ∀ b ∈ pending, key a ≤ key b

/-- Before the first batch. -/
theorem Drained.start (backlog : List α) : Drained key backlog [] backlog :=
  ⟨List.Perm.refl _, List.Pairwise.nil, nofun⟩

/-- **Step lemma**: a first part of the pending rows is accepted, in an order of their keys. -/
theorem Drained.take (h : Drained key backlog accepted pending)
    (order : OrderBy fun a b : α => key a ≤ key b) (hdone : done <+: order.arrange pending)
    (hrest : rest.Perm ((order.arrange pending).drop done.length)) :
    Drained key backlog (accepted ++ done) rest := by
  have hperm := order.perm pending
  have hsorted := order.sorted pending
  obtain ⟨left, hleft⟩ := hdone
  rw [← hleft] at hperm hsorted hrest
  rw [List.drop_left] at hrest
  obtain ⟨hdone, -, hcross⟩ := List.pairwise_append.mp hsorted
  have hpending : ∀ b ∈ done ++ left, b ∈ pending := fun b hb => hperm.mem_iff.mp hb
  constructor
  · calc (accepted ++ done ++ rest).Perm (accepted ++ done ++ left) := hrest.append_left _
      _ = accepted ++ (done ++ left) := List.append_assoc _ _ _
      (accepted ++ (done ++ left)).Perm (accepted ++ pending) := hperm.append_left _
      (accepted ++ pending).Perm backlog := h.perm
  · refine List.pairwise_append.mpr ⟨h.sorted, hdone, fun a ha b hb => ?_⟩
    exact h.before a ha b (hpending b (List.mem_append_left _ hb))
  · intro a ha b hb
    have hb' : b ∈ left := hrest.mem_iff.mp hb
    rcases List.mem_append.mp ha with ha | ha
    · exact h.before a ha b (hpending b (List.mem_append_right _ hb'))
    · exact hcross a ha b hb'

/-- **Oldest first**: what is smaller than an accepted row has been accepted. -/
theorem Drained.mem_of_lt (h : Drained key backlog accepted pending) {a b : α} (ha : a ∈ accepted)
    (hb : b ∈ backlog) (hlt : key b < key a) : b ∈ accepted := by
  rcases List.mem_append.mp (h.perm.mem_iff.mpr hb) with hb | hb
  · exact hb
  · exact absurd (h.before a ha b hb) (not_le.mpr hlt)

/-- What has been accepted is of the backlog. -/
theorem Drained.subset (h : Drained key backlog accepted pending) : accepted ⊆ backlog :=
  fun _ ha => h.perm.mem_iff.mp (List.mem_append_left _ ha)

/-- **Nothing is accepted twice.** -/
theorem Drained.nodup (h : Drained key backlog accepted pending) (hbacklog : backlog.Nodup) :
    accepted.Nodup :=
  (List.nodup_append.mp (h.perm.nodup_iff.mpr hbacklog)).1

/-- What is left of rows that are known by their names, when the first of them are taken out. -/
theorem perm_drop {Name : Type*} [DecidableEq Name] {name : α → Name}
    (order : OrderBy fun a b : α => key a ≤ key b) (hdone : done <+: order.arrange pending)
    (hnames : (pending.map name).Nodup) :
    (pending.filter fun a => name a ∉ done.map name).Perm
      ((order.arrange pending).drop done.length) := by
  have hperm := order.perm pending
  obtain ⟨left, hleft⟩ := hdone
  rw [← hleft] at hperm ⊢
  rw [List.drop_left]
  have hnodup := ((hperm.map name).nodup_iff.mpr hnames)
  rw [List.map_append, List.nodup_append] at hnodup
  have hout : done.filter (fun a => name a ∉ done.map name) = [] := by
    refine List.filter_eq_nil_iff.mpr fun a ha => ?_
    simpa using ⟨a, ha, rfl⟩
  have hin : left.filter (fun a => name a ∉ done.map name) = left := by
    refine List.filter_eq_self.mpr fun a ha => decide_eq_true fun hmem => ?_
    exact hnodup.2.2 _ hmem _ (List.mem_map_of_mem ha) rfl
  have hfilter := hperm.filter fun a => decide (name a ∉ done.map name)
  rw [List.filter_append, hout, hin, List.nil_append] at hfilter
  exact hfilter.symm

/-- Enough batches leave nothing. -/
theorem sub_mul_eq_zero {n limit batches : ℕ} (hlimit : 0 < limit)
    (hbatches : (n + limit - 1) / limit ≤ batches) : n - limit * batches = 0 := by
  have hle : n + limit - 1 < limit * (batches + 1) := by
    rw [Nat.mul_comm]
    exact (Nat.div_lt_iff_lt_mul hlimit).mp (Nat.lt_succ_of_le hbatches)
  rw [Nat.mul_succ] at hle
  omega

end Backlog
