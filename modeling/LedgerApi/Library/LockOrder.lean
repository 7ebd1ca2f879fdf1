import Mathlib.Logic.Relation
import LedgerApi.Library.Triple

/-! # Deadlock freedom from a lock order

Sessions that take locks one by one deadlock when they wait for each other in a circle. A
`LockOrder` ranks the resources; a session that only ever takes a lock of higher rank than all it
holds cannot be part of a circle (`not_waitsFor_cycle`).

Two kinds of locks need no rank, because nobody else can hold them (`LockOrder.Shielded`): a lock on
a resource the session has locked exclusively before, and a lock on a resource with a `guard`, a
second resource that is always locked exclusively first. -/

namespace Sessions

variable {S : Signature} {σ π ρ κ α : Type}

/-- An order in which resources are locked. -/
structure LockOrder (ρ : Type) where
  /-- The place of a resource in the order. -/
  rank : ρ → ℕ
  /-- A resource that is locked exclusively before this one, if there is one. -/
  guard : ρ → Option ρ

namespace LockOrder

variable (O : LockOrder ρ)

/-- Under locks `L` no other session holds a lock on the resource. -/
def Shielded (L : List (Lock ρ)) (r : ρ) : Prop :=
  Lock.excl r ∈ L ∨ ∃ g ∈ O.guard r, Lock.excl g ∈ L

/-- A lock that may be taken under the locks `L`. -/
def Admissible (L : List (Lock ρ)) (l : Lock ρ) : Prop :=
  (O.Shielded L l.resource ∨ ∀ l' ∈ L, O.rank l'.resource < O.rank l.resource) ∧
    ∀ g ∈ O.guard l.resource, Lock.excl g ∈ L

/-- Locks that may be taken one after the other under the locks `L`. -/
def Ordered : List (Lock ρ) → List (Lock ρ) → Prop
  | _, [] => True
  | L, l :: ls => O.Admissible L l ∧ Ordered (L ++ [l]) ls

/-- The guards of all locks of a session are among them. -/
def Guarded (L : List (Lock ρ)) : Prop :=
  ∀ l ∈ L, ∀ g ∈ O.guard l.resource, Lock.excl g ∈ L

variable {O}

@[simp] theorem ordered_nil (L : List (Lock ρ)) : O.Ordered L [] := trivial

@[simp] theorem ordered_cons (L : List (Lock ρ)) (l : Lock ρ) (ls : List (Lock ρ)) :
    O.Ordered L (l :: ls) ↔ O.Admissible L l ∧ O.Ordered (L ++ [l]) ls := Iff.rfl

/-- Each lock of an ordered sequence may be taken after those before it. -/
theorem Ordered.admissible {L pre post : List (Lock ρ)} {l : Lock ρ}
    (h : O.Ordered L (pre ++ l :: post)) : O.Admissible (L ++ pre) l := by
  induction pre generalizing L with
  | nil => rw [List.append_nil]; exact h.1
  | cons k pre ih =>
      have := ih h.2
      rwa [List.append_assoc, List.singleton_append] at this

/-- A lock stays shielded under more locks. -/
theorem Shielded.mono {L L' : List (Lock ρ)} {r : ρ} (h : O.Shielded L r) (hL : L ⊆ L') :
    O.Shielded L' r := by
  rcases h with h | ⟨g, hg, h⟩
  · exact Or.inl (hL h)
  · exact Or.inr ⟨g, hg, hL h⟩

/-- Taking an admissible lock keeps the guards in place. -/
theorem Guarded.append_singleton {L L' : List (Lock ρ)} {l : Lock ρ} (h : O.Guarded L)
    (hL' : L' ⊆ L) (hl : O.Admissible L' l) : O.Guarded (L ++ [l]) := by
  intro k hk g hg
  rcases List.mem_append.mp hk with hk | hk
  · exact List.mem_append_left _ (h k hk g hg)
  · rw [List.mem_singleton.mp hk] at hg
    exact List.mem_append_left _ (hL' (hl.2 g hg))

/-- Nobody else holds a lock on a shielded resource. -/
theorem Shielded.not_mem {L L' : List (Lock ρ)} {r : ρ} (h : O.Shielded L r)
    (hcompat : Compatible L L') (hL' : O.Guarded L') {l : Lock ρ} (hl : l.resource = r) :
    l ∉ L' := by
  intro hmem
  rcases h with h | ⟨g, hg, h⟩
  · exact hcompat.not_mem h hl hmem
  · exact hcompat.not_mem h rfl (hL' l hmem g (hl ▸ hg))

end LockOrder

section Waiting

variable {Y : System S σ π ρ κ α} {w : World S σ π ρ κ α}

/-- The locks that session `i` holds. -/
def World.locksAt (w : World S σ π ρ κ α) (i : ℕ) : List (Lock ρ) :=
  match w.slots[i]? with
  | some slot => slot.locks
  | none => []

/-- A session that holds a lock is running. -/
theorem World.running_of_locksAt {i : ℕ} {l : Lock ρ} (h : l ∈ w.locksAt i) :
    ∃ s, w.Running i s ∧ l ∈ s.locks := by
  unfold World.locksAt at h
  split at h
  case h_1 slot hslot =>
    cases slot with
    | running s => exact ⟨s, hslot, h⟩
    | finished call verdict => cases h
  case h_2 => cases h

variable [DecidableEq ρ]

variable (Y) in
/-- The next lock that session `i` needs. -/
def System.wanted (w : World S σ π ρ κ α) (i : ℕ) : Option (Lock ρ) :=
  match w.slots[i]? with
  | some (.running s) => (Y.missing w.shared s).head?
  | _ => none

variable (Y w) in
/-- Session `i` waits for session `j`: the next lock it needs conflicts with a lock of `j`. -/
def WaitsFor (i j : ℕ) : Prop :=
  j ≠ i ∧ ∃ l ∈ Y.wanted w i, ∃ l' ∈ w.locksAt j, l.Conflicts l'

instance (i j : ℕ) : Decidable (WaitsFor Y w i j) :=
  inferInstanceAs (Decidable (j ≠ i ∧ ∃ l ∈ Y.wanted w i, ∃ l' ∈ w.locksAt j, l.Conflicts l'))

/-- A session that needs a lock is running. -/
theorem System.running_of_wanted {i : ℕ} {l : Lock ρ} (h : l ∈ Y.wanted w i) :
    ∃ s rest, w.Running i s ∧ Y.missing w.shared s = l :: rest := by
  unfold System.wanted at h
  split at h
  case h_1 s hs => exact ⟨s, _, hs, (List.cons_head?_tail h).symm⟩
  case h_2 => cases h

variable {O : LockOrder ρ} {C : Contract S σ π ρ κ} {Q : κ → α → Assn S σ π ρ κ}
  {E : κ → S.Exn → Assn S σ π ρ κ}

/-- The next lock of a waiting session is admissible under the locks it has. -/
theorem admissible_of_missing
    (hready : ∀ L stmt, C.ready L stmt → O.Ordered L (Y.footprint stmt))
    (hw : w.Sound C Y Q E) {i : ℕ} {s : Session S π ρ κ α} (hs : w.Running i s) {l : Lock ρ}
    {rest : List (Lock ρ)} (h : Y.missing w.shared s = l :: rest) :
    ∃ L ⊆ s.locks, s.locks ⊆ L ∧ O.Admissible L l := by
  obtain ⟨stmt, next, pre, post, hprog, hfoot, hpre, hl⟩ := System.missing_eq_cons h
  have hord := hready _ _ (hw.ready hs hprog)
  rw [hfoot] at hord
  have hacq := (hw.session i s hs).acquired_subset hprog hfoot hl
  refine ⟨s.held ++ pre, ?_, ?_, hord.admissible⟩
  · exact List.append_subset.mpr ⟨List.subset_append_left _ _, hpre⟩
  · exact List.append_subset.mpr ⟨List.subset_append_left _ _, fun x hx =>
      List.mem_append_right _ (hacq hx)⟩

/-- Sessions that follow the order hold the guards of all their locks. -/
theorem guarded_of_reaches (hA : Annotated C Y Q E)
    (hready : ∀ L stmt, C.ready L stmt → O.Ordered L (Y.footprint stmt))
    {adm : World S σ π ρ κ α → System.Action κ → Prop} {w₀ : World S σ π ρ κ α}
    (hadm : ∀ w a, adm w a → C.Admits w a) (hw₀ : w₀.Sound C Y Q E) (hempty : w₀.slots = [])
    (h : Y.Reaches adm w₀ w) : ∀ i s, w.Running i s → O.Guarded s.locks := by
  induction h with
  | refl => intro i s hs; simp [World.Running, hempty] at hs
  | @step v v' a hv ha hstep ih =>
      have hsound := World.Sound.of_reaches hA hadm hw₀ hv
      rcases System.step_cases hstep with ⟨call, -, rfl⟩ | ⟨i, s, l, rest, -, hs, hl, -, rfl⟩ |
        ⟨i, s, -, hs, -, rfl⟩ | ⟨i, s, -, hs, rfl⟩
      · intro j t ht
        -- a new session holds nothing
        rcases World.running_append ht with ht | ⟨-, rfl⟩
        · exact ih j t ht
        · exact fun l hl => by cases hl
      · intro j t ht
        rcases World.running_set ht with ⟨rfl, hx⟩ | ⟨-, ht⟩
        · obtain rfl := (Slot.running.inj hx).symm
          -- the lock that is granted is admissible, so its guard is held
          obtain ⟨L, hL, -, hadm⟩ := admissible_of_missing hready hsound hs hl
          have := (ih j s hs).append_singleton hL hadm
          simpa only [Session.locks, List.append_assoc] using this
        · exact ih j t ht
      · intro j t ht
        rcases World.running_set ht with ⟨rfl, hx⟩ | ⟨-, ht⟩
        · -- a session that goes on has kept its locks or given all of them back
          rcases System.advance_locks Y hx with hlocks | hlocks
          · rw [hlocks]
            exact ih j s hs
          · rw [hlocks]
            exact fun l hl => by cases hl
        · exact ih j t ht
      · intro j t ht
        rcases World.running_set ht with ⟨-, hx⟩ | ⟨-, ht⟩
        · cases hx
        · exact ih j t ht

/-- The rank of the lock a session waits for. -/
def wantedRank (Y : System S σ π ρ κ α) (O : LockOrder ρ) (w : World S σ π ρ κ α) (i : ℕ) : ℕ :=
  match Y.wanted w i with
  | some l => O.rank l.resource
  | none => 0

/-- Along waiting sessions the rank of the wanted lock grows. -/
theorem wantedRank_lt (hready : ∀ L stmt, C.ready L stmt → O.Ordered L (Y.footprint stmt))
    (hw : w.Sound C Y Q E) (hguard : ∀ i s, w.Running i s → O.Guarded s.locks) {i j k : ℕ}
    (hij : WaitsFor Y w i j) (hjk : WaitsFor Y w j k) :
    wantedRank Y O w i < wantedRank Y O w j := by
  obtain ⟨-, l, hl, l', hl', hconf⟩ := hij
  obtain ⟨hkj, m, hm, m', hm', hconf'⟩ := hjk
  obtain ⟨t, rest, ht, hmiss⟩ := System.running_of_wanted hm
  obtain ⟨u, hu, hm'⟩ := World.running_of_locksAt hm'
  obtain ⟨L, hL, hsub, hadm, -⟩ := admissible_of_missing hready hw ht hmiss
  -- a shielded lock is never waited for, so the other one is ranked above all that is held
  have hrank : ∀ x ∈ L, O.rank x.resource < O.rank m.resource := by
    rcases hadm with hshield | hrank
    · have hcompat := hw.compatible j k t u hkj ht hu
      exact absurd hm' ((hshield.mono hL).not_mem hcompat (hguard k u hu) hconf'.1.symm)
    · exact hrank
  have hheld : l' ∈ t.locks := by
    rwa [World.locksAt, show w.slots[j]? = some (.running t) from ht] at hl'
  rw [wantedRank, wantedRank, Option.mem_def.mp hl, Option.mem_def.mp hm]
  dsimp only
  rw [hconf.1]
  exact hrank l' (hsub hheld)

/-- **Deadlock freedom**: sessions that follow a lock order never wait in a circle. -/
theorem not_waitsFor_cycle (hA : Annotated C Y Q E)
    (hready : ∀ L stmt, C.ready L stmt → O.Ordered L (Y.footprint stmt))
    {adm : World S σ π ρ κ α → System.Action κ → Prop} {w₀ : World S σ π ρ κ α}
    (hadm : ∀ w a, adm w a → C.Admits w a) (hw₀ : w₀.Sound C Y Q E) (hempty : w₀.slots = [])
    (h : Y.Reaches adm w₀ w) (i : ℕ) : ¬ Relation.TransGen (WaitsFor Y w) i i := by
  have hw := World.Sound.of_reaches hA hadm hw₀ h
  have hguard := guarded_of_reaches hA hready hadm hw₀ hempty h
  intro hcycle
  obtain ⟨j, hij, -⟩ := Relation.TransGen.head'_iff.mp hcycle
  -- by induction along the circle the rank grows, and so exceeds itself
  have key : ∀ k, Relation.TransGen (WaitsFor Y w) i k → ∀ m, WaitsFor Y w k m →
      wantedRank Y O w i < wantedRank Y O w k := by
    intro k hik
    induction hik with
    | single hik => exact fun m hkm => wantedRank_lt hready hw hguard hik hkm
    | tail _ hbk ih =>
        exact fun m hkm => Nat.lt_trans (ih _ hbk) (wantedRank_lt hready hw hguard hbk hkm)
  exact Nat.lt_irrefl _ (key i hcycle j hij)

end Waiting

end Sessions
