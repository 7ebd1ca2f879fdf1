import Mathlib.Algebra.BigOperators.Group.List.Basic
import Mathlib.Algebra.GroupWithZero.Nat
import Mathlib.Algebra.Order.BigOperators.Group.List
import Mathlib.Algebra.Order.Group.Nat
import Mathlib.Data.List.Dedup
import Mathlib.Tactic.Common

/-! # Rows grouped by a key

What aggregates over all rows say about the groups of rows with a common key, and the other way
round: the sums over the groups add up to the sum over all rows (`sum_groups`), and a total count
that the groups cannot exceed fixes the size of each of them (`length_group_eq`). -/

namespace Grouping

variable {Row Key M : Type*} [DecidableEq Key] {key : Row → Key} {rows : List Row} {keys : List Key}

omit [DecidableEq Key] in
/-- The same rows, with their distinct keys in the same order, are in the same order. -/
theorem eq_of_perm_of_map_eq {rows' : List Row} (hperm : rows.Perm rows')
    (hmap : rows.map key = rows'.map key) (hnodup : (rows.map key).Nodup) : rows = rows' := by
  refine List.ext_getElem hperm.length_eq fun i hi hi' => ?_
  refine List.inj_on_of_nodup_map hnodup (List.getElem_mem hi)
    (hperm.mem_iff.mpr (List.getElem_mem hi')) ?_
  have hkey := List.getElem_of_eq hmap (by rwa [List.length_map])
  rwa [List.getElem_map, List.getElem_map] at hkey

/-- Where keys are distinct, the group of a key is the row that is found under it. -/
theorem filter_eq_find? (h : (rows.map key).Nodup) (k : Key) :
    rows.filter (key · = k) = (rows.find? (key · = k)).toList := by
  induction rows with
  | nil => rfl
  | cons row rows ih =>
      obtain ⟨hrow, hrows⟩ := List.nodup_cons.mp h
      rw [List.filter_cons, List.find?_cons]
      by_cases heq : key row = k
      · -- no other row has the key
        have hnil : rows.filter (key · = k) = [] := by
          refine List.filter_eq_nil_iff.mpr fun r hr hk => hrow ?_
          rw [heq, ← of_decide_eq_true hk]
          exact List.mem_map_of_mem hr
        simp [heq, hnil]
      · simp only [heq, decide_false]
        exact ih hrows

/-- Each row is found under its key. -/
theorem find?_eq_some (h : (rows.map key).Nodup) {row : Row} (hrow : row ∈ rows) :
    rows.find? (key · = key row) = some row := by
  refine Option.mem_toList.mp ?_
  rw [← filter_eq_find? h]
  exact List.mem_filter.mpr ⟨hrow, decide_eq_true rfl⟩

section Sums

variable [AddCommMonoid M] {f : Row → M}

/-- A value that stands at one of several distinct keys is counted once. -/
theorem sum_indicator (hkeys : keys.Nodup) {k : Key} (hk : k ∈ keys) (m : M) :
    (keys.map fun k' => if k = k' then m else 0).sum = m := by
  induction keys with
  | nil => cases hk
  | cons k' keys ih =>
      obtain ⟨hk', hkeys⟩ := List.nodup_cons.mp hkeys
      rw [List.map_cons, List.sum_cons]
      by_cases heq : k = k'
      · -- the key is not repeated, so nothing is counted in the rest
        have hzero : (keys.map fun j => if k = j then m else 0) = keys.map fun _ => 0 :=
          List.map_congr_left fun j hj => if_neg fun h => hk' (heq.symm.trans h ▸ hj)
        rw [if_pos heq, hzero, List.sum_map_zero, add_zero]
      · rw [if_neg heq, zero_add]
        exact ih hkeys ((List.mem_cons.mp hk).resolve_left heq)

/-- **The groups add up to the whole.** -/
theorem sum_groups (hkeys : keys.Nodup) (hmem : ∀ r ∈ rows, key r ∈ keys) :
    (keys.map fun k => ((rows.filter (key · = k)).map f).sum).sum = (rows.map f).sum := by
  induction rows with
  | nil => simp
  | cons r rows ih =>
      have hsplit : ∀ k, (((r :: rows).filter (key · = k)).map f).sum =
          (if key r = k then f r else 0) + ((rows.filter (key · = k)).map f).sum := by
        intro k
        by_cases h : key r = k
        · rw [List.filter_cons_of_pos (by simpa using h), if_pos h, List.map_cons, List.sum_cons]
        · rw [List.filter_cons_of_neg (by simpa using h), if_neg h, zero_add]
      simp only [hsplit]
      rw [List.sum_map_add, sum_indicator hkeys (hmem r (by simp)),
        ih fun r' hr' => hmem r' (List.mem_cons_of_mem _ hr'), List.map_cons, List.sum_cons]

variable (key) in
/-- Groups that sum to zero make a whole that sums to zero. -/
theorem sum_eq_zero (h : ∀ r ∈ rows, ((rows.filter (key · = key r)).map f).sum = 0) :
    (rows.map f).sum = 0 := by
  have hmem : ∀ r ∈ rows, key r ∈ (rows.map key).dedup := fun r hr =>
    List.mem_dedup.mpr (List.mem_map_of_mem hr)
  rw [← sum_groups (List.nodup_dedup _) hmem]
  refine List.sum_eq_zero fun m hm => ?_
  obtain ⟨k, hk, rfl⟩ := List.mem_map.mp hm
  obtain ⟨r, hr, rfl⟩ := List.mem_map.mp (List.mem_dedup.mp hk)
  exact h r hr

end Sums

/-! ## Counting -/

/-- The sizes of the groups add up to the number of rows. -/
theorem sum_length_groups (hkeys : keys.Nodup) (hmem : ∀ r ∈ rows, key r ∈ keys) :
    (keys.map fun k => (rows.filter (key · = k)).length).sum = rows.length := by
  have h := sum_groups (f := fun _ => 1) hkeys hmem
  simpa using h

/-- A sum of bounded terms. -/
theorem sum_le_length_mul {α : Type*} {xs : List α} {f : α → ℕ} {m : ℕ}
    (hle : ∀ x ∈ xs, f x ≤ m) : (xs.map f).sum ≤ xs.length * m := by
  have h := List.sum_le_card_nsmul (xs.map f) m fun n hn => by
    obtain ⟨x, hx, rfl⟩ := List.mem_map.mp hn
    exact hle x hx
  rwa [List.length_map] at h

/-- Terms that are bounded and reach the bound in total reach it each. -/
theorem eq_of_sum_eq {α : Type*} {xs : List α} {f : α → ℕ} {m : ℕ} (hle : ∀ x ∈ xs, f x ≤ m)
    (hsum : xs.length * m ≤ (xs.map f).sum) : ∀ x ∈ xs, f x = m := by
  induction xs with
  | nil => exact nofun
  | cons x xs ih =>
      -- the rest alone cannot make up for a first term below the bound
      have hrest := sum_le_length_mul fun y hy => hle y (List.mem_cons_of_mem _ hy)
      have hx := hle x List.mem_cons_self
      rw [List.map_cons, List.sum_cons, List.length_cons, Nat.add_mul, Nat.one_mul] at hsum
      intro y hy
      rcases List.mem_cons.mp hy with rfl | hy
      · omega
      · exact ih (fun z hz => hle z (List.mem_cons_of_mem _ hz)) (by omega) y hy

variable (keys) in
/-- **A full count fixes the groups**: if no group has more than `m` rows and there are `m` rows for
each key, then the keys are distinct and each group has `m` rows. -/
theorem length_group_eq {m : ℕ} (hm : 0 < m) (hmem : ∀ r ∈ rows, key r ∈ keys)
    (hle : ∀ k ∈ keys, (rows.filter (key · = k)).length ≤ m)
    (hlen : rows.length = keys.length * m) :
    keys.Nodup ∧ ∀ k ∈ keys, (rows.filter (key · = k)).length = m := by
  have hmem' : ∀ r ∈ rows, key r ∈ keys.dedup := fun r hr => List.mem_dedup.mpr (hmem r hr)
  have hsum := sum_length_groups (List.nodup_dedup keys) hmem'
  have hle' : ∀ k ∈ keys.dedup, (rows.filter (key · = k)).length ≤ m := fun k hk =>
    hle k (List.mem_dedup.mp hk)
  have hbound := sum_le_length_mul hle'
  rw [hsum, hlen] at hbound
  -- with a key repeated, the distinct ones would have no room for all rows
  have hcard : keys.length ≤ keys.dedup.length := Nat.le_of_mul_le_mul_right hbound hm
  have hdedup : keys.dedup = keys :=
    (List.dedup_sublist keys).eq_of_length (le_antisymm (List.dedup_sublist keys).length_le hcard)
  refine ⟨hdedup ▸ List.nodup_dedup keys, fun k hk => ?_⟩
  refine eq_of_sum_eq hle' ?_ k (List.mem_dedup.mpr hk)
  rw [hsum, hlen, hdedup]

/-! ## Two tables -/

section Correspondence

variable {Other : Type*} {R : Row → Other → Prop} {others : List Other} {key' : Other → Key}

/-- Of two tables whose rows correspond in their order, each row of the second has one of the
first. -/
theorem exists_of_forall₂ (h : List.Forall₂ R rows others) {y : Other} (hy : y ∈ others) :
    ∃ x ∈ rows, R x y := by
  induction h with
  | nil => cases hy
  | cons hxy _ ih =>
      rcases List.mem_cons.mp hy with rfl | hy
      · exact ⟨_, List.mem_cons_self, hxy⟩
      · obtain ⟨x, hx, hR⟩ := ih hy
        exact ⟨x, List.mem_cons_of_mem _ hx, hR⟩

/-- If keys correspond too and are distinct, the group of a row's key is the row it corresponds
to. -/
theorem filter_of_forall₂ (h : List.Forall₂ R rows others) (hkey : ∀ x y, R x y → key' y = key x)
    (hnodup : (rows.map key).Nodup) {x : Row} (hx : x ∈ rows) :
    ∃ y, others.filter (key' · = key x) = [y] ∧ R x y := by
  induction h with
  | nil => cases hx
  | @cons a b rows others hab hrest ih =>
      obtain ⟨ha, hnodup⟩ := List.nodup_cons.mp hnodup
      rw [List.filter_cons, hkey a b hab]
      rcases List.mem_cons.mp hx with rfl | hx
      · -- the keys of the rest are keys of other rows
        have hnil : others.filter (key' · = key x) = [] := by
          refine List.filter_eq_nil_iff.mpr fun y hy heq => ha ?_
          obtain ⟨z, hz, hR⟩ := exists_of_forall₂ hrest hy
          rw [← of_decide_eq_true heq, hkey z y hR]
          exact List.mem_map_of_mem hz
        exact ⟨b, by simp [hnil], hab⟩
      · have hne : key a ≠ key x := fun heq => ha (heq ▸ List.mem_map_of_mem hx)
        rw [if_neg (by simpa using hne)]
        exact ih hnodup hx

end Correspondence

end Grouping
