import Mathlib.Algebra.BigOperators.Group.List.Basic
import Mathlib.Algebra.Order.BigOperators.Group.List
import Mathlib.Algebra.Ring.Int.Defs
import Mathlib.Data.List.Sort
import Mathlib.Tactic.Common

/-! # Rows in an order

What a query answers that orders its rows by a column: the same rows, sorted, with rows that tie in
whatever order the database likes (`OrderBy`). A program that reads such an answer can count on no
more than that.

`NeverNegative` is what a running balance over rows sorted by a key needs: no partial sum is
negative, however ties are broken. A credit keeps it wherever it is sorted in
(`NeverNegative.credit`); a debit keeps it if the rows before it cover it, with all other debits
(`NeverNegative.debit`). -/

namespace Ordering

variable {α K : Type*}

/-- A way of ordering rows by `le`: ties are broken as it likes. -/
structure OrderBy (le : α → α → Prop) where
  /-- The rows in order. -/
  arrange : List α → List α
  /-- No row is lost or added. -/
  perm : ∀ rows, (arrange rows).Perm rows
  /-- The rows are sorted. -/
  sorted : ∀ rows, (arrange rows).Pairwise le

/-- Smallest key first; rows that tie stay in the order they were in. -/
def OrderBy.ascending [LinearOrder K] (key : α → K) : OrderBy fun a b : α => key a ≤ key b where
  arrange := List.insertionSort fun a b => key a ≤ key b
  perm := List.perm_insertionSort _
  sorted rows :=
    have : Std.Total fun a b : α => key a ≤ key b := ⟨fun a b => le_total (key a) (key b)⟩
    have : IsTrans α fun a b : α => key a ≤ key b := ⟨fun _ _ _ hab hbc => le_trans hab hbc⟩
    List.pairwise_insertionSort _ rows

/-- Largest key first; rows that tie stay in the order they were in. -/
def OrderBy.descending [LinearOrder K] (key : α → K) : OrderBy fun a b : α => key b ≤ key a where
  arrange := List.insertionSort fun a b => key b ≤ key a
  perm := List.perm_insertionSort _
  sorted rows :=
    have : Std.Total fun a b : α => key b ≤ key a := ⟨fun a b => le_total (key b) (key a)⟩
    have : IsTrans α fun a b : α => key b ≤ key a := ⟨fun _ _ _ hab hbc => le_trans hbc hab⟩
    List.pairwise_insertionSort _ rows

/-- Of rows that ascend strictly, those up to one of them are the initial part that it ends. -/
theorem filter_le_of_prefix [LinearOrder K] {key : α → K} {rows initial : List α} {r : α}
    (hrows : rows.Pairwise fun a b => key a < key b) (hinit : initial ++ [r] <+: rows) :
    rows.filter (key · ≤ key r) = initial ++ [r] := by
  obtain ⟨rest, rfl⟩ := hinit
  obtain ⟨hinitial, -, hcross⟩ := List.pairwise_append.mp hrows
  have hbefore : (initial ++ [r]).filter (key · ≤ key r) = initial ++ [r] := by
    refine List.filter_eq_self.mpr fun a ha => decide_eq_true ?_
    rcases List.mem_append.mp ha with ha | ha
    · exact ((List.pairwise_append.mp hinitial).2.2 a ha r (List.mem_singleton_self r)).le
    · rw [List.mem_singleton.mp ha]
  have hafter : rest.filter (key · ≤ key r) = [] := by
    refine List.filter_eq_nil_iff.mpr fun a ha hle => ?_
    have hlt := hcross r (List.mem_append_right _ (List.mem_singleton_self r)) a ha
    exact absurd (of_decide_eq_true hle) (not_le.mpr hlt)
  rw [List.filter_append, hbefore, hafter, List.append_nil]

/-! ## Running sums -/

section Running

variable [LinearOrder K] {key : α → K} {amount : α → ℤ} {rows : List α} {r : α}

variable (key amount) in
/-- No partial sum of the rows in the order of their keys is negative. -/
def NeverNegative (rows : List α) : Prop :=
  ∀ arranged : List α, arranged.Perm rows → (arranged.Pairwise fun a b => key a ≤ key b) →
    ∀ initial, initial <+: arranged → 0 ≤ (initial.map amount).sum

theorem NeverNegative.nil : NeverNegative key amount [] := by
  intro arranged hperm _ initial hinitial
  obtain rfl := List.perm_nil.mp hperm
  rw [List.prefix_nil.mp hinitial, List.map_nil, List.sum_nil]

/-- A row stands somewhere among the others, and without it they are as they were before. -/
theorem exists_split {arranged : List α} (hperm : arranged.Perm (rows ++ [r]))
    (hsorted : arranged.Pairwise fun a b => key a ≤ key b) :
    ∃ before after, arranged = before ++ r :: after ∧ (before ++ after).Perm rows ∧
      ((before ++ after).Pairwise fun a b => key a ≤ key b) ∧ ∀ s ∈ after, key r ≤ key s := by
  obtain ⟨before, after, rfl⟩ := List.append_of_mem (hperm.mem_iff.mpr (by simp : r ∈ rows ++ [r]))
  refine ⟨before, after, rfl, ?_, ?_, ?_⟩
  · have hcons : (r :: (before ++ after)).Perm (r :: rows) :=
      List.perm_middle.symm.trans (hperm.trans (List.perm_append_singleton r rows))
    exact hcons.cons_inv
  · exact hsorted.sublist ((List.Sublist.refl before).append (List.sublist_cons_self r after))
  · exact (List.pairwise_cons.mp (List.pairwise_append.mp hsorted).2.1).1

/-- An initial part that reaches past a row is the part before it, the row, and some after it. -/
theorem prefix_cases {before after initial : List α} (h : initial <+: before ++ r :: after) :
    initial <+: before ∨ ∃ rest, rest <+: after ∧ initial = before ++ r :: rest := by
  obtain ⟨tail, htail⟩ := h
  rcases List.append_eq_append_iff.mp htail with ⟨gap, hbefore, -⟩ | ⟨gap, hinitial, hgap⟩
  · exact Or.inl ⟨gap, hbefore.symm⟩
  · cases gap with
    | nil => exact Or.inl ⟨[], by rw [hinitial, List.append_nil, List.append_nil]⟩
    | cons s rest =>
        obtain ⟨rfl, hafter⟩ := List.cons.inj hgap
        exact Or.inr ⟨rest, ⟨tail, hafter.symm⟩, hinitial⟩

/-- **A credit** keeps every partial sum from being negative, wherever it is sorted in. -/
theorem NeverNegative.credit (h : NeverNegative key amount rows) (hr : 0 ≤ amount r) :
    NeverNegative key amount (rows ++ [r]) := by
  intro arranged hperm hsorted initial hinitial
  obtain ⟨before, after, rfl, hrows, hpair, -⟩ := exists_split hperm hsorted
  rcases prefix_cases hinitial with hbefore | ⟨rest, hrest, rfl⟩
  · exact h _ hrows hpair _ (hbefore.trans (List.prefix_append before after))
  · -- without the credit the sum is one of the partial sums there were
    have hsum := h _ hrows hpair (before ++ rest) ((List.prefix_append_right_inj before).mpr hrest)
    simp only [List.map_append, List.map_cons, List.sum_append, List.sum_cons] at hsum ⊢
    omega

/-- Rows left out that are not negative make a sum no smaller. -/
theorem sum_filter_le {counted : α → Prop} [DecidablePred counted]
    (h : ∀ s ∈ rows, ¬ counted s → 0 ≤ amount s) :
    ((rows.filter (counted ·)).map amount).sum ≤ (rows.map amount).sum := by
  induction rows with
  | nil => exact le_refl 0
  | cons s rows ih =>
      have hrest := ih fun t ht => h t (List.mem_cons_of_mem s ht)
      by_cases hs : counted s
      · simpa [List.filter_cons, hs] using hrest
      · have hs' := h s List.mem_cons_self hs
        simp only [List.filter_cons, hs, decide_false, Bool.false_eq_true, if_false, List.map_cons,
          List.sum_cons]
        omega

/-- **A debit** keeps them so if it is covered by the rows before it and the debits there are. -/
theorem NeverNegative.debit (h : NeverNegative key amount rows)
    (hfunds : 0 ≤ ((rows.filter fun s => key s < key r ∨ amount s ≤ 0).map amount).sum + amount r) :
    NeverNegative key amount (rows ++ [r]) := by
  intro arranged hperm hsorted initial hinitial
  obtain ⟨before, after, rfl, hrows, hpair, hafter⟩ := exists_split hperm hsorted
  rcases prefix_cases hinitial with hbefore | ⟨rest, ⟨last, rfl⟩, rfl⟩
  · exact h _ hrows hpair _ (hbefore.trans (List.prefix_append before after))
  · have hsum := ((hrows.filter fun s => decide (key s < key r ∨ amount s ≤ 0)).map amount).sum_eq
    have hinit : (((before ++ rest).filter fun s => key s < key r ∨ amount s ≤ 0).map amount).sum ≤
        ((before ++ rest).map amount).sum :=
      sum_filter_le fun s _ hs => by
        rw [not_or, not_le] at hs
        exact hs.2.le
    -- of the rows past the initial part only debits are counted
    have hlast : ((last.filter fun s => key s < key r ∨ amount s ≤ 0).map amount).sum ≤ 0 := by
      refine (List.sum_le_card_nsmul _ 0 fun x hx => ?_).trans_eq (nsmul_zero _)
      obtain ⟨s, hs, rfl⟩ := List.mem_map.mp hx
      obtain ⟨hs, hcounted⟩ := List.mem_filter.mp hs
      refine (of_decide_eq_true hcounted).resolve_left (not_lt.mpr ?_)
      exact hafter s (List.mem_append_right rest hs)
    simp only [List.filter_append, List.map_append, List.map_cons, List.sum_append,
      List.sum_cons] at hsum hinit ⊢
    omega

/-- What has never been negative is not negative when it is all there. -/
theorem NeverNegative.of_arrange (h : NeverNegative key amount rows)
    (order : OrderBy fun a b : α => key a ≤ key b) {initial : List α}
    (hinitial : initial <+: order.arrange rows) : 0 ≤ (initial.map amount).sum :=
  h _ (order.perm rows) (order.sorted rows) _ hinitial

end Running

end Ordering
