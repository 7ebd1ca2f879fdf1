import Mathlib.Data.Fintype.Order
import LedgerApi.Library.Paging

/-! # Pages of a growing table

The pages of `Library/Paging.lean` where no two rows have the same key, and every page may be read
from a table that has grown since the last one (`followTables`). Rows are added at any place of the
order: those below the pages that have been read are still listed, the others are not. The listing
ends, because the bounds descend, and has every row that was there at its start exactly once
(`lists_all`). If nothing is added it has as many pages as it takes (`length_followTables`). Nor
does a client miss any of them that sees no more than the pages (`Walk.walked`). -/

namespace Paging

open Ordering

variable {Row K : Type*} [LinearOrder K] (key : Row → K) (limit : ℕ)
  (orders : ℕ → OrderBy (Descending key)) (tables : ℕ → List Row)

/-- Follow the pages to the end; page `n` is read from the table of that moment. -/
def followTables : ℕ → ℕ → Option K → Option (List (List Row))
  | 0, _, _ => none
  | fuel + 1, n, bound =>
      match page key (orders n) limit (tables n) bound with
      | (items, none) => some [items]
      | (items, some last) => (followTables fuel (n + 1) (some (key last))).map (items :: ·)

/-- **A listing from page `n` on**: it ends, descends, has nothing but rows below its bound, and has
all of those that were there when it started. -/
def Lists (n : ℕ) (bound : Option K) : Prop :=
  ∃ fuel pages, followTables key limit orders tables fuel n bound = some pages ∧
    pages.flatten.Pairwise (fun r s => key s < key r) ∧
    (∀ row ∈ pages.flatten, Below key bound row ∧ ∃ m, n ≤ m ∧ row ∈ tables m) ∧
    ∀ row ∈ tables n, Below key bound row → row ∈ pages.flatten

variable {key limit orders tables} {rows : List Row} {bound : Option K} {n : ℕ}

/-- Rows with distinct keys descend strictly. -/
theorem pairwise_arrange (order : OrderBy (Descending key)) (hkeys : (rows.map key).Nodup) :
    (order.arrange rows).Pairwise fun r s => key s < key r := by
  have hnodup : ((order.arrange rows).map key).Nodup :=
    ((order.perm rows).map key).nodup_iff.mpr hkeys
  refine ((order.sorted rows).and (List.pairwise_map.mp hnodup)).imp ?_
  exact fun h => lt_of_le_of_ne h.1 h.2.symm

/-- What is known of a page that is not the last: its rows, its end, and what is left for the pages
after it. -/
structure Cut (key : Row → K) (limit : ℕ) (rows : List Row) (bound : Option K) (items : List Row)
    (last : Row) : Prop where
  /-- The page descends. -/
  sorted : items.Pairwise fun r s => key s < key r
  last_mem : last ∈ items
  mem : ∀ row ∈ items, row ∈ rows ∧ Below key bound row
  /-- Its rows are those at its end or above. -/
  le : ∀ row ∈ items, key last ≤ key row
  all : ∀ row ∈ rows, Below key bound row → row ∈ items ∨ key row < key last
  /-- It is full, and not all. -/
  length : (rows.filter (Below key bound ·)).length =
    limit + (rows.filter (Below key (some (key last)) ·)).length
  more : limit < (rows.filter (Below key bound ·)).length

/-- **A page that is not the last.** -/
theorem page_cut {items : List Row} {last : Row} (order : OrderBy (Descending key))
    (hlimit : 0 < limit) (hkeys : (rows.map key).Nodup)
    (h : page key order limit rows bound = (items, some last)) :
    Cut key limit rows bound items last := by
  have hmore : limit < (rows.filter (Below key bound ·)).length := by
    refine not_le.mp fun hle => ?_
    rw [page_of_length_le order hle] at h
    cases h
  obtain ⟨last', hlast, hpage⟩ := page_of_length_gt order hlimit hmore
  obtain ⟨rfl, hlast'⟩ := Prod.mk.inj (h.symm.trans hpage)
  obtain rfl := Option.some.inj hlast'
  have hperm := order.perm (rows.filter (Below key bound ·))
  have hstrict : (order.arrange (rows.filter (Below key bound ·))).Pairwise
      fun r s => key s < key r :=
    pairwise_arrange order (hkeys.sublist (List.filter_sublist.map key))
  have hmem : ∀ {row}, row ∈ order.arrange (rows.filter (Below key bound ·)) ↔
      row ∈ rows ∧ Below key bound row := fun {row} => by
    rw [hperm.mem_iff, List.mem_filter, decide_eq_true_iff]
  generalize order.arrange (rows.filter (Below key bound ·)) = arranged
    at hlast hperm hstrict hmem ⊢
  have hlength := hperm.length_eq
  have hsplit := List.take_append_drop limit arranged
  have hcross := (List.pairwise_append.mp (hsplit.symm ▸ hstrict)).2.2
  have hfiltered := filter_below_last (hstrict.imp le_of_lt) hlast
  have hend : last ∈ arranged.take limit :=
    List.mem_of_getElem? ((List.getElem?_take_of_lt (by omega)).trans hlast)
  have hbelow : ∀ row ∈ arranged.drop limit, key row < key last := hcross last hend
  refine ⟨hstrict.sublist (List.take_sublist _ _), hend,
    fun row hrow => hmem.mp (List.mem_of_mem_take hrow), fun row hrow => not_lt.mp fun hlt => ?_,
    fun row hrow hb => ?_, ?_, hmore⟩
  · -- a row of the page below its end would be among what is left over
    have hleft : row ∈ arranged.filter (key · < key last) :=
      List.mem_filter.mpr ⟨List.mem_of_mem_take hrow, decide_eq_true hlt⟩
    rw [hfiltered] at hleft
    exact lt_irrefl _ (hcross row hrow row (List.mem_of_mem_filter hleft))
  · have hrow' : row ∈ arranged.take limit ++ arranged.drop limit :=
      hsplit.symm ▸ hmem.mpr ⟨hrow, hb⟩
    exact (List.mem_append.mp hrow').imp_right (hbelow row)
  · have hrest : arranged.filter (key · < key last) = arranged.drop limit :=
      hfiltered.trans (List.filter_eq_self.mpr fun row hrow => decide_eq_true (hbelow row hrow))
    have hover := (hperm.filter (key · < key last)).length_eq
    rw [hrest, List.length_drop, ← filter_below_of_mem
      (hperm.mem_iff.mp (List.mem_of_mem_take hend))] at hover
    omega

/-- The last page has every row below its bound. -/
theorem page_last_spec {items : List Row} (order : OrderBy (Descending key)) (hlimit : 0 < limit)
    (h : page key order limit rows bound = (items, none)) :
    (rows.filter (Below key bound ·)).length ≤ limit ∧
      items = order.arrange (rows.filter (Below key bound ·)) := by
  rcases Nat.lt_or_ge limit (rows.filter (Below key bound ·)).length with hgt | hle
  · obtain ⟨last, -, hpage⟩ := page_of_length_gt order hlimit hgt
    rw [hpage] at h
    cases h
  · rw [page_of_length_le order hle] at h
    exact ⟨hle, (congrArg Prod.fst h).symm⟩

/-! ## Listings -/

section Listing

variable (hlimit : 0 < limit) (hkeys : ∀ m, ((tables m).map key).Nodup)
include hlimit hkeys

/-- One page, and the listing after it. -/
theorem Lists.of_next (hgrow : ∀ m, tables m ⊆ tables (m + 1))
    (hnext : ∀ last, Below key bound last →
      Lists key limit orders tables (n + 1) (some (key last))) :
    Lists key limit orders tables n bound := by
  cases hpage : page key (orders n) limit (tables n) bound with
  | mk items next =>
      cases next with
      | none =>
          obtain ⟨-, rfl⟩ := page_last_spec (orders n) hlimit hpage
          have hmem : ∀ {row}, row ∈ (orders n).arrange ((tables n).filter (Below key bound ·)) ↔
              row ∈ tables n ∧ Below key bound row := fun {row} => by
            rw [((orders n).perm _).mem_iff, List.mem_filter, decide_eq_true_iff]
          refine ⟨1, [_], by rw [followTables, hpage], ?_, ?_, ?_⟩
          · rw [List.flatten_singleton]
            exact pairwise_arrange _ ((hkeys n).sublist (List.filter_sublist.map key))
          · intro row hrow
            rw [List.flatten_singleton, hmem] at hrow
            exact ⟨hrow.2, n, le_refl n, hrow.1⟩
          · intro row hrow hbelow
            rw [List.flatten_singleton, hmem]
            exact ⟨hrow, hbelow⟩
      | some last =>
          have hcut := page_cut (orders n) hlimit (hkeys n) hpage
          have hbound := (hcut.mem last hcut.last_mem).2
          obtain ⟨fuel, pages, hpages, hsorted, hrest, hcomplete⟩ := hnext last hbound
          have hfollow : followTables key limit orders tables (fuel + 1) n bound =
              some (items :: pages) := by
            rw [followTables, hpage]
            dsimp only
            rw [hpages]
            rfl
          refine ⟨fuel + 1, items :: pages, hfollow, ?_, ?_, ?_⟩
          · rw [List.flatten_cons, List.pairwise_append]
            refine ⟨hcut.sorted, hsorted, fun r hr s hs => ?_⟩
            exact ((hrest s hs).1 _ rfl).trans_le (hcut.le r hr)
          · intro row hrow
            rcases List.mem_append.mp hrow with hrow | hrow
            · exact ⟨(hcut.mem row hrow).2, n, le_refl n, (hcut.mem row hrow).1⟩
            · obtain ⟨hbelow, m, hm, hrow⟩ := hrest row hrow
              exact ⟨fun k hk => (hbelow _ rfl).trans (hbound k hk), m, by omega, hrow⟩
          · intro row hrow hbelow
            refine List.mem_append.mpr ((hcut.all row hrow hbelow).imp_right fun hlt => ?_)
            refine hcomplete row (hgrow n hrow) fun k hk => ?_
            rwa [← Option.some.inj hk]

/-- **Every listing of a growing table** ends, with every row that was there when it started and no
row twice. -/
theorem lists_all [WellFoundedLT K] (orders : ℕ → OrderBy (Descending key))
    (hgrow : ∀ m, tables m ⊆ tables (m + 1)) (n : ℕ) (bound : Option K) :
    Lists key limit orders tables n bound := by
  have hsome : ∀ k n, Lists key limit orders tables n (some k) := by
    intro k
    -- the bounds descend
    induction k using WellFoundedLT.induction with
    | ind k ih =>
        intro n
        exact Lists.of_next hlimit hkeys hgrow fun last hlast => ih _ (hlast k rfl) (n + 1)
  exact Lists.of_next hlimit hkeys hgrow fun last _ => hsome (key last) (n + 1)

/-- **The number of pages** of a table to which nothing is added. -/
theorem length_followTables {fuel : ℕ} {pages : List (List Row)}
    (hpages : followTables key limit orders tables fuel n bound = some pages)
    (hsame : ∀ m < pages.length, tables (n + m) = rows) :
    pages.length = max 1 (((rows.filter (Below key bound ·)).length + limit - 1) / limit) := by
  induction fuel generalizing n bound pages with
  | zero => cases hpages
  | succ fuel ih =>
      rw [followTables] at hpages
      split at hpages
      case h_1 items hpage =>
        obtain rfl := Option.some.inj hpages
        obtain ⟨hle, -⟩ := page_last_spec (orders n) hlimit hpage
        rw [show tables n = rows from hsame 0 Nat.one_pos] at hle
        have hdiv : ((rows.filter (Below key bound ·)).length + limit - 1) / limit ≤ 1 :=
          (Nat.div_le_iff_le_mul_add_pred hlimit).mpr (by omega)
        exact (max_eq_left hdiv).symm
      case h_2 items last hpage =>
        obtain ⟨rest, hrest, rfl⟩ := Option.map_eq_some_iff.mp hpages
        have hrows : tables n = rows := hsame 0 (Nat.succ_pos _)
        have hcut := page_cut (orders n) hlimit (hkeys n) hpage
        have hlength := hcut.length
        have hmore := hcut.more
        rw [hrows] at hlength hmore
        have hcount := ih hrest fun m hm => by
          rw [Nat.add_assoc, Nat.add_comm 1 m]
          exact hsame (m + 1) (Nat.succ_lt_succ hm)
        rw [hlength] at hmore
        rw [List.length_cons, hcount, hlength]
        generalize (rows.filter (Below key (some (key last)) ·)).length = left at hmore
        -- one page of `limit` rows more, and at least one page after it
        have hone : (limit + left + limit - 1) / limit = (left + limit - 1) / limit + 1 := by
          rw [show limit + left + limit - 1 = left + limit - 1 + limit by omega,
            Nat.add_div_right _ hlimit]
        have hpos : 1 ≤ (left + limit - 1) / limit := (Nat.one_le_div_iff hlimit).mpr (by omega)
        rw [hone, max_eq_right hpos, max_eq_right (by omega)]

end Listing

/-! ## Walks

The listing as a client meets it that does not read the table itself: it is given one page after the
other, each read at some moment between its request and its answer. -/

section Walks

variable {σ : Type*} {R : σ → σ → Prop} {rows : σ → List Row} {a b : σ} {pages : List (List Row)}

/-- The pages that a client was given until there was no further one, from the moment `a` on. -/
inductive Walk (key : Row → K) (limit : ℕ) (R : σ → σ → Prop) (rows : σ → List Row) :
    σ → Option K → List (List Row) → σ → Prop
  | last {a m b : σ} {bound : Option K} {items : List Row} (order : OrderBy (Descending key))
      (ham : R a m) (hpage : page key order limit (rows m) bound = (items, none)) (hmb : R m b) :
      Walk key limit R rows a bound [items] b
  | next {a m b c : σ} {bound : Option K} {items : List Row} {last : Row} {rest : List (List Row)}
      (order : OrderBy (Descending key)) (ham : R a m)
      (hpage : page key order limit (rows m) bound = (items, some last)) (hmb : R m b)
      (hrest : Walk key limit R rows b (some (key last)) rest c) :
      Walk key limit R rows a bound (items :: rest) c

/-- What a client has then: rows in descending order, all of them below its bound and there in the
end, with every one that was there at its start; and every page but the last is full. -/
structure Walked (key : Row → K) (limit : ℕ) (first final : List Row) (bound : Option K)
    (pages : List (List Row)) : Prop where
  sorted : pages.flatten.Pairwise fun r s => key s < key r
  mem : ∀ row ∈ pages.flatten, row ∈ final ∧ Below key bound row
  all : ∀ row ∈ first, Below key bound row → row ∈ pages.flatten
  full : ∀ items ∈ pages.dropLast, items.length = limit
  length_le : ∀ items ∈ pages, items.length ≤ limit

/-- A page that is not the last is full. -/
theorem length_of_next {order : OrderBy (Descending key)} {table items : List Row} {last : Row}
    (h : page key order limit table bound = (items, some last)) : items.length = limit := by
  unfold page at h
  simp only at h
  split at h
  case isTrue hmore =>
    obtain ⟨rfl, -⟩ := Prod.mk.inj h
    exact List.length_take_of_le hmore.le
  case isFalse => cases (Prod.mk.inj h).2

/-- There is a last page. -/
theorem Walk.ne_nil (h : Walk key limit R rows a bound pages b) : pages ≠ [] := by
  cases h with
  | last => exact List.cons_ne_nil _ _
  | next => exact List.cons_ne_nil _ _

variable [IsTrans σ R]

/-- A walk takes its time. -/
theorem Walk.reaches (h : Walk key limit R rows a bound pages b) : R a b := by
  induction h with
  | last order ham hpage hmb => exact IsTrans.trans _ _ _ ham hmb
  | next order ham hpage hmb hrest ih =>
      exact IsTrans.trans _ _ _ (IsTrans.trans _ _ _ ham hmb) ih

/-- **A walk through a growing table** misses nothing that was there when it started. -/
theorem Walk.walked [Std.Refl R] (h : Walk key limit R rows a bound pages b) (hlimit : 0 < limit)
    (hkeys : ∀ m, R a m → R m b → ((rows m).map key).Nodup)
    (hgrow : ∀ m n, R a m → R m n → rows m ⊆ rows n) :
    Walked key limit (rows a) (rows b) bound pages := by
  induction h with
  | @last a m b bound items order ham hpage hmb =>
      obtain ⟨hle, rfl⟩ := page_last_spec order hlimit hpage
      have hmem : ∀ {row}, row ∈ order.arrange ((rows m).filter (Below key bound ·)) ↔
          row ∈ rows m ∧ Below key bound row := fun {row} => by
        rw [(order.perm _).mem_iff, List.mem_filter, decide_eq_true_iff]
      refine ⟨?_, fun row hrow => ?_, fun row hrow hbelow => ?_, nofun, fun items hitems => ?_⟩
      · rw [List.flatten_singleton]
        exact pairwise_arrange _ ((hkeys m ham hmb).sublist (List.filter_sublist.map key))
      · rw [List.flatten_singleton, hmem] at hrow
        exact ⟨hgrow m b ham hmb hrow.1, hrow.2⟩
      · rw [List.flatten_singleton, hmem]
        exact ⟨hgrow a m (Std.Refl.refl a) ham hrow, hbelow⟩
      · rw [List.mem_singleton.mp hitems, (order.perm _).length_eq]
        exact hle
  | @next a m b c bound items last rest order ham hpage hmb hrest ih =>
      have hab : R a b := IsTrans.trans _ _ _ ham hmb
      have hbc : R b c := hrest.reaches
      have hmc : R m c := IsTrans.trans _ _ _ hmb hbc
      have hcut := page_cut order hlimit (hkeys m ham hmc) hpage
      have hbound := (hcut.mem last hcut.last_mem).2
      obtain ⟨hsorted, hmem, hall, hfull, hlength⟩ :=
        ih (fun n hbn => hkeys n (IsTrans.trans _ _ _ hab hbn))
          (fun n k hbn => hgrow n k (IsTrans.trans _ _ _ hab hbn))
      refine ⟨?_, fun row hrow => ?_, fun row hrow hbelow => ?_, ?_, ?_⟩
      · rw [List.flatten_cons, List.pairwise_append]
        refine ⟨hcut.sorted, hsorted, fun r hr s hs => ?_⟩
        exact ((hmem s hs).2 _ rfl).trans_le (hcut.le r hr)
      · rcases List.mem_append.mp hrow with hrow | hrow
        · obtain ⟨hrow, hbelow⟩ := hcut.mem row hrow
          exact ⟨hgrow m c ham hmc hrow, hbelow⟩
        · obtain ⟨hrow, hbelow⟩ := hmem row hrow
          exact ⟨hrow, fun k hk => (hbelow _ rfl).trans (hbound k hk)⟩
      · have hrow' := hgrow a m (Std.Refl.refl a) ham hrow
        refine List.mem_append.mpr ((hcut.all row hrow' hbelow).imp_right fun hlt => ?_)
        refine hall row (hgrow a b (Std.Refl.refl a) hab hrow) fun k hk => ?_
        rwa [← Option.some.inj hk]
      · rw [List.dropLast_cons_of_ne_nil hrest.ne_nil]
        exact List.forall_mem_cons.mpr ⟨length_of_next hpage, hfull⟩
      · exact List.forall_mem_cons.mpr ⟨(length_of_next hpage).le, hlength⟩

end Walks

end Paging
