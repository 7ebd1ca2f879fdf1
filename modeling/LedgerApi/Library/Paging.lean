import LedgerApi.Library.Ordering

/-! # Pages by a key

A listing cut into pages, newest first: a page is the first `limit` of the rows below a bound, one
row more is read to see whether there is another page, and the next page starts below the key of the
last row (`page`). A client follows the pages to the end (`follow`).

The bound is strict, so rows that tie with the last row of a page are passed over. The listing is
complete **exactly when** no end of a page falls between two rows of one key, and it always ends
(`follow_perm_iff`). The database may break ties differently for every page. -/

namespace Paging

open Ordering

variable {Row K : Type*}

/-! ## Cuts -/

/-- No multiple of the limit separates two equal keys of a list. -/
def Separated (limit : ℕ) (keys : List K) : Prop :=
  ∀ m, 0 < m → limit ∣ m → ∀ k, keys[m - 1]? = some k → keys[m]? ≠ some k

/-- The first cut, and the cuts of what comes after it. -/
theorem separated_iff_drop {limit : ℕ} (hlimit : 0 < limit) {keys : List K} :
    Separated limit keys ↔ (∀ k, keys[limit - 1]? = some k → keys[limit]? ≠ some k) ∧
      Separated limit (keys.drop limit) := by
  constructor
  · intro h
    refine ⟨h limit hlimit (dvd_refl limit), fun m hm hdvd k hk => ?_⟩
    rw [List.getElem?_drop] at hk ⊢
    refine h (limit + m) (by omega) (Nat.dvd_add (dvd_refl limit) hdvd) k ?_
    rwa [Nat.add_sub_assoc hm]
  · rintro ⟨hfirst, hrest⟩ m hm hdvd k hk
    rcases Nat.eq_or_lt_of_le (Nat.le_of_dvd hm hdvd) with rfl | hlt
    · exact hfirst k hk
    · -- a later cut is a cut of the rest
      obtain ⟨n, rfl⟩ := Nat.exists_eq_add_of_lt hlt
      have hdvd' : limit ∣ n + 1 := (Nat.dvd_add_right (dvd_refl limit)).mp (by rwa [← add_assoc])
      have hcut := hrest (n + 1) (Nat.succ_pos n) hdvd' k
      rw [List.getElem?_drop, List.getElem?_drop] at hcut
      exact hcut hk

/-! ## Pages -/

variable [LinearOrder K] (key : Row → K)

/-- Newest first. -/
abbrev Descending : Row → Row → Prop := fun a b => key b ≤ key a

/-- A row is below the bound, if there is one. -/
def Below (bound : Option K) (row : Row) : Prop := ∀ k ∈ bound, key row < k

instance (bound : Option K) (row : Row) : Decidable (Below key bound row) :=
  inferInstanceAs (Decidable (∀ k ∈ bound, key row < k))

variable (order : OrderBy (Descending key)) (limit : ℕ)

/-- A page of the rows below a bound, and its last row if there are more. -/
def page (rows : List Row) (bound : Option K) : List Row × Option Row :=
  let items := (order.arrange (rows.filter (Below key bound ·))).take (limit + 1)
  if limit < items.length then (items.take limit, (items.take limit).getLast?) else (items, none)

/-- Follow the pages to the end, each read in an order of its own. -/
def follow (orders : ℕ → OrderBy (Descending key)) (rows : List Row) :
    ℕ → ℕ → Option K → Option (List Row)
  | 0, _, _ => none
  | fuel + 1, n, bound =>
      match page key (orders n) limit rows bound with
      | (items, none) => some items
      | (items, some last) =>
          (follow orders rows fuel (n + 1) (some (key last))).map (items ++ ·)

/-- No page of the rows ends between two rows of one key. -/
def CleanCuts (rows : List Row) : Prop := Separated limit ((rows.map key).insertionSort (· ≥ ·))

variable {key limit} {rows : List Row} {bound : Option K}

/-- The keys of any arrangement are the keys in order. -/
theorem cleanCuts_iff {arranged : List Row} (hperm : arranged.Perm rows)
    (hsorted : arranged.Pairwise (Descending key)) :
    CleanCuts key limit rows ↔ Separated limit (arranged.map key) := by
  have hkeys : arranged.map key = (rows.map key).insertionSort (· ≥ ·) := by
    have hdescending : (arranged.map key).Pairwise (· ≥ ·) := List.pairwise_map.mpr hsorted
    refine List.Perm.eq_of_pairwise ?_ hdescending (List.pairwise_insertionSort (· ≥ ·) _) ?_
    · exact fun k l _ _ hkl hlk => le_antisymm hlk hkl
    · exact (hperm.map key).trans (List.perm_insertionSort _ _).symm
  rw [CleanCuts, hkeys]

/-! ## One page -/

section Page

variable (order : OrderBy (Descending key))

/-- The last page holds all rows that are left. -/
theorem page_of_length_le (h : (rows.filter (Below key bound ·)).length ≤ limit) :
    page key order limit rows bound = (order.arrange (rows.filter (Below key bound ·)), none) := by
  have hlen := (order.perm (rows.filter (Below key bound ·))).length_eq
  rw [page, List.take_of_length_le (by omega), if_neg (by omega)]

/-- Any other page ends with a row that is told. -/
theorem page_of_length_gt (hlimit : 0 < limit)
    (h : limit < (rows.filter (Below key bound ·)).length) :
    ∃ last, (order.arrange (rows.filter (Below key bound ·)))[limit - 1]? = some last ∧
      page key order limit rows bound =
        ((order.arrange (rows.filter (Below key bound ·))).take limit, some last) := by
  have hlen := (order.perm (rows.filter (Below key bound ·))).length_eq
  generalize harranged : order.arrange (rows.filter (Below key bound ·)) = arranged at hlen
  have hlast : arranged[limit - 1]? = some arranged[limit - 1] :=
    List.getElem?_eq_getElem (by omega)
  refine ⟨_, hlast, ?_⟩
  have htake : (arranged.take (limit + 1)).length = limit + 1 := List.length_take_of_le (by omega)
  have hitems : (arranged.take (limit + 1)).take limit = arranged.take limit := by
    rw [List.take_take, Nat.min_eq_left (Nat.le_succ limit)]
  rw [page, harranged, if_pos (by omega), hitems, List.getLast?_eq_getElem?,
    List.length_take_of_le (by omega), List.getElem?_take_of_lt (by omega), hlast]

end Page

/-- The rows below the last one of a page are among those that the page has left over: all of them,
unless the next one ties with it. -/
theorem filter_below_last {arranged : List Row} (hsorted : arranged.Pairwise (Descending key))
    {last : Row} (hlast : arranged[limit - 1]? = some last) :
    arranged.filter (key · < key last) = (arranged.drop limit).filter (key · < key last) := by
  have hfirst : (arranged.take limit).filter (key · < key last) = [] := by
    refine List.filter_eq_nil_iff.mpr fun row hrow hlt => ?_
    obtain ⟨i, hi, hget⟩ := List.mem_iff_getElem.mp hrow
    obtain ⟨hbound, hlast⟩ := List.getElem?_eq_some_iff.mp hlast
    rw [List.getElem_take] at hget
    have hi' : i < limit := (List.length_take_le limit arranged).trans_lt' hi
    -- no row of the page comes after its last one
    have hle : key last ≤ key row := by
      rcases Nat.lt_or_eq_of_le (Nat.le_sub_one_of_lt hi') with hlt' | heq
      · rw [← hlast, ← hget]
        exact List.pairwise_iff_getElem.mp hsorted i (limit - 1) _ hbound hlt'
      · rw [← hget, ← hlast]
        exact le_of_eq (by simp only [heq])
    exact absurd (of_decide_eq_true hlt) (not_lt.mpr hle)
  have hsplit := List.take_append_drop limit arranged
  conv_lhs => rw [← hsplit, List.filter_append, hfirst, List.nil_append]

/-- Where the cut is clean nothing is left behind, and where it is not something is. -/
theorem filter_drop_cases {arranged : List Row} (hsorted : arranged.Pairwise (Descending key))
    {last : Row} (hlast : arranged[limit - 1]? = some last) (hlimit : 0 < limit)
    (hlen : limit < arranged.length) :
    ((arranged.drop limit).filter (key · < key last) = arranged.drop limit ∧
      ∀ k, (arranged.map key)[limit - 1]? = some k → (arranged.map key)[limit]? ≠ some k) ∨
    (((arranged.drop limit).filter (key · < key last)).length < (arranged.drop limit).length ∧
      ¬ ∀ k, (arranged.map key)[limit - 1]? = some k → (arranged.map key)[limit]? ≠ some k) := by
  have hdrop : arranged.drop limit = arranged[limit] :: arranged.drop (limit + 1) :=
    List.drop_eq_getElem_cons hlen
  have hpair := List.pairwise_cons.mp (hdrop ▸ hsorted.drop)
  have hle : key arranged[limit] ≤ key last := by
    obtain ⟨hbound, rfl⟩ := List.getElem?_eq_some_iff.mp hlast
    exact List.pairwise_iff_getElem.mp hsorted (limit - 1) limit hbound hlen (by omega)
  rw [List.getElem?_map, List.getElem?_map, hlast, List.getElem?_eq_getElem hlen]
  by_cases htie : key arranged[limit] = key last
  · -- the next row ties with the last one
    right
    refine ⟨?_, fun h => h (key last) rfl (congrArg some htie)⟩
    rw [hdrop]
    refine List.length_filter_lt_length_iff_exists.mpr ⟨_, List.mem_cons_self, ?_⟩
    simp [htie]
  · left
    constructor
    · refine List.filter_eq_self.mpr fun row hrow => decide_eq_true ?_
      rw [hdrop] at hrow
      rcases List.mem_cons.mp hrow with rfl | hrow
      · exact lt_of_le_of_ne hle htie
      · exact (hpair.1 row hrow).trans_lt (lt_of_le_of_ne hle htie)
    · rintro k hk hnext
      exact htie (Option.some.inj (hnext.trans hk.symm))

/-- All rows on one page. -/
theorem cleanCuts_of_length_le (h : rows.length ≤ limit) : CleanCuts key limit rows := by
  intro m hm hdvd k _ hk
  have hlen := (List.getElem?_eq_some_iff.mp hk).1
  rw [List.length_insertionSort, List.length_map] at hlen
  exact absurd (Nat.le_of_dvd hm hdvd) (by omega)

/-- Rows of which no two tie. -/
theorem cleanCuts_of_nodup (h : (rows.map key).Nodup) : CleanCuts key limit rows := by
  intro m hm _ k hprev hnext
  have hsorted := (List.perm_insertionSort (· ≥ ·) (rows.map key)).nodup_iff.mpr h
  obtain ⟨hlt, rfl⟩ := List.getElem?_eq_some_iff.mp hnext
  obtain ⟨hlt', heq⟩ := List.getElem?_eq_some_iff.mp hprev
  have hindex := (hsorted.getElem_inj_iff).mp heq
  omega

/-- What the next page reads is below the last row of this one. -/
theorem filter_below_of_mem {last : Row} (hlast : last ∈ rows.filter (Below key bound ·)) :
    rows.filter (Below key (some (key last)) ·) =
      (rows.filter (Below key bound ·)).filter (key · < key last) := by
  have hbelow : Below key bound last := of_decide_eq_true (List.mem_filter.mp hlast).2
  rw [List.filter_filter]
  refine List.filter_congr fun row _ => ?_
  rw [← Bool.decide_and, decide_eq_decide]
  constructor
  · intro h
    have hlt := h (key last) rfl
    exact ⟨hlt, fun k hk => hlt.trans (hbelow k hk)⟩
  · rintro ⟨hlt, -⟩ k hk
    rwa [← Option.some.inj hk]

section Cut

variable {left arranged items : List Row} {last : Row} (hperm : arranged.Perm left)
  (hsorted : arranged.Pairwise (Descending key)) (hlast : arranged[limit - 1]? = some last)
include hperm hsorted hlast

/-- It is among what this page has left over. -/
theorem filter_lt_perm :
    (left.filter (key · < key last)).Perm ((arranged.drop limit).filter (key · < key last)) := by
  rw [← filter_below_last hsorted hlast]
  exact hperm.symm.filter _

theorem length_filter_lt : (left.filter (key · < key last)).length ≤ left.length - limit := by
  rw [(filter_lt_perm hperm hsorted hlast).length_eq, ← hperm.length_eq, ← List.length_drop]
  exact List.length_filter_le _ _

/-- **One page and the listing after it** have every row exactly when the cut between them is clean
and the listing has every row that it reads. -/
theorem take_append_perm_iff (hlimit : 0 < limit) (hlen : limit < left.length)
    (hcount : items.length ≤ (left.filter (key · < key last)).length)
    (hiff : items.Perm (left.filter (key · < key last)) ↔
      CleanCuts key limit (left.filter (key · < key last))) :
    (arranged.take limit ++ items).Perm left ↔ CleanCuts key limit left := by
  have hover := filter_lt_perm hperm hsorted hlast
  have hlength := hperm.length_eq
  rw [cleanCuts_iff hperm hsorted, separated_iff_drop hlimit]
  rcases filter_drop_cases hsorted hlast hlimit (by omega) with ⟨hall, hcut⟩ | ⟨hsome, hcut⟩
  · rw [hall] at hover
    rw [cleanCuts_iff hover.symm hsorted.drop, List.map_drop] at hiff
    rw [and_iff_right hcut, ← hiff]
    have hsplit : (arranged.take limit ++ arranged.drop limit).Perm left := by
      rw [List.take_append_drop]
      exact hperm
    constructor
    · intro h
      exact ((List.perm_append_left_iff _).mp (h.trans hsplit.symm)).trans hover.symm
    · intro h
      exact ((h.trans hover).append_left _).trans hsplit
  · -- a row that is left behind is missing in the end
    refine iff_of_false (fun h => ?_) fun h => hcut h.1
    have htotal := h.length_eq
    rw [List.length_append, List.length_take_of_le (by omega)] at htotal
    rw [hover.length_eq] at hcount
    rw [List.length_drop] at hsome
    omega

end Cut

/-! ## The whole listing -/

section Follow

variable (orders : ℕ → OrderBy (Descending key))

/-- **A listing ends**, has no more rows than there are, and has them all exactly when no cut
separates two rows of one key. -/
theorem follow_spec (hlimit : 0 < limit) {fuel : ℕ} (bound : Option K) (n : ℕ)
    (hfuel : (rows.filter (Below key bound ·)).length < fuel) :
    ∃ items, follow key limit orders rows fuel n bound = some items ∧
      items.length ≤ (rows.filter (Below key bound ·)).length ∧
      (items.Perm (rows.filter (Below key bound ·)) ↔
        CleanCuts key limit (rows.filter (Below key bound ·))) := by
  induction fuel generalizing n bound with
  | zero => exact absurd hfuel (Nat.not_lt_zero _)
  | succ fuel ih =>
      generalize hleft : rows.filter (Below key bound ·) = left at hfuel
      have hperm := (orders n).perm left
      have hsorted := (orders n).sorted left
      rcases Nat.lt_or_ge limit left.length with hgt | hle
      · obtain ⟨last, hlast, hpage⟩ := page_of_length_gt (orders n) hlimit (hleft ▸ hgt)
        rw [hleft] at hlast hpage
        generalize (orders n).arrange left = arranged at hperm hsorted hlast hpage
        have hmem : last ∈ rows.filter (Below key bound ·) :=
          hleft ▸ hperm.mem_iff.mp (List.mem_of_getElem? hlast)
        have hrest := filter_below_of_mem hmem
        rw [hleft] at hrest
        have hshort := length_filter_lt hperm hsorted hlast
        obtain ⟨items, hitems, hcount, hiff⟩ := ih (some (key last)) (n + 1)
          (by rw [hrest]; omega)
        rw [hrest] at hcount hiff
        have hlength := hperm.length_eq
        refine ⟨arranged.take limit ++ items, ?_, ?_, ?_⟩
        · rw [follow, hpage]
          dsimp only
          rw [hitems]
          rfl
        · rw [List.length_append, List.length_take_of_le (by omega)]
          omega
        · exact take_append_perm_iff hperm hsorted hlast hlimit hgt hcount hiff
      · -- the last page
        have hpage := page_of_length_le (orders n) (hleft ▸ hle)
        rw [hleft] at hpage
        refine ⟨(orders n).arrange left, ?_, hperm.length_eq.le, ?_⟩
        · rw [follow, hpage]
        · exact iff_of_true hperm (cleanCuts_of_length_le hle)

/-- **When a listing is complete**: it ends with every row once exactly when the end of no page
falls between two rows of one key. -/
theorem follow_perm_iff (hlimit : 0 < limit) (rows : List Row) :
    ∃ items, follow key limit orders rows (rows.length + 1) 0 none = some items ∧
      (items.Perm rows ↔ CleanCuts key limit rows) := by
  have hall : rows.filter (Below key none ·) = rows :=
    List.filter_eq_self.mpr fun row _ => decide_eq_true fun k hk => by cases hk
  obtain ⟨items, hitems, -, hiff⟩ := follow_spec orders hlimit none 0
    (by rw [hall]; exact Nat.lt_succ_self rows.length)
  rw [hall] at hiff
  exact ⟨items, hitems, hiff⟩

end Follow

end Paging
