import Mathlib.Data.List.Basic
import Mathlib.Data.List.Infix
import Mathlib.Data.List.Nodup

/-! # Hash chains

A chain is a list of rows, each of which names the digest of its predecessor and stores its own.
A verifier walks the list: every row must name the digest stored just before it (the genesis digest
at the start) and must store the digest it recomputes to.

* `Linked g rows` is what the walk checks; `linked_append` splits it at any point, through the
  digest `tip g rows` the walk ends with.
* **Edits** (`Linked.map_iff`): changed rows show exactly when they are hashed differently.
* **Commitment** (`Linked.forall₂_of_tip_eq`): when recomputed digests do not collide and none is
  the genesis digest, two linked chains with one tip agree row by row, whatever their lengths.
* **Prefixes** (`linked_iff_prefix`): among all sequences of rows of a linked chain with distinct
  digests, exactly the prefixes are linked. Deletion and reordering show, truncation does not. -/

namespace HashChain

variable {Row Digest : Type*}

/-- How rows of a table are chained. -/
structure Scheme (Row Digest : Type*) where
  /-- The predecessor digest a row names. -/
  prev : Row → Digest
  /-- The digest a row stores. -/
  stored : Row → Digest
  /-- The digest recomputed from the row. -/
  rehash : Row → Digest

variable (S : Scheme Row Digest)

/-- The walk of a verifier from digest `g`: every row names the digest before it and stores the
digest it recomputes to. -/
def Linked : Digest → List Row → Prop
  | _, [] => True
  | g, r :: rows => S.prev r = g ∧ S.rehash r = S.stored r ∧ Linked (S.stored r) rows

/-- The digest a walk from `g` ends with. -/
def tip : Digest → List Row → Digest
  | g, [] => g
  | _, r :: rows => tip (S.stored r) rows

variable {S}

@[simp] theorem linked_nil (g : Digest) : Linked S g [] := trivial

@[simp] theorem linked_cons (g : Digest) (r : Row) (rows : List Row) :
    Linked S g (r :: rows) ↔
      S.prev r = g ∧ S.rehash r = S.stored r ∧ Linked S (S.stored r) rows := Iff.rfl

@[simp] theorem tip_nil (g : Digest) : tip S g [] = g := rfl

@[simp] theorem tip_append_singleton (g : Digest) (rows : List Row) (r : Row) :
    tip S g (rows ++ [r]) = S.stored r := by
  induction rows generalizing g with
  | nil => rfl
  | cons s rows ih => exact ih (S.stored s)

/-- **A walk splits at any point**: the second part starts from the tip of the first. -/
theorem linked_append (g : Digest) (xs ys : List Row) :
    Linked S g (xs ++ ys) ↔ Linked S g xs ∧ Linked S (tip S g xs) ys := by
  induction xs generalizing g with
  | nil => simp
  | cons r xs ih => simp only [List.cons_append, linked_cons, ih, tip, and_assoc]

/-- Every row of a linked chain stores its own digest. -/
theorem Linked.rehash_eq {g : Digest} {rows : List Row} (h : Linked S g rows) {r : Row}
    (hr : r ∈ rows) : S.rehash r = S.stored r := by
  obtain ⟨xs, ys, rfl⟩ := List.append_of_mem hr
  exact ((linked_append g xs (r :: ys)).mp h).2.2.1

/-- **Appending a row** that names the tip and stores its own digest keeps a chain linked. -/
theorem Linked.append_singleton {g : Digest} {rows : List Row} (h : Linked S g rows) {r : Row}
    (hprev : S.prev r = tip S g rows) (hstored : S.rehash r = S.stored r) :
    Linked S g (rows ++ [r]) :=
  (linked_append g rows [r]).mpr ⟨h, hprev, hstored, trivial⟩

/-! ### Building a chain -/

/-- Link rows one after the other from digest `g`, numbering them from `n`. -/
def build (S : Scheme Row Digest) (link : ℕ → Digest → Row → Row) :
    ℕ → Digest → List Row → List Row
  | _, _, [] => []
  | n, g, r :: rows => link n g r :: build S link (n + 1) (S.stored (link n g r)) rows

@[simp] theorem length_build (link : ℕ → Digest → Row → Row) (n : ℕ) (g : Digest)
    (rows : List Row) : (build S link n g rows).length = rows.length := by
  induction rows generalizing n g with
  | nil => rfl
  | cons r rows ih => rw [build, List.length_cons, ih, List.length_cons]

/-- **What is linked row by row is a chain.** -/
theorem linked_build {link : ℕ → Digest → Row → Row} (hprev : ∀ n g r, S.prev (link n g r) = g)
    (hstored : ∀ n g r, S.rehash (link n g r) = S.stored (link n g r)) (n : ℕ) (g : Digest)
    (rows : List Row) : Linked S g (build S link n g rows) := by
  induction rows generalizing n g with
  | nil => exact linked_nil g
  | cons r rows ih =>
      rw [build, linked_cons]
      exact ⟨hprev n g r, hstored n g r, ih (n + 1) _⟩

/-- Its rows have the numbers from `n` on. -/
theorem map_build {Number : Type*} {link : ℕ → Digest → Row → Row} {number : Row → Number}
    {f : ℕ → Number} (hnumber : ∀ n g r, number (link n g r) = f n) (n : ℕ) (g : Digest)
    (rows : List Row) :
    (build S link n g rows).map number = (List.range rows.length).map fun i => f (n + i) := by
  induction rows generalizing n g with
  | nil => rfl
  | cons r rows ih =>
      rw [build, List.map_cons, hnumber, ih, List.length_cons, List.range_succ_eq_map,
        List.map_cons, List.map_map]
      congr 1
      refine List.map_congr_left fun i _ => congrArg f ?_
      exact Nat.succ_add_eq_add_succ n i

/-- What linking leaves alone stays. -/
theorem map_build_of_eq {Column : Type*} {link : ℕ → Digest → Row → Row} {column : Row → Column}
    (hcolumn : ∀ n g r, column (link n g r) = column r) (n : ℕ) (g : Digest) (rows : List Row) :
    (build S link n g rows).map column = rows.map column := by
  induction rows generalizing n g with
  | nil => rfl
  | cons r rows ih => rw [build, List.map_cons, hcolumn, ih, List.map_cons]

/-- **A chain is rebuilt** from its rows without their links, if linking gives back a row with the
number that it is given. -/
theorem Linked.build_eq {Number : Type*} {link : ℕ → Digest → Row → Row} {strip : Row → Row}
    {number : Row → Number} {f : ℕ → Number}
    (hlink : ∀ n r, S.rehash r = S.stored r → number r = f n → link n (S.prev r) (strip r) = r)
    {n : ℕ} {g : Digest} {rows : List Row} (h : Linked S g rows)
    (hnumber : rows.map number = (List.range rows.length).map fun i => f (n + i)) :
    build S link n g (rows.map strip) = rows := by
  induction rows generalizing n g with
  | nil => rfl
  | cons r rows ih =>
      obtain ⟨rfl, hstored, hrest⟩ := h
      rw [List.length_cons, List.range_succ_eq_map, List.map_cons, List.map_cons, List.map_map,
        List.cons.injEq] at hnumber
      have hr : link n (S.prev r) (strip r) = r := hlink n r hstored hnumber.1
      rw [List.map_cons, build, hr]
      refine congrArg (r :: ·) (ih hrest (hnumber.2.trans ?_))
      refine List.map_congr_left fun i _ => congrArg f ?_
      exact (Nat.succ_add_eq_add_succ n i).symm

/-- The walk sees a row only through its three digests. -/
theorem linked_congr {Row' : Type*} {S' : Scheme Row' Digest} {g : Digest} {xs : List Row}
    {ys : List Row'}
    (h : List.Forall₂ (fun x y => S.prev x = S'.prev y ∧ S.stored x = S'.stored y ∧
      S.rehash x = S'.rehash y) xs ys) : Linked S g xs ↔ Linked S' g ys := by
  induction h generalizing g with
  | nil => simp
  | cons hxy _ ih =>
      obtain ⟨hp, hs, hr⟩ := hxy
      rw [linked_cons, linked_cons, hp, hs, hr, ih]

/-- **Edited rows**: a chain whose rows are changed, but for the digests they name and store, stays
linked exactly when every row is still hashed as before. -/
theorem Linked.map_iff {g : Digest} {rows : List Row} (h : Linked S g rows) {f : Row → Row}
    (hprev : ∀ r, S.prev (f r) = S.prev r) (hstored : ∀ r, S.stored (f r) = S.stored r) :
    Linked S g (rows.map f) ↔ ∀ r ∈ rows, S.rehash (f r) = S.rehash r := by
  induction rows generalizing g with
  | nil => simp
  | cons r rows ih =>
      obtain ⟨hr, hrehash, hrest⟩ := h
      rw [List.map_cons, linked_cons, hprev, hstored, ih hrest, List.forall_mem_cons, hrehash]
      simp [hr]

/-! ## Commitment of the tip to the history -/

/-- **The tip commits to the whole chain.** Walking back from equal tips, recomputed digests agree
at every row, so by collision freeness the rows agree in what is hashed, and with them the
predecessor digests; the genesis digest separates the start of one chain from the middle of the
other. -/
theorem Linked.forall₂_of_tip_eq {g : Digest} {Same : Row → Row → Prop} {xs ys : List Row}
    (hx : Linked S g xs) (hy : Linked S g ys)
    (hinj : ∀ x ∈ xs, ∀ y ∈ ys, S.rehash x = S.rehash y → Same x y)
    (hprev : ∀ x ∈ xs, ∀ y ∈ ys, Same x y → S.prev x = S.prev y)
    (hgen : ∀ r ∈ xs ++ ys, S.rehash r ≠ g) (htip : tip S g xs = tip S g ys) :
    List.Forall₂ (fun x y => Same x y ∧ S.stored x = S.stored y) xs ys := by
  induction xs using List.reverseRecOn generalizing ys with
  | nil =>
      induction ys using List.reverseRecOn with
      | nil => exact List.Forall₂.nil
      | append_singleton ys y _ =>
          -- a nonempty chain would end in the genesis digest
          obtain ⟨-, -, hy', -⟩ := (linked_append g ys [y]).mp hy
          rw [tip_nil, tip_append_singleton] at htip
          exact absurd (hy'.trans htip.symm) (hgen y (by simp))
  | append_singleton xs x ih =>
      obtain ⟨hx₀, hxp, hxs, -⟩ := (linked_append g xs [x]).mp hx
      induction ys using List.reverseRecOn with
      | nil =>
          rw [tip_append_singleton, tip_nil] at htip
          exact absurd (hxs.trans htip) (hgen x (by simp))
      | append_singleton ys y _ =>
          obtain ⟨hy₀, hyp, hys, -⟩ := (linked_append g ys [y]).mp hy
          rw [tip_append_singleton, tip_append_singleton] at htip
          -- the last rows store the same digest, so they are hashed alike
          have hsame : Same x y :=
            hinj x (by simp) y (by simp) (by rw [hxs, hys, htip])
          -- and name the same predecessor, which is the tip of what comes before them
          have hback : tip S g xs = tip S g ys := by
            rw [← hxp, ← hyp, hprev x (by simp) y (by simp) hsame]
          have hinit := ih hx₀ hy₀
            (fun a ha b hb => hinj a (by simp [ha]) b (by simp [hb]))
            (fun a ha b hb => hprev a (by simp [ha]) b (by simp [hb]))
            (fun r hr => hgen r (by
              rcases List.mem_append.mp hr with hr | hr <;> simp [hr])) hback
          exact List.rel_append hinit (List.Forall₂.cons ⟨hsame, htip⟩ List.Forall₂.nil)

/-! ## Prefixes of a chain -/

/-- The predecessor digests of a linked chain are the digests before each row. -/
theorem Linked.map_prev {g : Digest} {rows : List Row} (h : Linked S g rows) :
    g :: rows.map S.stored = rows.map S.prev ++ [tip S g rows] := by
  induction rows generalizing g with
  | nil => rfl
  | cons r rows ih =>
      rw [List.map_cons, List.map_cons, List.cons_append, h.1, ih h.2.2]
      rfl

/-- With distinct digests no row of a chain names the tip, and rows are known by the digest they
name. -/
theorem Linked.prev_inj {g : Digest} {rows : List Row} (h : Linked S g rows)
    (hnodup : (g :: rows.map S.stored).Nodup) :
    (∀ r ∈ rows, S.prev r ≠ tip S g rows) ∧
      ∀ r ∈ rows, ∀ s ∈ rows, S.prev r = S.prev s → r = s := by
  rw [h.map_prev, List.nodup_append] at hnodup
  obtain ⟨hprevs, -, hne⟩ := hnodup
  refine ⟨fun r hr => hne _ (List.mem_map_of_mem hr) _ (by simp), fun r hr s hs hrs => ?_⟩
  exact List.inj_on_of_nodup_map hprevs hr hs hrs

/-- Prefixes of a linked chain are linked. -/
theorem Linked.of_prefix {g : Digest} {rows rows' : List Row} (h : Linked S g rows)
    (hp : rows' <+: rows) : Linked S g rows' := by
  obtain ⟨rest, rfl⟩ := hp
  exact ((linked_append g rows' rest).mp h).1

/-- **The linked sequences of rows of a chain are its prefixes.** A walk that has followed the chain
so far stands at a digest that only the next row names. -/
theorem linked_iff_prefix {g : Digest} {rows rows' : List Row} (h : Linked S g rows)
    (hnodup : (g :: rows.map S.stored).Nodup) (hsub : ∀ r ∈ rows', r ∈ rows) :
    Linked S g rows' ↔ rows' <+: rows := by
  refine ⟨fun h' => ?_, h.of_prefix⟩
  obtain ⟨htip, hinj⟩ := h.prev_inj hnodup
  -- `done` is the part of the chain the walk has followed, `rest` what remains of it
  suffices key : ∀ (done rest : List Row), rows = done ++ rest →
      Linked S (tip S g done) rows' → rows' <+: rest from key [] rows rfl h'
  clear h'
  induction rows' with
  | nil => exact fun _ _ _ _ => List.nil_prefix
  | cons r rows' ih =>
      rintro done rest hrows ⟨hprev, -, hnext⟩
      have hr : r ∈ rows := hsub r (by simp)
      cases rest with
      | nil =>
          rw [List.append_nil] at hrows
          exact absurd (hrows ▸ hprev) (htip r hr)
      | cons s rest =>
          have hlink : Linked S (tip S g done) (s :: rest) :=
            ((linked_append g done _).mp (hrows ▸ h)).2
          obtain rfl : r = s :=
            hinj r hr s (by rw [hrows]; simp) (by rw [hprev, hlink.1])
          refine (List.prefix_cons_inj r).mpr ?_
          refine ih (fun x hx => hsub x (by simp [hx])) (done ++ [r]) rest ?_ ?_
          · rw [hrows, List.append_assoc, List.singleton_append]
          · rw [tip_append_singleton]; exact hnext

end HashChain
