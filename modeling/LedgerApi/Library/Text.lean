import Mathlib.Algebra.Order.Ring.Nat
import Mathlib.Data.List.Basic
import Mathlib.Tactic.IntervalCases
import Mathlib.Tactic.Ring

/-! # Delimited and fixed-width text

Strings assembled from fields are decoded from their delimiters and their widths. This file holds
the two facts such decodings rest on, over lists of an arbitrary alphabet, and the fixed-width
hexadecimal rendering of a number that digests and identifiers share.

* `append_sep_inj_of_length_le`: a text splits uniquely at a separator when one tail is separator
  free and the other is no longer than it.
* `append_sep_inj`: the same when both tails are separator free.
* `hexDigits w n`: the `w` lowercase hexadecimal digits of `n`, injective below `16 ^ w`. -/

namespace Text

/-! ## Splitting at a separator -/

section Separators

variable {α : Type*} {sep : α} {p : α → Prop} {xs xs' ys ys' : List α}

/-- **Splitting against a bounded tail**: when one tail is separator free, another decomposition
whose tail is no longer must be the same one, whatever its tail contains. -/
theorem append_sep_inj_of_length_le (h : xs ++ sep :: ys = xs' ++ sep :: ys') (hy : sep ∉ ys)
    (hlen : ys'.length ≤ ys.length) : xs = xs' ∧ ys = ys' := by
  rcases List.append_eq_append_iff.mp h with ⟨as, hxs, hys⟩ | ⟨as, hxs, hys⟩
  · cases as with
    | nil => exact ⟨by simpa using hxs.symm, by simpa using hys⟩
    | cons a as =>
        rw [List.cons_append, List.cons.injEq] at hys
        exact absurd (by rw [hys.2]; simp) hy
  · cases as with
    | nil => exact ⟨by simpa using hxs, by simpa using hys.symm⟩
    | cons a as =>
        -- here the other tail would contain all of `ys` and a separator, so it would be longer
        rw [List.cons_append, List.cons.injEq] at hys
        have hlong : ys'.length = as.length + (ys.length + 1) := by rw [hys.2]; simp
        omega

/-- **The last separator splits a text in one way**: if neither tail contains the separator, the
two decompositions coincide. -/
theorem append_sep_inj (h : xs ++ sep :: ys = xs' ++ sep :: ys') (hy : sep ∉ ys)
    (hy' : sep ∉ ys') : xs = xs' ∧ ys = ys' := by
  rcases le_total ys'.length ys.length with hle | hle
  · exact append_sep_inj_of_length_le h hy hle
  · obtain ⟨hxs, hys⟩ := append_sep_inj_of_length_le h.symm hy' hle
    exact ⟨hxs.symm, hys.symm⟩

/-- **The first part ends where its property does**: a text splits in one way into a part whose
characters have a property and a rest that begins with one that has not. -/
theorem append_inj_of_forall (h : xs ++ ys = xs' ++ ys') (hx : ∀ c ∈ xs, p c)
    (hx' : ∀ c ∈ xs', p c) (hy : ∀ c ∈ ys.head?, ¬ p c) (hy' : ∀ c ∈ ys'.head?, ¬ p c) :
    xs = xs' ∧ ys = ys' := by
  induction xs generalizing xs' with
  | nil =>
      cases xs' with
      | nil => exact ⟨rfl, h⟩
      | cons c xs' =>
          rw [List.nil_append] at h
          exact absurd (hx' c (by simp)) (hy c (by rw [h]; rfl))
  | cons c xs ih =>
      cases xs' with
      | nil =>
          rw [List.nil_append] at h
          exact absurd (hx c (by simp)) (hy' c (by rw [← h]; rfl))
      | cons c' xs' =>
          rw [List.cons_append, List.cons_append, List.cons.injEq] at h
          obtain ⟨rfl, h⟩ := h
          obtain ⟨rfl, rfl⟩ := ih h (fun d hd => hx d (by simp [hd]))
            (fun d hd => hx' d (by simp [hd]))
          exact ⟨rfl, rfl⟩
end Separators

/-! ## Fixed-width hexadecimal -/

/-- The lowercase hexadecimal digit of a number below sixteen. -/
def hexDigit (n : ℕ) : Char := Nat.digitChar n

/-- The `width` lowest hexadecimal digits of `n`, most significant first. -/
def hexDigits : ℕ → ℕ → List Char
  | 0, _ => []
  | width + 1, n => hexDigit (n / 16 ^ width % 16) :: hexDigits width n

/-- The characters a lowercase hexadecimal rendering consists of. -/
def IsHex (c : Char) : Prop := c ∈ "0123456789abcdef".toList

instance (c : Char) : Decidable (IsHex c) := inferInstanceAs (Decidable (c ∈ _))

@[simp] theorem length_hexDigits (width n : ℕ) : (hexDigits width n).length = width := by
  induction width with
  | zero => rfl
  | succ width ih => rw [hexDigits, List.length_cons, ih]

/-- Digits below sixteen render to hexadecimal characters. -/
theorem isHex_hexDigit {n : ℕ} (h : n < 16) : IsHex (hexDigit n) := by
  interval_cases n <;> decide

/-- Distinct digits below sixteen render to distinct characters. -/
theorem hexDigit_inj {n m : ℕ} (hn : n < 16) (hm : m < 16) (h : hexDigit n = hexDigit m) :
    n = m := by
  have key : ∀ a : Fin 16, ∀ b : Fin 16, hexDigit a = hexDigit b → a = b := by decide
  exact congrArg Fin.val (key ⟨n, hn⟩ ⟨m, hm⟩ h)

/-- Every character of a rendering is hexadecimal. -/
theorem isHex_of_mem_hexDigits {width n : ℕ} {c : Char} (h : c ∈ hexDigits width n) :
    IsHex c := by
  induction width with
  | zero => cases h
  | succ width ih =>
      rcases List.mem_cons.mp h with rfl | h
      · exact isHex_hexDigit (Nat.mod_lt _ (by decide))
      · exact ih h

/-- **A fixed-width rendering determines the number modulo its range.** -/
theorem hexDigits_inj {width n m : ℕ} (h : hexDigits width n = hexDigits width m) :
    n % 16 ^ width = m % 16 ^ width := by
  induction width with
  | zero => rw [pow_zero, Nat.mod_one, Nat.mod_one]
  | succ width ih =>
      rw [hexDigits, hexDigits, List.cons.injEq] at h
      have hd := hexDigit_inj (Nat.mod_lt _ (by decide)) (Nat.mod_lt _ (by decide)) h.1
      rw [pow_succ, Nat.mod_mul, Nat.mod_mul, ih h.2, hd]

/-- A fixed-width rendering is injective on the numbers that fit. -/
theorem eq_of_hexDigits_eq {width n m : ℕ} (hn : n < 16 ^ width) (hm : m < 16 ^ width)
    (h : hexDigits width n = hexDigits width m) : n = m := by
  rw [← Nat.mod_eq_of_lt hn, ← Nat.mod_eq_of_lt hm]
  exact hexDigits_inj h

/-! ## Reading hexadecimal -/

/-- The value of a hexadecimal digit of either case. -/
def hexValue (c : Char) : Option ℕ :=
  if c.isDigit then some (c.toNat - '0'.toNat)
  else if 'a' ≤ c ∧ c ≤ 'f' then some (c.toNat - 'a'.toNat + 10)
  else if 'A' ≤ c ∧ c ≤ 'F' then some (c.toNat - 'A'.toNat + 10)
  else none

/-- The number a list of hexadecimal digits denotes, read from the number before it. -/
def readHex : ℕ → List Char → Option ℕ
  | n, [] => some n
  | n, c :: cs => (hexValue c).bind fun d => readHex (16 * n + d) cs

theorem hexValue_hexDigit {n : ℕ} (h : n < 16) : hexValue (hexDigit n) = some n := by
  interval_cases n <;> decide

/-- **Reading inverts rendering.** -/
theorem readHex_hexDigits (width m n : ℕ) :
    readHex m (hexDigits width n) = some (m * 16 ^ width + n % 16 ^ width) := by
  induction width generalizing m with
  | zero => rw [hexDigits, readHex, pow_zero, Nat.mod_one, Nat.mul_one, Nat.add_zero]
  | succ width ih =>
      rw [hexDigits, readHex, hexValue_hexDigit (Nat.mod_lt _ (by decide)), Option.bind_some, ih,
        pow_succ, Nat.mod_mul]
      congr 1
      ring

end Text
