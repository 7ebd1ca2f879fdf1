import Mathlib.Algebra.Order.Field.Rat
import Mathlib.Algebra.Order.Field.Power
import Mathlib.Data.Int.DivMod
import Mathlib.Data.List.Basic
import Mathlib.Tactic.FieldSimp
import Mathlib.Tactic.Linarith
import Mathlib.Tactic.Positivity
import Mathlib.Tactic.Ring
import LedgerApi.Library.Text

/-! # Decimal numbers with an exponent

Finite numbers of Python's `decimal` module: a coefficient and a power of ten, so that `10`,
`10.00` and `1E+1` are different objects of one value. The file holds what a program needs that
accepts amounts in any such form and keeps them at a fixed scale:

* `Decimal.str`, the text `str` renders, with its point placement and its scientific form;
* exact comparison, `x < y ↔ x.toRat < y.toRat` (`Decimal.lt_iff_toRat_lt`), and equality of values;
* the two roundings to a scale, half-even (`Decimal.quantize`) and half-away-from-zero (a
  `NUMERIC(p, s)` column, `Decimal.toScale`), which agree on every number that is nearer to a whole
  number of units than half of one (`Decimal.NearAt`), and with the value itself on every number
  that the scale represents exactly (`Decimal.exactAt`);
* `Decimal.str_inj`: the text determines the number, its exponent included. -/

/-- A finite `decimal.Decimal`, of value `coef * 10 ^ exp`. -/
structure Decimal where
  /-- The signed coefficient. -/
  coef : ℤ
  /-- The exponent. -/
  exp : ℤ
  deriving DecidableEq, Repr

namespace Decimal

/-- The value as a rational number. -/
def toRat (d : Decimal) : ℚ := d.coef * (10 : ℚ) ^ d.exp

/-- The value in units of `10 ^ e`, for `e` no larger than the exponent. -/
def scaled (d : Decimal) (e : ℤ) : ℤ := d.coef * 10 ^ (d.exp - e).toNat

/-- A number is its scaled coefficient times the unit. -/
theorem toRat_eq_scaled {d : Decimal} {e : ℤ} (h : e ≤ d.exp) :
    d.toRat = d.scaled e * (10 : ℚ) ^ e := by
  obtain ⟨n, hn⟩ := Int.eq_ofNat_of_zero_le (sub_nonneg.mpr h)
  have hexp : d.exp = n + e := by omega
  rw [toRat, scaled, hn, Int.toNat_natCast, hexp, zpow_add₀ (by norm_num), zpow_natCast]
  push_cast
  ring

/-- The sum, at the smaller of the two exponents. -/
instance : Add Decimal :=
  ⟨fun x y => ⟨x.scaled (min x.exp y.exp) + y.scaled (min x.exp y.exp), min x.exp y.exp⟩⟩

theorem add_def (x y : Decimal) :
    x + y = ⟨x.scaled (min x.exp y.exp) + y.scaled (min x.exp y.exp), min x.exp y.exp⟩ := rfl

/-- At one exponent the coefficients are added. -/
theorem add_same_exp (a b e : ℤ) : (⟨a, e⟩ : Decimal) + ⟨b, e⟩ = ⟨a + b, e⟩ := by
  simp [add_def, scaled]

/-- Zero takes the exponent of what is added to it, if that is finer. -/
theorem zero_add_of_nonpos {b e : ℤ} (h : e ≤ 0) : (⟨0, 0⟩ : Decimal) + ⟨b, e⟩ = ⟨b, e⟩ := by
  simp [add_def, scaled, min_eq_right h]

/-! ## Comparison -/

/-- Numeric comparison: both sides brought to the smaller exponent. -/
instance : LT Decimal :=
  ⟨fun x y => x.scaled (min x.exp y.exp) < y.scaled (min x.exp y.exp)⟩

instance (x y : Decimal) : Decidable (x < y) :=
  inferInstanceAs (Decidable (x.scaled (min x.exp y.exp) < y.scaled (min x.exp y.exp)))

/-- **Comparison is comparison of values**, whatever the representations. -/
theorem lt_iff_toRat_lt (x y : Decimal) : x < y ↔ x.toRat < y.toRat := by
  have hpos : (0 : ℚ) < 10 ^ min x.exp y.exp := by positivity
  rw [toRat_eq_scaled (min_le_left x.exp y.exp), toRat_eq_scaled (min_le_right x.exp y.exp),
    mul_lt_mul_iff_left₀ hpos, Int.cast_lt]
  rfl

/-- `==`: equality of values, both sides brought to the smaller exponent. -/
def NumEq (x y : Decimal) : Prop := x.scaled (min x.exp y.exp) = y.scaled (min x.exp y.exp)

instance (x y : Decimal) : Decidable (x.NumEq y) :=
  inferInstanceAs (Decidable (x.scaled (min x.exp y.exp) = y.scaled (min x.exp y.exp)))

/-- `==` is equality of values, whatever the representations. -/
theorem numEq_iff_toRat_eq (x y : Decimal) : x.NumEq y ↔ x.toRat = y.toRat := by
  have hne : (10 : ℚ) ^ min x.exp y.exp ≠ 0 := by positivity
  rw [toRat_eq_scaled (min_le_left x.exp y.exp), toRat_eq_scaled (min_le_right x.exp y.exp),
    mul_left_inj' hne, Int.cast_inj]
  rfl

/-! ## Rounding to a scale -/

/-- Integer division rounding half to even. -/
def divHalfEven (a : ℤ) (n : ℕ) : ℤ :=
  let q := a / n
  let r := a % n
  if 2 * r < n then q else if n < 2 * r then q + 1 else if q % 2 = 0 then q else q + 1

/-- Integer division rounding half away from zero. -/
def divHalfUp (a : ℤ) (n : ℕ) : ℤ :=
  a.sign * ((2 * a.natAbs + n) / (2 * n) : ℕ)

/-- The number in units of `10 ^ e`, rounded by `round` where it has finer digits. -/
def atScale (round : ℤ → ℕ → ℤ) (d : Decimal) (e : ℤ) : ℤ :=
  if e ≤ d.exp then d.scaled e else round d.coef (10 ^ (e - d.exp).toNat)

/-- `Decimal.quantize` to exponent `e` under the default context, which rounds half to even. -/
def quantize (d : Decimal) (e : ℤ) : Decimal := ⟨d.atScale divHalfEven e, e⟩

/-- The coefficient a `NUMERIC` column of `s` decimal places stores: half away from zero. -/
def toScale (d : Decimal) (s : ℕ) : ℤ := d.atScale divHalfUp (-s)

/-- The number in units of `10 ^ e` when it is a whole number of them. -/
def exactAt (d : Decimal) (e : ℤ) : Option ℤ :=
  if e ≤ d.exp then some (d.scaled e)
  else if (10 ^ (e - d.exp).toNat : ℤ) ∣ d.coef then some (d.coef / 10 ^ (e - d.exp).toNat)
  else none

/-- **A scale that represents a number represents its value.** -/
theorem toRat_of_exactAt {d : Decimal} {e c : ℤ} (h : d.exactAt e = some c) :
    d.toRat = c * (10 : ℚ) ^ e := by
  unfold exactAt at h
  split at h
  case isTrue he =>
    rw [toRat_eq_scaled he, Option.some.inj h]
  case isFalse he =>
    split at h
    case isFalse => cases h
    case isTrue hdvd =>
      obtain ⟨q, hq⟩ := hdvd
      obtain ⟨n, hn⟩ := Int.eq_ofNat_of_zero_le (show 0 ≤ e - d.exp by omega)
      rw [hn, Int.toNat_natCast] at hq h
      have hc : q = c := by
        rw [hq, Int.mul_ediv_cancel_left q (by positivity)] at h
        exact Option.some.inj h
      have hexp : e = n + d.exp := by omega
      rw [toRat, hq, hexp, zpow_add₀ (by norm_num), zpow_natCast, hc]
      push_cast
      ring

/-- The number is nearer to `c * 10 ^ e` than half a unit of `10 ^ e`. -/
def NearAt (d : Decimal) (e c : ℤ) : Prop := 2 * |d.toRat - c * (10 : ℚ) ^ e| < (10 : ℚ) ^ e

/-- A number that is represented exactly is near. -/
theorem nearAt_of_exactAt {d : Decimal} {e c : ℤ} (h : d.exactAt e = some c) : d.NearAt e c := by
  rw [NearAt, toRat_of_exactAt h, sub_self, abs_zero, mul_zero]
  positivity

/-- Half-even division of what is near a multiple. -/
theorem divHalfEven_of_near {a c : ℤ} {n : ℕ} (h : |2 * (a - c * n)| < n) :
    divHalfEven a n = c := by
  obtain ⟨hlow, hhigh⟩ := abs_lt.mp h
  have hn : (0 : ℤ) < n := (abs_nonneg _).trans_lt h
  have hdiv : a = a / n * n + a % n := (Int.ediv_mul_add_emod a n).symm
  have hpos : 0 ≤ a % n := Int.emod_nonneg a (by omega)
  have hlt : a % n < n := Int.emod_lt_of_pos a (by omega)
  rw [divHalfEven]
  generalize a / (n : ℤ) = q at hdiv ⊢
  generalize a % (n : ℤ) = r at hdiv hpos hlt ⊢
  subst hdiv
  -- the multiple is the one below or the one above
  obtain rfl | rfl : c = q ∨ c = q + 1 := by
    have hge : q ≤ c := by
      by_contra hlt
      nlinarith
    have hle : c ≤ q + 1 := by
      by_contra hgt
      nlinarith
    omega
  · rw [if_pos (by linarith)]
  · rw [if_neg (by linarith), if_pos (by linarith)]

/-- Half-away division does not depend on the sign. -/
theorem divHalfUp_neg (a : ℤ) (n : ℕ) : divHalfUp (-a) n = -divHalfUp a n := by
  rw [divHalfUp, divHalfUp, Int.sign_neg, Int.natAbs_neg, neg_mul]

/-- Half-away division of what is near a multiple. -/
theorem divHalfUp_of_near {a c : ℤ} {n : ℕ} (h : |2 * (a - c * n)| < n) :
    divHalfUp a n = c := by
  wlog ha : 0 ≤ a generalizing a c
  · have hneg : |2 * (-a - -c * n)| < n := by
      rwa [show 2 * (-a - -c * (n : ℤ)) = -(2 * (a - c * n)) by ring, abs_neg]
    have hdiv := this hneg (by omega)
    rw [divHalfUp_neg] at hdiv
    exact neg_injective hdiv
  · obtain ⟨hlow, hhigh⟩ := abs_lt.mp h
    have hc : 0 ≤ c := by
      by_contra hlt
      nlinarith
    obtain ⟨m, rfl⟩ := Int.eq_ofNat_of_zero_le ha
    obtain ⟨k, rfl⟩ := Int.eq_ofNat_of_zero_le hc
    have hdiv : (2 * m + n) / (2 * n) = k := by
      refine Nat.div_eq_of_lt_le ?_ ?_ <;> zify <;> nlinarith
    rw [divHalfUp, Int.natAbs_natCast, hdiv]
    rcases Nat.eq_zero_or_pos m with rfl | hm
    · -- a number below half the divisor goes to zero
      have hk : k = 0 := by
        rw [← hdiv, Nat.mul_zero, Nat.zero_add]
        exact Nat.div_eq_of_lt (by omega)
      rw [hk, Nat.cast_zero, mul_zero]
    · rw [Int.sign_natCast_of_ne_zero (by omega), one_mul]

/-- A rounding that is exact near multiples takes a number to what it is near to. -/
theorem atScale_of_nearAt {round : ℤ → ℕ → ℤ} (hround : ∀ {a c : ℤ} {n : ℕ},
    |2 * (a - c * n)| < n → round a n = c) {d : Decimal} {e c : ℤ} (h : d.NearAt e c) :
    d.atScale round e = c := by
  rw [atScale]
  split
  case isTrue he =>
    -- a whole number of units that is near another is the other
    have hunit : (0 : ℚ) < 10 ^ e := by positivity
    rw [NearAt, toRat_eq_scaled he, ← sub_mul, abs_mul, abs_of_pos hunit, ← mul_assoc,
      mul_lt_iff_lt_one_left hunit] at h
    have hint : 2 * |d.scaled e - c| < 1 := by exact_mod_cast h
    have hzero : d.scaled e - c = 0 := abs_eq_zero.mp (by
      have := abs_nonneg (d.scaled e - c)
      omega)
    omega
  case isFalse he =>
    apply hround
    obtain ⟨n, hn⟩ := Int.eq_ofNat_of_zero_le (show 0 ≤ e - d.exp by omega)
    have hexp : e = n + d.exp := by omega
    have hunit : (0 : ℚ) < 10 ^ d.exp := by positivity
    have hpow : (10 : ℚ) ^ e = 10 ^ n * 10 ^ d.exp := by
      rw [hexp, zpow_add₀ (by norm_num), zpow_natCast]
    rw [NearAt, hpow, toRat, ← mul_assoc, ← sub_mul, abs_mul, abs_of_pos hunit, ← mul_assoc,
      mul_lt_mul_iff_left₀ hunit] at h
    rw [hn, Int.toNat_natCast, abs_mul, abs_of_pos (by norm_num : (0 : ℤ) < 2)]
    exact_mod_cast h

/-- `quantize` takes a number to what it is near to. -/
theorem quantize_of_nearAt {d : Decimal} {e c : ℤ} (h : d.NearAt e c) : d.quantize e = ⟨c, e⟩ := by
  rw [quantize, atScale_of_nearAt divHalfEven_of_near h]

/-- So does a `NUMERIC` column. -/
theorem toScale_of_nearAt {d : Decimal} {s : ℕ} {c : ℤ} (h : d.NearAt (-s) c) : d.toScale s = c :=
  atScale_of_nearAt divHalfUp_of_near h

/-- `quantize` normalises an exactly represented number. -/
theorem quantize_of_exactAt {d : Decimal} {e c : ℤ} (h : d.exactAt e = some c) :
    d.quantize e = ⟨c, e⟩ :=
  quantize_of_nearAt (nearAt_of_exactAt h)

/-- A `NUMERIC` column stores an exactly represented number unchanged. -/
theorem toScale_of_exactAt {d : Decimal} {s : ℕ} {c : ℤ} (h : d.exactAt (-s) = some c) :
    d.toScale s = c :=
  toScale_of_nearAt (nearAt_of_exactAt h)

/-- A number whose value is a whole number of units is represented exactly. -/
theorem exactAt_of_toRat {d : Decimal} {e c : ℤ} (h : d.toRat = c * (10 : ℚ) ^ e) :
    d.exactAt e = some c := by
  rw [exactAt]
  split
  case isTrue he =>
    have hunit : (10 : ℚ) ^ e ≠ 0 := by positivity
    rw [toRat_eq_scaled he, mul_left_inj' hunit] at h
    exact congrArg some (by exact_mod_cast h)
  case isFalse he =>
    obtain ⟨n, hn⟩ := Int.eq_ofNat_of_zero_le (show 0 ≤ e - d.exp by omega)
    have hunit : (10 : ℚ) ^ d.exp ≠ 0 := by positivity
    have hexp : e = n + d.exp := by omega
    rw [toRat, hexp, zpow_add₀ (by norm_num), zpow_natCast, ← mul_assoc, mul_left_inj' hunit] at h
    have hcoef : d.coef = c * 10 ^ n := by exact_mod_cast h
    rw [hn, Int.toNat_natCast, hcoef, if_pos (Dvd.intro_left c rfl),
      Int.mul_ediv_cancel _ (by positivity)]

/-- A coefficient at its own exponent is represented exactly. -/
@[simp] theorem exactAt_self (c e : ℤ) : (⟨c, e⟩ : Decimal).exactAt e = some c := by
  simp [exactAt, scaled]

/-- **Comparison at a common scale** is comparison of the coefficients. -/
theorem lt_iff_of_exactAt {x y : Decimal} {e a b : ℤ} (hx : x.exactAt e = some a)
    (hy : y.exactAt e = some b) : x < y ↔ a < b := by
  have hpos : (0 : ℚ) < 10 ^ e := by positivity
  rw [lt_iff_toRat_lt, toRat_of_exactAt hx, toRat_of_exactAt hy, mul_lt_mul_iff_left₀ hpos,
    Int.cast_lt]

/-- Equality at a common scale is equality of the coefficients. -/
theorem numEq_iff_of_exactAt {x y : Decimal} {e a b : ℤ} (hx : x.exactAt e = some a)
    (hy : y.exactAt e = some b) : x.NumEq y ↔ a = b := by
  have hne : (10 : ℚ) ^ e ≠ 0 := by positivity
  rw [numEq_iff_toRat_eq, toRat_of_exactAt hx, toRat_of_exactAt hy, mul_left_inj' hne, Int.cast_inj]

/-! ## Text -/

/-- `"%+d"` of an integer. -/
def signedStr (n : ℤ) : List Char :=
  (if n < 0 then '-' else '+') :: Nat.toDigits 10 n.natAbs

/-- The characters of `str(d)`: the point is placed inside the digits when the exponent is not
positive and the number is not tiny, else after the first digit with an explicit exponent. -/
def strChars (d : Decimal) : List Char :=
  let int := Nat.toDigits 10 d.coef.natAbs
  let leftdigits : ℤ := d.exp + int.length
  let dotplace : ℤ := if d.exp ≤ 0 ∧ -6 < leftdigits then leftdigits else 1
  let intpart :=
    if dotplace ≤ 0 then ['0']
    else int.take dotplace.toNat ++ List.replicate (dotplace.toNat - int.length) '0'
  let fracpart :=
    if dotplace ≤ 0 then '.' :: (List.replicate (-dotplace).toNat '0' ++ int)
    else if int.length ≤ dotplace then []
    else '.' :: int.drop dotplace.toNat
  let exponent := if leftdigits = dotplace then [] else 'E' :: signedStr (leftdigits - dotplace)
  (if d.coef < 0 then ['-'] else []) ++ intpart ++ fracpart ++ exponent

/-- `str(d)`. -/
def str (d : Decimal) : String := String.ofList d.strChars

example : [str ⟨10, 0⟩, str ⟨1000, -2⟩, str ⟨1, 1⟩, str ⟨5, -2⟩, str ⟨-75, -1⟩, str ⟨0, -7⟩]
    = ["10", "10.00", "1E+1", "0.05", "-7.5", "0E-7"] := by decide +kernel

/-- The exponent that the text of a number shows. -/
def shownExp (d : Decimal) : ℤ :=
  let leftdigits : ℤ := d.exp + (Nat.toDigits 10 d.coef.natAbs).length
  if d.exp ≤ 0 ∧ -6 < leftdigits then 0 else leftdigits - 1

/-- **The parts of the text**: sign, digits before and after the point, and exponent. The digits are
those of the coefficient, and the exponent is the one shown less the digits after the point. -/
theorem strChars_spec (d : Decimal) :
    ∃ whole fraction : List Char,
      d.strChars = (if d.coef < 0 then ['-'] else []) ++
        (whole ++ ((if fraction = [] then [] else '.' :: fraction) ++
          (if d.shownExp = 0 then [] else 'E' :: signedStr d.shownExp))) ∧
      whole ≠ [] ∧ (∀ x ∈ whole ++ fraction, x.isDigit) ∧
      Nat.ofDigitChars 10 (whole ++ fraction) 0 = d.coef.natAbs ∧
      d.exp = d.shownExp - fraction.length := by
  set int := Nat.toDigits 10 d.coef.natAbs with hint
  have hlen : 0 < int.length := Nat.length_toDigits_pos
  have hdigit : ∀ x ∈ int, x.isDigit := fun x hx =>
    Nat.isDigit_of_mem_toDigits (by norm_num) (by norm_num) hx
  have hval : Nat.ofDigitChars 10 int 0 = d.coef.natAbs := Nat.ofDigitChars_ten_toDigits
  -- the place of the point among the digits
  obtain ⟨dotplace, hdot⟩ : ∃ dotplace : ℤ, dotplace =
    if d.exp ≤ 0 ∧ -6 < d.exp + int.length then d.exp + int.length else 1 := ⟨_, rfl⟩
  have hshown : d.shownExp = d.exp + int.length - dotplace := by
    simp only [shownExp, ← hint, hdot]
    split <;> omega
  have hexponent : (if d.exp + (int.length : ℤ) = dotplace then []
      else 'E' :: signedStr (d.exp + int.length - dotplace)) =
      if d.shownExp = 0 then [] else 'E' :: signedStr d.shownExp := by
    rw [hshown]
    by_cases h : d.exp + (int.length : ℤ) = dotplace
    · rw [if_pos h, if_pos (by omega)]
    · rw [if_neg h, if_neg (by omega)]
  have hstr : d.strChars = (if d.coef < 0 then ['-'] else []) ++
      (if dotplace ≤ 0 then ['0']
        else int.take dotplace.toNat ++ List.replicate (dotplace.toNat - int.length) '0') ++
      (if dotplace ≤ 0 then '.' :: (List.replicate (-dotplace).toNat '0' ++ int)
        else if int.length ≤ dotplace then [] else '.' :: int.drop dotplace.toNat) ++
      (if d.shownExp = 0 then [] else 'E' :: signedStr d.shownExp) := by
    rw [← hexponent, hdot]
    rfl
  have hplace : dotplace ≤ int.length := by
    rw [hdot]
    split <;> omega
  by_cases hle : dotplace ≤ 0
  · -- a small number: zeros before the digits
    refine ⟨['0'], List.replicate (-dotplace).toNat '0' ++ int, ?_, List.cons_ne_nil _ _, ?_, ?_,
      ?_⟩
    · have hne : List.replicate (-dotplace).toNat '0' ++ int ≠ [] :=
        List.append_ne_nil_of_right_ne_nil _ (List.ne_nil_of_length_pos hlen)
      rw [hstr, if_pos hle, if_pos hle, if_neg hne]
      simp only [List.append_assoc]
    · intro x hx
      simp only [List.cons_append, List.nil_append, List.mem_cons, List.mem_append,
        List.mem_replicate] at hx
      rcases hx with rfl | ⟨-, rfl⟩ | hx
      · rfl
      · rfl
      · exact hdigit x hx
    · rw [List.cons_append, List.nil_append, Nat.ofDigitChars_cons, Nat.ofDigitChars_append,
        Nat.ofDigitChars_replicate_zero]
      simpa using hval
    · rw [hshown, List.length_append, List.length_replicate]
      omega
  · -- the point among the digits, or after the last of them
    have hzero : dotplace.toNat - int.length = 0 := by omega
    refine ⟨int.take dotplace.toNat, int.drop dotplace.toNat, ?_, ?_, ?_, ?_, ?_⟩
    · have hiff : (int.length : ℤ) ≤ dotplace ↔ int.drop dotplace.toNat = [] := by
        rw [List.drop_eq_nil_iff]
        omega
      rw [hstr, if_neg hle, if_neg hle, hzero, List.replicate_zero, List.append_nil]
      simp only [hiff, List.append_assoc]
    · refine List.ne_nil_of_length_pos ?_
      rw [List.length_take]
      omega
    · rw [List.take_append_drop]
      exact hdigit
    · rw [List.take_append_drop]
      exact hval
    · rw [hshown, List.length_drop]
      omega

/-- The characters of a number at two decimal places: sign, whole part, point and two digits. -/
theorem strChars_scale_two (c : ℤ) :
    ∃ whole cents : List Char,
      (⟨c, -2⟩ : Decimal).strChars = (if c < 0 then ['-'] else []) ++ (whole ++ '.' :: cents) ∧
      (∀ x ∈ whole ++ cents, x.isDigit) ∧ Nat.ofDigitChars 10 (whole ++ cents) 0 = c.natAbs := by
  obtain ⟨whole, cents, htext, -, hdigit, hval, hexp⟩ := strChars_spec ⟨c, -2⟩
  have hshown : (⟨c, -2⟩ : Decimal).shownExp = 0 := if_pos ⟨by norm_num, by dsimp only; omega⟩
  -- at exponent minus two there are digits after the point
  have hcents : cents ≠ [] := by
    rintro rfl
    rw [hshown] at hexp
    simp at hexp
  refine ⟨whole, cents, ?_, hdigit, hval⟩
  rw [htext, hshown, if_neg hcents, if_pos rfl, List.append_nil]

/-- A character that is no sign, point or digit does not occur at two decimal places. -/
theorem not_mem_str_scale_two {x : Char} (hx : x ≠ '-' ∧ x ≠ '.' ∧ x.isDigit = false) (c : ℤ) :
    x ∉ (⟨c, -2⟩ : Decimal).str.toList := by
  obtain ⟨whole, cents, htext, hdigit, -⟩ := strChars_scale_two c
  rw [str, String.toList_ofList, htext]
  have hw : ∀ y ∈ whole ++ cents, x ≠ y := by
    rintro y hy rfl
    rw [hdigit x hy] at hx
    cases hx.2.2
  intro hmem
  simp only [List.mem_append, List.mem_cons] at hmem hw
  rcases hmem with hmem | hmem | hmem | hmem
  · split at hmem
    · exact hx.1 (by simpa using hmem)
    · cases hmem
  · exact hw x (Or.inl hmem) rfl
  · exact hx.2.1 hmem
  · exact hw x (Or.inr hmem) rfl

/-- The text of a signed integer determines it. -/
theorem signedStr_inj {m n : ℤ} (h : signedStr m = signedStr n) : m = n := by
  rw [signedStr, signedStr, List.cons.injEq] at h
  have habs : m.natAbs = n.natAbs := by
    rw [← Nat.ofDigitChars_ten_toDigits (n := m.natAbs), h.2, Nat.ofDigitChars_ten_toDigits]
  have hsign : m < 0 ↔ n < 0 := by
    by_cases hm : m < 0 <;> by_cases hn : n < 0 <;> simp [hm, hn] at h ⊢
  omega

/-- The exponent part of a text is missing exactly for zero. -/
theorem exponent_inj {m n : ℤ}
    (h : (if m = 0 then [] else 'E' :: signedStr m) = if n = 0 then [] else 'E' :: signedStr n) :
    m = n := by
  by_cases hm : m = 0 <;> by_cases hn : n = 0
  · rw [hm, hn]
  · simp [hm, hn] at h
  · simp [hm, hn] at h
  · rw [if_neg hm, if_neg hn, List.cons.injEq] at h
    exact signedStr_inj h.2

/-- The point is missing exactly before no digits. -/
theorem point_inj {xs ys : List Char}
    (h : (if xs = [] then [] else '.' :: xs) = if ys = [] then [] else '.' :: ys) : xs = ys := by
  by_cases hx : xs = [] <;> by_cases hy : ys = []
  · rw [hx, hy]
  · simp [hx, hy] at h
  · simp [hx, hy] at h
  · rw [if_neg hx, if_neg hy, List.cons.injEq] at h
    exact h.2

/-! ### Reading a text -/

section Reading

variable {whole fraction : List Char}

/-- A number without its sign does not begin with one. -/
theorem head?_ne_minus (hw : whole ≠ []) (hd : ∀ x ∈ whole, x.isDigit) (rest : List Char) :
    ∀ c ∈ (whole ++ rest).head?, ¬ c = '-' := by
  intro c hc
  obtain ⟨x, xs, rfl⟩ := List.exists_cons_of_ne_nil hw
  obtain rfl : x = c := by simpa using hc
  rintro rfl
  exact absurd (hd '-' (by simp)) (by decide)

/-- After the digits before the point there is no further digit. -/
theorem head?_not_isDigit (fraction : List Char) (e : ℤ) :
    ∀ c ∈ ((if fraction = [] then [] else '.' :: fraction) ++
      if e = 0 then [] else 'E' :: signedStr e).head?, ¬ c.isDigit = true := by
  intro c hc
  by_cases hf : fraction = [] <;> by_cases he : e = 0 <;> simp [hf, he] at hc <;> subst hc <;>
    decide

/-- The point and the digits after it are no exponent. -/
theorem ne_e_of_mem_fraction (hd : ∀ x ∈ fraction, x.isDigit) :
    ∀ c ∈ (if fraction = [] then [] else '.' :: fraction), c ≠ 'E' := by
  intro c hc
  split at hc
  · cases hc
  · rcases List.mem_cons.mp hc with rfl | hc
    · decide
    · rintro rfl
      exact absurd (hd 'E' hc) (by decide)

/-- An exponent begins with its letter. -/
theorem head?_eq_e (e : ℤ) :
    ∀ c ∈ (if e = 0 then [] else 'E' :: signedStr e).head?, ¬ c ≠ 'E' := by
  intro c hc
  by_cases he : e = 0 <;> simp [he] at hc
  exact not_not.mpr hc.symm

end Reading

/-- **The text determines the number**, its exponent included. -/
theorem str_inj {a b : Decimal} (h : a.str = b.str) : a = b := by
  obtain ⟨wa, fa, hta, hwa, hda, hva, hea⟩ := a.strChars_spec
  obtain ⟨wb, fb, htb, hwb, hdb, hvb, heb⟩ := b.strChars_spec
  have hchars : a.strChars = b.strChars := String.ofList_injective h
  rw [hta, htb] at hchars
  have hsigns : ∀ d : Decimal, ∀ c ∈ (if d.coef < 0 then ['-'] else []), c = '-' := by
    intro d c hc
    split at hc
    · simpa using hc
    · cases hc
  have hdwa : ∀ x ∈ wa, x.isDigit := fun x hx => hda x (List.mem_append_left _ hx)
  have hdwb : ∀ x ∈ wb, x.isDigit := fun x hx => hdb x (List.mem_append_left _ hx)
  -- the sign, the digits before the point, those after it and the exponent, one after the other
  obtain ⟨hsign, hchars⟩ := Text.append_inj_of_forall (p := (· = '-')) hchars (hsigns a) (hsigns b)
    (head?_ne_minus hwa hdwa _) (head?_ne_minus hwb hdwb _)
  obtain ⟨hw, hchars⟩ := Text.append_inj_of_forall (p := fun c => c.isDigit = true) hchars hdwa hdwb
    (head?_not_isDigit _ _) (head?_not_isDigit _ _)
  obtain ⟨hfraction, hexponent⟩ := Text.append_inj_of_forall (p := (· ≠ 'E')) hchars
    (ne_e_of_mem_fraction fun x hx => hda x (List.mem_append_right _ hx))
    (ne_e_of_mem_fraction fun x hx => hdb x (List.mem_append_right _ hx))
    (head?_eq_e _) (head?_eq_e _)
  have hf := point_inj hfraction
  have he := exponent_inj hexponent
  have habs : a.coef.natAbs = b.coef.natAbs := by rw [← hva, ← hvb, hw, hf]
  have hneg : a.coef < 0 ↔ b.coef < 0 := by
    by_cases ha : a.coef < 0 <;> by_cases hb : b.coef < 0 <;> simp [ha, hb] at hsign ⊢
  have hcoef : a.coef = b.coef := by omega
  have hexps : a.exp = b.exp := by rw [hea, heb, he, hf]
  cases a
  cases b
  exact congrArg₂ Decimal.mk hcoef hexps

end Decimal
