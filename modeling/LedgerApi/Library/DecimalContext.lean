import LedgerApi.Library.Decimal

/-! # Decimal arithmetic in a context

An operation of Python's `decimal` module rounds its result to the precision of the context, half to
even (`Decimal.fix`); so do the unary minus and `normalize`, which takes away the zeros at the end.
A number with more digits is moved by this, but by no more than a small part of itself
(`Decimal.abs_toRat_sub_fix`).

A number with few digits after rounding to the precision of the context was near to them before
(`Decimal.nearAt_of_fix`), and so is its negative, which is rounded on its own
(`Decimal.nearAt_neg_of_fix`). The exponents of the context are taken to be unbounded. -/

namespace Decimal

/-- The number of digits of the coefficient. -/
def numDigits (d : Decimal) : ℕ := (Nat.toDigits 10 d.coef.natAbs).length

/-- The precision of the default context. -/
def contextPrec : ℕ := 28

/-- The number rounded to a precision. -/
def fix (prec : ℕ) (d : Decimal) : Decimal :=
  if d.numDigits ≤ prec then d
  else
    let drop := d.numDigits - prec
    let coef := divHalfEven d.coef (10 ^ drop)
    -- rounded up to one digit more, of which the last is a zero
    if coef.natAbs = 10 ^ prec then ⟨coef / 10, d.exp + drop + 1⟩ else ⟨coef, d.exp + drop⟩

/-- Unary minus. -/
instance : Neg Decimal := ⟨fun d => fix contextPrec ⟨-d.coef, d.exp⟩⟩

/-- The loop of `normalize`, which takes away the zeros at the end of `n` digits. -/
def stripZeros : ℕ → Decimal → Decimal
  | 0, d => d
  | n + 1, d => if d.coef % 10 = 0 then stripZeros n ⟨d.coef / 10, d.exp + 1⟩ else d

/-- `Decimal.normalize`. -/
def normalize (d : Decimal) : Decimal :=
  let rounded := d.fix contextPrec
  if rounded.coef = 0 then ⟨0, 0⟩ else stripZeros rounded.numDigits rounded

/-- How many digits a number has when it is written out, and how many of them are decimal places. -/
def digitsInfo (d : Decimal) : ℕ × ℕ :=
  if 0 ≤ d.exp then (d.numDigits + d.exp.toNat, 0)
  else (max d.numDigits (-d.exp).toNat, (-d.exp).toNat)

example : [normalize ⟨1000, -2⟩, normalize ⟨1234, -3⟩, normalize ⟨10 ^ 35 + 1, -34⟩, -⟨75, -1⟩]
    = [⟨1, 1⟩, ⟨1234, -3⟩, ⟨1, 1⟩, ⟨-75, -1⟩] := by decide +kernel

/-! ## Values -/

/-- Taking away zeros does not change the value. -/
theorem toRat_stripZeros (n : ℕ) (d : Decimal) : (stripZeros n d).toRat = d.toRat := by
  induction n generalizing d with
  | zero => rfl
  | succ n ih =>
      rw [stripZeros]
      split
      case isFalse => rfl
      case isTrue h =>
        have hcoef : d.coef = d.coef / 10 * 10 :=
          (Int.ediv_mul_cancel (Int.dvd_of_emod_eq_zero h)).symm
        rw [ih, toRat, toRat, zpow_add_one₀ (by norm_num)]
        conv_rhs => rw [hcoef]
        push_cast
        ring

/-- `normalize` rounds and does nothing else to the value. -/
theorem toRat_normalize (d : Decimal) : d.normalize.toRat = (d.fix contextPrec).toRat := by
  rw [normalize]
  split
  case isTrue h => rw [toRat, toRat, h, Int.cast_zero, zero_mul, zero_mul]
  case isFalse => exact toRat_stripZeros _ _

/-- A number is less than the power of ten after its digits. -/
theorem natAbs_coef_lt (d : Decimal) : d.coef.natAbs < 10 ^ d.numDigits :=
  (Nat.length_toDigits_le_iff (by norm_num) Nat.length_toDigits_pos).mp le_rfl

/-- A number of many digits is large. -/
theorem le_natAbs_coef {d : Decimal} {n : ℕ} (hn : 0 < n) (h : n < d.numDigits) :
    10 ^ n ≤ d.coef.natAbs := by
  by_contra hlt
  exact absurd ((Nat.length_toDigits_le_iff (by norm_num) hn).mpr (not_le.mp hlt)) (not_le.mpr h)

/-- The digits before the point bound a number with few decimal places. -/
theorem abs_scaled_lt {d : Decimal} {s : ℕ} (h : d.digitsInfo.2 ≤ s) :
    |d.scaled (-s)| < 10 ^ (d.digitsInfo.1 - d.digitsInfo.2 + s) := by
  have hwhole : d.numDigits + (d.exp - -s).toNat ≤ d.digitsInfo.1 - d.digitsInfo.2 + s := by
    rw [digitsInfo] at h ⊢
    split_ifs at h ⊢ <;> simp only at h ⊢ <;> omega
  have hcoef : |d.coef| < 10 ^ d.numDigits := by
    rw [Int.abs_eq_natAbs]
    exact_mod_cast d.natAbs_coef_lt
  calc |d.scaled (-s)| = |d.coef| * 10 ^ (d.exp - -s).toNat := by
        rw [scaled, abs_mul, abs_of_pos (by positivity : (0 : ℤ) < 10 ^ _)]
    _ < 10 ^ d.numDigits * 10 ^ (d.exp - -s).toNat :=
        mul_lt_mul_of_pos_right hcoef (by positivity)
    _ = 10 ^ (d.numDigits + (d.exp - -s).toNat) := (pow_add _ _ _).symm
    _ ≤ 10 ^ (d.digitsInfo.1 - d.digitsInfo.2 + s) := pow_le_pow_right₀ (by norm_num) hwhole

/-- Half-even division is at most half a divisor off. -/
theorem abs_sub_divHalfEven_mul (a : ℤ) {n : ℕ} (hn : 0 < n) :
    |2 * (a - divHalfEven a n * n)| ≤ n := by
  have hdiv : a = a / n * n + a % n := (Int.ediv_mul_add_emod a n).symm
  have hpos : 0 ≤ a % n := Int.emod_nonneg a (by omega)
  have hlt : a % n < n := Int.emod_lt_of_pos a (by omega)
  rw [abs_le, divHalfEven]
  generalize a / (n : ℤ) = q at hdiv ⊢
  generalize a % (n : ℤ) = r at hdiv hpos hlt ⊢
  subst hdiv
  split_ifs <;> constructor <;> nlinarith

/-- The value of a number that has been rounded. -/
theorem toRat_fix {d : Decimal} {n : ℕ} (h : n + 1 < d.numDigits) :
    (d.fix (n + 1)).toRat = divHalfEven d.coef (10 ^ (d.numDigits - (n + 1))) *
      (10 : ℚ) ^ (d.exp + (d.numDigits - (n + 1) : ℕ)) := by
  rw [fix, if_neg (not_le.mpr h)]
  dsimp only
  generalize divHalfEven d.coef (10 ^ (d.numDigits - (n + 1))) = coef
  split
  case isFalse => rfl
  case isTrue hcarry =>
    -- the last of its digits is a zero
    have hdvd : (10 : ℤ) ∣ coef := by
      rw [← Int.natAbs_dvd_natAbs, hcarry, pow_succ]
      exact dvd_mul_left _ _
    obtain ⟨q, rfl⟩ := hdvd
    rw [toRat, Int.mul_ediv_cancel_left q (by norm_num), zpow_add_one₀ (by norm_num)]
    push_cast
    ring

/-- **Rounding to a precision moves a number by no more than a small part of itself.** -/
theorem abs_toRat_sub_fix (d : Decimal) {n : ℕ} (hn : 0 < n) :
    2 * 10 ^ n * |d.toRat - (d.fix (n + 1)).toRat| ≤ |d.toRat| := by
  rcases le_or_gt d.numDigits (n + 1) with hle | hlt
  · rw [fix, if_pos hle, sub_self, abs_zero, mul_zero]
    exact abs_nonneg _
  · rw [toRat_fix hlt]
    have hdrop : n + (d.numDigits - (n + 1)) < d.numDigits := by omega
    have hlarge := le_natAbs_coef (Nat.lt_add_right _ hn) hdrop
    generalize d.numDigits - (n + 1) = drop at hlarge ⊢
    have hclose := abs_sub_divHalfEven_mul d.coef (show 0 < 10 ^ drop by positivity)
    generalize divHalfEven d.coef (10 ^ drop) = coef at hclose ⊢
    have hpos : (0 : ℚ) < 10 ^ d.exp := by positivity
    have hdiff : d.toRat - coef * (10 : ℚ) ^ (d.exp + (drop : ℕ)) =
        (d.coef - coef * 10 ^ drop : ℤ) * (10 : ℚ) ^ d.exp := by
      rw [toRat, zpow_add₀ (by norm_num), zpow_natCast]
      push_cast
      ring
    rw [hdiff, abs_mul, toRat, abs_mul, abs_of_pos hpos, ← mul_assoc]
    refine mul_le_mul_of_nonneg_right ?_ hpos.le
    have hclose' : (2 * |(d.coef - coef * 10 ^ drop : ℤ)| : ℤ) ≤ 10 ^ drop := by
      rw [abs_mul] at hclose
      exact_mod_cast hclose
    have hlarge' : (10 ^ n * 10 ^ drop : ℤ) ≤ |d.coef| := by
      rw [← pow_add, Int.abs_eq_natAbs]
      exact_mod_cast hlarge
    have hcoefs : 2 * 10 ^ n * |(d.coef - coef * 10 ^ drop : ℤ)| ≤ |d.coef| := by
      calc 2 * 10 ^ n * |(d.coef - coef * 10 ^ drop : ℤ)|
          = 10 ^ n * (2 * |(d.coef - coef * 10 ^ drop : ℤ)|) := by ring
        _ ≤ 10 ^ n * 10 ^ drop := by gcongr
        _ ≤ |d.coef| := hlarge'
    exact_mod_cast hcoefs

/-- A positive number stays positive. -/
theorem toRat_fix_pos {d : Decimal} (h : 0 < d.toRat) {n : ℕ} (hn : 0 < n) :
    0 < (d.fix (n + 1)).toRat := by
  have hclose := abs_toRat_sub_fix d hn
  have hpow : (1 : ℚ) ≤ 10 ^ n := one_le_pow₀ (by norm_num)
  have hdist := abs_nonneg (d.toRat - (d.fix (n + 1)).toRat)
  have hle := le_abs_self (d.toRat - (d.fix (n + 1)).toRat)
  rw [abs_of_pos h] at hclose
  generalize |d.toRat - (d.fix (n + 1)).toRat| = dist at hclose hdist hle
  nlinarith

/-! ## Few digits after rounding -/

section Near

variable {d : Decimal} {e c : ℤ} {n : ℕ}

/-- A number is at most as large as what it is near to and its distance from it. -/
theorem abs_toRat_le (d : Decimal) (e c : ℤ) :
    |d.toRat| ≤ |d.toRat - c * (10 : ℚ) ^ e| + |(c : ℚ)| * 10 ^ e := by
  have hunit : (0 : ℚ) < 10 ^ e := by positivity
  rw [← abs_of_pos hunit, ← abs_mul, abs_of_pos hunit]
  simpa using abs_add_le (d.toRat - c * (10 : ℚ) ^ e) (c * (10 : ℚ) ^ e)

/-- A small number of units is small. -/
theorem abs_mul_unit_lt (hc : 8 * |c| < 10 ^ n) (e : ℤ) :
    8 * (|(c : ℚ)| * 10 ^ e) < 10 ^ n * 10 ^ e := by
  rw [← mul_assoc]
  exact mul_lt_mul_of_pos_right (by exact_mod_cast hc) (by positivity)

/-- A number that has few digits after rounding was much nearer to it before than half a unit. -/
theorem abs_sub_lt_of_fix (hn : 0 < n) (h : (d.fix (n + 1)).toRat = c * (10 : ℚ) ^ e)
    (hc : 8 * |c| < 10 ^ n) : 8 * |d.toRat - c * (10 : ℚ) ^ e| < (10 : ℚ) ^ e := by
  have hclose := abs_toRat_sub_fix d hn
  have hlarge := abs_toRat_le d e c
  have hsmall := abs_mul_unit_lt hc e
  have hunit : (0 : ℚ) < 10 ^ e := by positivity
  have hpow : (1 : ℚ) ≤ 10 ^ n := one_le_pow₀ (by norm_num)
  rw [h] at hclose
  generalize |d.toRat - c * (10 : ℚ) ^ e| = dist at hclose hlarge ⊢
  nlinarith

/-- **A number that has few digits after rounding** was near to it before. -/
theorem nearAt_of_fix (hn : 0 < n) (h : (d.fix (n + 1)).toRat = c * (10 : ℚ) ^ e)
    (hc : 8 * |c| < 10 ^ n) : d.NearAt e c := by
  have hnear := abs_sub_lt_of_fix hn h hc
  have hdist := abs_nonneg (d.toRat - c * (10 : ℚ) ^ e)
  rw [NearAt]
  linarith

/-- So is its negative, which is rounded itself. -/
theorem nearAt_neg_of_fix (h : (d.fix contextPrec).toRat = c * (10 : ℚ) ^ e)
    (hc : 8 * |c| < 10 ^ 27) : (-d).NearAt e (-c) := by
  have hnear : 8 * |d.toRat - c * (10 : ℚ) ^ e| < (10 : ℚ) ^ e :=
    abs_sub_lt_of_fix (by norm_num) h hc
  have hneg : (⟨-d.coef, d.exp⟩ : Decimal).toRat = -d.toRat := by
    rw [toRat, toRat, Int.cast_neg, neg_mul]
  have hclose : 2 * 10 ^ 27 * |-d.toRat - (-d).toRat| ≤ |d.toRat| := by
    rw [← abs_neg d.toRat, ← hneg]
    exact abs_toRat_sub_fix _ (by norm_num)
  have hlarge := abs_toRat_le d e c
  have hsmall := abs_mul_unit_lt hc e
  -- first from the number to its rounded negative, then to what it is near to
  have htriangle : |(-d).toRat - (-c : ℤ) * (10 : ℚ) ^ e| ≤
      |-d.toRat - (-d).toRat| + |d.toRat - c * (10 : ℚ) ^ e| := by
    rw [abs_sub_comm (-d.toRat), ← abs_neg (d.toRat - _)]
    have hsum : (-d).toRat - (-c : ℤ) * (10 : ℚ) ^ e =
        ((-d).toRat - -d.toRat) + -(d.toRat - c * (10 : ℚ) ^ e) := by
      push_cast
      ring
    rw [hsum]
    exact abs_add_le _ _
  have hunit : (0 : ℚ) < 10 ^ e := by positivity
  rw [NearAt]
  generalize (10 : ℚ) ^ e = unit at *
  linarith

end Near

end Decimal
