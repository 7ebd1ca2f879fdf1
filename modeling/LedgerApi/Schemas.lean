import LedgerApi.Library.DecimalContext
import LedgerApi.Models

/-! # Requests

The request bodies of `app/schemas.py`. Their validation is part of the type: a value of
`TransactionCreate` is a body that passed it. -/

namespace LedgerApi

/-- `Field(..., gt=0, max_digits=12, decimal_places=2)`. The digits are counted after the number has
been normalised, which rounds it to the precision of the context, so that a number with more digits
than that may pass without being a whole number of cents. -/
def ValidAmount (amount : Decimal) : Prop :=
  amount.normalize.digitsInfo.1 ≤ 12 ∧ amount.normalize.digitsInfo.2 ≤ 2 ∧
    amount.normalize.digitsInfo.1 - amount.normalize.digitsInfo.2 ≤ 12 - 2 ∧ ⟨0, 0⟩ < amount

instance (amount : Decimal) : Decidable (ValidAmount amount) :=
  inferInstanceAs (Decidable (_ ∧ _ ∧ _ ∧ _))

example : ([⟨10, 0⟩, ⟨1, 9⟩, ⟨1, 10⟩, ⟨1001, -2⟩, ⟨10010, -3⟩, ⟨10011, -3⟩, ⟨10 ^ 35 + 1, -34⟩,
    ⟨0, 0⟩].map fun amount => decide (ValidAmount amount)) =
    [true, true, false, true, true, false, true, false] := by decide +kernel

/-- The amount is a whole number of cents, in any decimal form. -/
def WholeCents (amount : Decimal) : Prop := (amount.exactAt amountExp).isSome

instance (amount : Decimal) : Decidable (WholeCents amount) := inferInstanceAs (Decidable (_ = _))

/-- **What passes is a positive number of cents** after rounding it to the context. -/
theorem ValidAmount.exists_cents {amount : Decimal} (h : ValidAmount amount) :
    ∃ c : ℤ, 0 < c ∧ c < 10 ^ 12 ∧
      (amount.fix Decimal.contextPrec).toRat = c * (10 : ℚ) ^ amountExp := by
  obtain ⟨-, hplaces, hwhole, hpos⟩ := h
  have hexp : amountExp ≤ amount.normalize.exp := by
    rw [Decimal.digitsInfo] at hplaces
    split_ifs at hplaces <;> simp only [amountExp] at hplaces ⊢ <;> omega
  have hvalue := Decimal.toRat_eq_scaled hexp
  rw [Decimal.toRat_normalize] at hvalue
  refine ⟨amount.normalize.scaled amountExp, ?_, ?_, hvalue⟩
  · have hfix : 0 < (amount.fix Decimal.contextPrec).toRat := by
      refine Decimal.toRat_fix_pos (n := 27) ?_ (by norm_num)
      simpa [Decimal.toRat] using (Decimal.lt_iff_toRat_lt _ _).mp hpos
    rw [hvalue] at hfix
    exact_mod_cast pos_of_mul_pos_left hfix (by positivity)
  · calc amount.normalize.scaled amountExp ≤ |amount.normalize.scaled amountExp| := le_abs_self _
      _ < 10 ^ (_ - _ + 2) := Decimal.abs_scaled_lt hplaces
      _ ≤ 10 ^ 12 := pow_le_pow_right₀ (by norm_num) (Nat.add_le_add_right hwhole 2)

/-- `Field(..., min_length=1, max_length=255)`. -/
def ValidLength (text : String) : Prop := 1 ≤ text.length ∧ text.length ≤ 255

instance (text : String) : Decidable (ValidLength text) := inferInstanceAs (Decidable (_ ∧ _))

/-- The body of `POST /accounts`. -/
structure AccountCreate where
  name : String
  valid_name : ValidLength name
  deriving DecidableEq

/-- The body of `POST /transactions`. -/
structure TransactionCreate where
  idempotencyKey : String
  type : TransactionType
  amount : Decimal
  accountId : Option UUID
  fromAccountId : Option UUID
  toAccountId : Option UUID
  reference : Option String
  valid_key : ValidLength idempotencyKey
  valid_amount : ValidAmount amount
  deriving DecidableEq

namespace TransactionCreate

variable (data : TransactionCreate)

/-- The amount in cents, as the column stores it. -/
def cents : ℤ := data.amount.toScale 2

theorem toScale_amount : data.amount.toScale 2 = data.cents := rfl

/-- Rounded to the context, the amount is the cents that are stored. -/
theorem toRat_fix_amount :
    0 < data.cents ∧ data.cents < 10 ^ 12 ∧
      (data.amount.fix Decimal.contextPrec).toRat = data.cents * (10 : ℚ) ^ amountExp := by
  obtain ⟨c, hpos, hlt, hfix⟩ := data.valid_amount.exists_cents
  have hnear : data.amount.NearAt (-(2 : ℕ)) c :=
    Decimal.nearAt_of_fix (n := 27) (by norm_num) hfix (by rw [abs_of_pos hpos]; omega)
  rw [cents, Decimal.toScale_of_nearAt hnear]
  exact ⟨hpos, hlt, hfix⟩

theorem cents_pos : 0 < data.cents := data.toRat_fix_amount.1

/-- The amount is far nearer to its cents than half a cent. -/
theorem abs_amount_sub_cents :
    8 * |data.amount.toRat - data.cents * (10 : ℚ) ^ amountExp| < (10 : ℚ) ^ amountExp := by
  obtain ⟨hpos, hlt, hfix⟩ := data.toRat_fix_amount
  exact Decimal.abs_sub_lt_of_fix (n := 27) (by norm_num) hfix (by rw [abs_of_pos hpos]; omega)

/-- The column of the opposite entry stores the opposite amount. -/
theorem toScale_neg_amount : (-data.amount).toScale 2 = -data.cents := by
  obtain ⟨hpos, hlt, hfix⟩ := data.toRat_fix_amount
  exact Decimal.toScale_of_nearAt
    (Decimal.nearAt_neg_of_fix hfix (by rw [abs_of_pos hpos]; omega))

/-- The amount is equal to what is stored if it is a whole number of cents. -/
theorem numEq_cents_iff : data.amount.NumEq (readAmount data.cents) ↔ WholeCents data.amount := by
  constructor
  · intro heq
    have hexact := Decimal.exactAt_of_toRat ((Decimal.numEq_iff_toRat_eq _ _).mp heq)
    exact Option.isSome_iff_exists.mpr ⟨_, hexact⟩
  · intro hwhole
    obtain ⟨c, hc⟩ := Option.isSome_iff_exists.mp hwhole
    rw [cents, Decimal.toScale_of_exactAt hc]
    exact (Decimal.numEq_iff_of_exactAt hc (Decimal.exactAt_self _ _)).mpr rfl

/-- Normalising the amount to the column's precision gives what the column is read back as. -/
theorem quantize_amount : data.amount.quantize amountExp = readAmount data.cents := by
  obtain ⟨hpos, hlt, hfix⟩ := data.toRat_fix_amount
  exact Decimal.quantize_of_nearAt
    (Decimal.nearAt_of_fix (n := 27) (by norm_num) hfix (by rw [abs_of_pos hpos]; omega))

/-- An amount that is not more than a number of cents is not stored as more. -/
theorem cents_le_of_not_lt {c : ℤ} (h : ¬ readAmount c < data.amount) : data.cents ≤ c := by
  have hnear := data.abs_amount_sub_cents
  have hunit : (0 : ℚ) < 10 ^ amountExp := by positivity
  have hle : data.amount.toRat ≤ c * (10 : ℚ) ^ amountExp := by
    rw [Decimal.lt_iff_toRat_lt] at h
    exact not_lt.mp h
  have habs := neg_abs_le (data.amount.toRat - data.cents * (10 : ℚ) ^ amountExp)
  by_contra hlt
  have hnext : (c + 1 : ℚ) ≤ data.cents := by exact_mod_cast not_le.mp hlt
  have := mul_le_mul_of_nonneg_right hnext hunit.le
  linarith

end TransactionCreate

end LedgerApi
