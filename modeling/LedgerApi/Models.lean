import LedgerApi.Library.Decimal
import LedgerApi.Library.Text

/-! # Data model

The tables of `app/models.py` and the values their columns hold. A `NUMERIC(12, 2)` column holds a
whole number of cents; an object of the session may hold the same amount as any `Decimal`, which is
why `Transaction` and `LedgerEntry` are generic in the amount: rows have `ℤ`, objects `Decimal`. -/

namespace LedgerApi

/-- `uuid.UUID`, by its 128-bit integer, which also orders it. -/
abbrev UUID := Fin (2 ^ 128)

/-- There is an id for every numeral. -/
instance UUID.instNeZero : NeZero (2 ^ 128 : ℕ) := ⟨by decide⟩

/-- Ids are compared by their integers. -/
instance UUID.instLawfulBEq : LawfulBEq UUID := inferInstance

/-- A condition on an optional id is checked at that id, not at all of them. -/
instance UUID.decidableForallMem (id? : Option UUID) (p : UUID → Prop) [DecidablePred p] :
    Decidable (∀ id ∈ id?, p id) :=
  Option.decidableForallMem id?

/-- A `timestamptz`: microseconds since the epoch. -/
abbrev Timestamp := ℤ

namespace UUID

/-- The 32 hexadecimal digits. -/
def hex (id : UUID) : List Char := Text.hexDigits 32 id.val

/-- The characters of `str(id)`. -/
def strChars (id : UUID) : List Char :=
  id.hex.take 8 ++ '-' :: ((id.hex.drop 8).take 4 ++ '-' :: ((id.hex.drop 12).take 4 ++
    '-' :: ((id.hex.drop 16).take 4 ++ '-' :: id.hex.drop 20)))

/-- `str(id)`. -/
def str (id : UUID) : String := String.ofList id.strChars

/-- Without its hyphens a UUID is its hexadecimal digits. -/
theorem filter_strChars (id : UUID) : id.strChars.filter (· ≠ '-') = id.hex := by
  have hkeep : ∀ xs : List Char, xs ⊆ id.hex → xs.filter (· ≠ '-') = xs := by
    intro xs hxs
    refine List.filter_eq_self.mpr fun c hc => ?_
    have hhex : Text.IsHex c := Text.isHex_of_mem_hexDigits (hxs hc)
    have hne : c ≠ '-' := by rintro rfl; exact absurd hhex (by decide)
    simpa using hne
  -- the groups between the hyphens, put together
  have hsplit : id.hex = id.hex.take 8 ++ ((id.hex.drop 8).take 4 ++ ((id.hex.drop 12).take 4 ++
      ((id.hex.drop 16).take 4 ++ id.hex.drop 20))) := by
    have h16 := List.take_append_drop 4 (id.hex.drop 16)
    have h12 := List.take_append_drop 4 (id.hex.drop 12)
    have h8 := List.take_append_drop 4 (id.hex.drop 8)
    rw [List.drop_drop] at h16 h12 h8
    rw [h16, h12, h8, List.take_append_drop]
  have htake : ∀ m n, (id.hex.drop m).take n ⊆ id.hex := fun m n =>
    fun c hc => List.mem_of_mem_drop (List.mem_of_mem_take hc)
  have hdash : ∀ xs : List Char, ('-' :: xs).filter (· ≠ '-') = xs.filter (· ≠ '-') :=
    fun xs => List.filter_cons_of_neg (by decide)
  rw [strChars]
  simp only [List.filter_append, hdash]
  rw [hkeep _ (htake 8 4), hkeep _ (htake 12 4), hkeep _ (htake 16 4),
    hkeep _ (fun c hc => List.mem_of_mem_drop hc), hkeep _ (fun c hc => List.mem_of_mem_take hc)]
  exact hsplit.symm

/-- The text of a UUID has thirty-six characters. -/
theorem length_str (id : UUID) : id.str.toList.length = 36 := by
  have hlen : id.hex.length = 32 := Text.length_hexDigits 32 id.val
  simp [str, strChars, hlen]

/-- The text of a UUID determines it. -/
theorem str_inj {a b : UUID} (h : a.str = b.str) : a = b := by
  have hchars : a.strChars = b.strChars := String.ofList_injective h
  have hhex : a.hex = b.hex := by rw [← filter_strChars a, hchars, filter_strChars]
  have hpow : (2 : ℕ) ^ 128 = 16 ^ 32 := by norm_num
  exact Fin.ext (Text.eq_of_hexDigits_eq (a.isLt.trans_eq hpow) (b.isLt.trans_eq hpow) hhex)

/-- `UUID(text)`: the hyphens are dropped, and the rest is read as thirty-two hexadecimal digits. -/
def parse (text : String) : Option UUID :=
  let digits := text.toList.filter (· ≠ '-')
  if digits.length = 32 then (Text.readHex 0 digits).map (Fin.ofNat (2 ^ 128)) else none

/-- The text of a UUID is read back. -/
theorem parse_str (id : UUID) : parse id.str = some id := by
  have hdigits : id.str.toList.filter (· ≠ '-') = id.hex := by
    rw [str, String.toList_ofList, filter_strChars]
  have hlen : id.hex.length = 32 := Text.length_hexDigits 32 id.val
  have hpow : (16 : ℕ) ^ 32 = 2 ^ 128 := by norm_num
  rw [parse, hdigits, if_pos hlen, hex, Text.readHex_hexDigits, Option.map_some, Nat.zero_mul,
    Nat.zero_add, hpow, Nat.mod_eq_of_lt id.isLt, Fin.ofNat_eq_cast, Fin.cast_val_eq_self]

example : str 0x5ec3d1a000000000000000000000beef = "5ec3d1a0-0000-0000-0000-00000000beef" := by
  decide +kernel

end UUID

/-- The type of a transaction. -/
inductive TransactionType
  | deposit
  | withdrawal
  | transfer
  deriving DecidableEq, Repr

/-- `TransactionType.value`. -/
def TransactionType.value : TransactionType → String
  | deposit => "deposit"
  | withdrawal => "withdrawal"
  | transfer => "transfer"

theorem TransactionType.value_inj {a b : TransactionType} (h : a.value = b.value) : a = b := by
  cases a <;> cases b <;> first | rfl | exact absurd h (by decide)

/-- A row of `accounts`. -/
structure Account where
  id : UUID
  name : String
  isSystem : Bool
  createdAt : Timestamp
  deriving DecidableEq, Repr

/-- A transaction: a row of `transactions` with its amount in cents, or an object of the session
with its amount as a `Decimal`. -/
structure Transaction (Amount : Type) where
  id : UUID
  idempotencyKey : String
  type : TransactionType
  amount : Amount
  requestHash : String
  prevHash : Option String
  chainHash : Option String
  /-- Append order of the hash chain. -/
  chainSeq : Option ℤ
  reference : Option String
  createdAt : Timestamp
  deriving DecidableEq, Repr

/-- A row of `ledger_entries`. -/
structure LedgerEntry where
  id : UUID
  transactionId : UUID
  accountId : UUID
  /-- In cents, positive for a credit. -/
  amount : ℤ
  deriving DecidableEq, Repr

/-- A row of `outbox_events`. -/
structure OutboxEvent where
  id : UUID
  aggregateType : String
  aggregateId : UUID
  eventType : String
  payload : String
  createdAt : Timestamp
  publishedAt : Option Timestamp
  deriving DecidableEq, Repr

/-- `Decimal("0.01")` has this exponent; it is the precision of every amount column. -/
def amountExp : ℤ := -2

/-- The decimal an amount column is read back as. -/
def readAmount (cents : ℤ) : Decimal := ⟨cents, amountExp⟩

/-- The object a row is loaded into. -/
def Transaction.load (row : Transaction ℤ) : Transaction Decimal :=
  { row with amount := readAmount row.amount }

/-- The row an object is flushed to: the amount column rounds to its scale. -/
def Transaction.flush (txn : Transaction Decimal) : Transaction ℤ :=
  { txn with amount := txn.amount.toScale 2 }

/-- The committed rows of the four tables, in insertion order. -/
structure Database where
  accounts : List Account
  transactions : List (Transaction ℤ)
  ledgerEntries : List LedgerEntry
  outboxEvents : List OutboxEvent
  deriving DecidableEq, Repr

end LedgerApi
