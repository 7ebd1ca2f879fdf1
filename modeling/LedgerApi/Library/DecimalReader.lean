import LedgerApi.Library.Decimal

/-! # Reading decimal numbers

`Decimal(text)` for the text of a finite number: a sign, digits with a point among them, and an
exponent. It inverts `str` (`parse_str`): the number is read back with the exponent it had. -/

namespace Decimal

/-- Digits up to the end, after a sign if there is one. -/
def parseSigned (cs : List Char) : Option ℤ :=
  let digits := if cs.head? = some '-' ∨ cs.head? = some '+' then cs.tail else cs
  if digits ≠ [] ∧ digits.all Char.isDigit then
    let n : ℤ := Nat.ofDigitChars 10 digits 0
    some (if cs.head? = some '-' then -n else n)
  else none

/-- The exponent: none is zero. -/
def parseExponent : List Char → Option ℤ
  | [] => some 0
  | e :: cs => if e = 'e' ∨ e = 'E' then parseSigned cs else none

/-- The point and the digits after it, if it is there, and what follows. -/
def parseFraction (cs : List Char) : List Char × List Char :=
  if cs.head? = some '.' then (cs.tail.takeWhile Char.isDigit, cs.tail.dropWhile Char.isDigit)
  else ([], cs)

/-- `Decimal(text)`. -/
def parse (text : String) : Option Decimal :=
  let cs := text.toList
  let unsigned := if cs.head? = some '-' ∨ cs.head? = some '+' then cs.tail else cs
  let whole := unsigned.takeWhile Char.isDigit
  let (fraction, rest) := parseFraction (unsigned.dropWhile Char.isDigit)
  if whole ++ fraction = [] then none
  else (parseExponent rest).map fun exponent =>
    let n : ℤ := Nat.ofDigitChars 10 (whole ++ fraction) 0
    ⟨if cs.head? = some '-' then -n else n, exponent - fraction.length⟩

example : [parse "1E+1", parse "-7.50", parse ".5e-3", parse "+2", parse "1.2.3", parse "E5"] =
    [some ⟨1, 1⟩, some ⟨-750, -2⟩, some ⟨5, -4⟩, some ⟨2, 0⟩, none, none] := by decide +kernel

/-! ## Reading what was written -/

/-- Digits end before the first character that is none. -/
theorem span_digits {digits rest : List Char} (hd : ∀ c ∈ digits, c.isDigit)
    (hrest : ∀ c ∈ rest.head?, ¬ c.isDigit = true) :
    (digits ++ rest).takeWhile Char.isDigit = digits ∧
      (digits ++ rest).dropWhile Char.isDigit = rest := by
  have hnone : rest.takeWhile Char.isDigit = [] ∧ rest.dropWhile Char.isDigit = rest := by
    cases rest with
    | nil => exact ⟨rfl, rfl⟩
    | cons c rest =>
        have hc : c.isDigit = false := eq_false_of_ne_true (hrest c rfl)
        simp [hc]
  rw [List.takeWhile_append_of_pos hd, List.dropWhile_append_of_pos hd, hnone.1, hnone.2,
    List.append_nil]
  exact ⟨rfl, rfl⟩

/-- A signed number is read back. -/
theorem parseSigned_signedStr (n : ℤ) : parseSigned (signedStr n) = some n := by
  have hne : Nat.toDigits 10 n.natAbs ≠ [] :=
    List.ne_nil_of_length_pos Nat.length_toDigits_pos
  have hdigits : (Nat.toDigits 10 n.natAbs).all Char.isDigit := List.all_eq_true.mpr fun c hc =>
    Nat.isDigit_of_mem_toDigits (by norm_num) (by norm_num) hc
  have hvalue : Nat.ofDigitChars 10 (Nat.toDigits 10 n.natAbs) 0 = n.natAbs :=
    Nat.ofDigitChars_ten_toDigits
  by_cases hn : n < 0
  · simp only [parseSigned, signedStr, if_pos hn, List.head?_cons, true_or, if_true, List.tail_cons,
      hvalue]
    rw [if_pos ⟨hne, hdigits⟩]
    exact congrArg some (by omega)
  · simp only [parseSigned, signedStr, if_neg hn, List.head?_cons, or_true, if_true, List.tail_cons,
      hvalue]
    rw [if_pos ⟨hne, hdigits⟩, if_neg (by decide)]
    exact congrArg some (by omega)

/-- An exponent is read back. -/
theorem parseExponent_shown (e : ℤ) :
    parseExponent (if e = 0 then [] else 'E' :: signedStr e) = some e := by
  split
  case isTrue h => rw [h, parseExponent]
  case isFalse => rw [parseExponent, if_pos (Or.inr rfl), parseSigned_signedStr]

/-- So are the digits after the point. -/
theorem parseFraction_shown {fraction : List Char} (hd : ∀ c ∈ fraction, c.isDigit) (e : ℤ) :
    parseFraction ((if fraction = [] then [] else '.' :: fraction) ++
        if e = 0 then [] else 'E' :: signedStr e) =
      (fraction, if e = 0 then [] else 'E' :: signedStr e) := by
  have hrest : ∀ c ∈ (if e = 0 then [] else 'E' :: signedStr e).head?, ¬ c.isDigit = true := by
    intro c hc
    have hdigit := head?_not_isDigit [] e c
    exact hdigit hc
  by_cases hf : fraction = []
  · have hpoint : (if e = 0 then [] else 'E' :: signedStr e).head? ≠ some '.' := by
      split <;> simp
    rw [parseFraction, if_pos hf, List.nil_append, if_neg hpoint, hf]
  · obtain ⟨htake, hdrop⟩ := span_digits hd hrest
    rw [parseFraction, if_neg hf, List.cons_append, List.head?_cons, if_pos rfl, List.tail_cons,
      htake, hdrop]

/-- **Reading inverts `str`**, the exponent included. -/
theorem parse_str (d : Decimal) : parse d.str = some d := by
  obtain ⟨whole, fraction, htext, hwhole, hdigits, hvalue, hexp⟩ := d.strChars_spec
  have hw : ∀ c ∈ whole, c.isDigit := fun c hc => hdigits c (List.mem_append_left _ hc)
  have hf : ∀ c ∈ fraction, c.isDigit := fun c hc => hdigits c (List.mem_append_right _ hc)
  obtain ⟨tail, htail⟩ : ∃ tail, tail = (if fraction = [] then [] else '.' :: fraction) ++
      if d.shownExp = 0 then [] else 'E' :: signedStr d.shownExp := ⟨_, rfl⟩
  obtain ⟨htake, hdrop⟩ : (whole ++ tail).takeWhile Char.isDigit = whole ∧
      (whole ++ tail).dropWhile Char.isDigit = tail := by
    rw [htail]
    exact span_digits hw (head?_not_isDigit fraction d.shownExp)
  have hfraction : parseFraction tail =
      (fraction, if d.shownExp = 0 then [] else 'E' :: signedStr d.shownExp) := by
    rw [htail]
    exact parseFraction_shown hf d.shownExp
  have hne : whole ++ fraction ≠ [] := List.append_ne_nil_of_left_ne_nil hwhole _
  have hchars : d.str.toList = (if d.coef < 0 then ['-'] else []) ++ (whole ++ tail) := by
    rw [str, String.toList_ofList, htext, htail]
  -- the sign is there exactly for a negative coefficient
  have hhead : ∀ c ∈ (whole ++ tail).head?, c ≠ '-' ∧ c ≠ '+' := by
    intro c hc
    obtain ⟨x, xs, rfl⟩ := List.exists_cons_of_ne_nil hwhole
    obtain rfl : x = c := by simpa using hc
    have hx := hw x List.mem_cons_self
    constructor <;> rintro rfl <;> exact absurd hx (by decide)
  by_cases hneg : d.coef < 0
  · rw [if_pos hneg] at hchars
    simp only [parse, hchars, List.singleton_append, List.head?_cons, true_or, if_true,
      List.tail_cons, htake, hdrop, hfraction, if_neg hne, parseExponent_shown, Option.map_some,
      hvalue]
    have hcoef : -(d.coef.natAbs : ℤ) = d.coef := by omega
    exact congrArg some (congrArg₂ Decimal.mk hcoef hexp.symm)
  · rw [if_neg hneg, List.nil_append] at hchars
    have hunsigned : ¬ ((whole ++ tail).head? = some '-' ∨ (whole ++ tail).head? = some '+') := by
      rintro (h | h)
      · exact (hhead _ h).1 rfl
      · exact (hhead _ h).2 rfl
    simp only [parse, hchars, if_neg hunsigned, htake, hdrop, hfraction, if_neg hne,
      parseExponent_shown, Option.map_some, hvalue, if_neg (not_or.mp hunsigned).1]
    have hcoef : (d.coef.natAbs : ℤ) = d.coef := by omega
    exact congrArg some (congrArg₂ Decimal.mk hcoef hexp.symm)

end Decimal
