import LedgerApi.Library.JsonReader
import LedgerApi.Library.DecimalReader

/-! # Lines of JSON

Objects of strings and numbers as `json.dumps` writes them, one a line. The text of an object has
printable ASCII characters only, whatever its strings are, so an object is one line and a stream of
lines is cut where its writer ended them (`lines_written`); and every line is read back as the
object that was written (`loads_dumps`). -/

namespace JsonLines

open Json

/-! ## Numbers -/

/-- The digits of a number. -/
theorem isDigit_toDigits (n : ℕ) : ∀ c ∈ Nat.toDigits 10 n, c.isDigit = true := fun _ hc =>
  Nat.isDigit_of_mem_toDigits (by norm_num) (by norm_num) hc

/-- A number that is not negative and needs no exponent, with its digits after the point. -/
structure Numeral where
  whole : ℕ
  fraction : List Char
  digits : ∀ c ∈ fraction, c.isDigit
  deriving DecidableEq

namespace Numeral

/-- A natural number. -/
def ofNat (n : ℕ) : Numeral := ⟨n, [], by simp⟩

/-- A number of tenths, with one digit after the point. -/
def tenths (n : ℕ) : Numeral := ⟨n / 10, Nat.toDigits 10 (n % 10), isDigit_toDigits _⟩

/-- The point and the digits after it. -/
def point (n : Numeral) : List Char := if n.fraction = [] then [] else '.' :: n.fraction

/-- The text of a number. -/
def render (n : Numeral) : List Char := Nat.toDigits 10 n.whole ++ n.point

end Numeral

/-- What follows a value in an object: a comma or the closing brace. -/
def Delimited (rest : List Char) : Prop := ∀ c ∈ rest.head?, c = ',' ∨ c = '\x7d'

/-- A number has no leading zero. -/
theorem head?_toDigits {n : ℕ} (h : n ≠ 0) : (Nat.toDigits 10 n).head? ≠ some '0' := by
  induction n using Nat.strong_induction_on with
  | _ n ih =>
    rw [Nat.toDigits_eq_if (by norm_num)]
    split
    case isTrue hlt =>
      interval_cases n <;> first | exact absurd rfl h | decide
    case isFalse hle =>
      rw [List.head?_append_of_ne_nil _ Nat.toDigits_ne_nil]
      exact ih (n / 10) (by omega) (by omega)

theorem readWhole_toDigits (n : ℕ) {rest : List Char}
    (hrest : ∀ c ∈ rest.head?, ¬ c.isDigit = true) :
    readWhole (Nat.toDigits 10 n ++ rest) = some (Nat.toDigits 10 n, rest) := by
  obtain ⟨htake, hdrop⟩ := Decimal.span_digits (isDigit_toDigits n) hrest
  rw [readWhole, htake, hdrop, if_neg Nat.toDigits_ne_nil]
  by_cases hn : n = 0
  · subst hn
    rfl
  · rw [if_neg (head?_toDigits hn)]

theorem readFraction_point (n : Numeral) {rest : List Char} (hrest : Delimited rest) :
    readFraction (n.point ++ rest) = (n.point, rest) := by
  have hdigit : ∀ c ∈ rest.head?, ¬ c.isDigit = true := by
    intro c hc
    rcases hrest c hc with rfl | rfl <;> decide
  by_cases hf : n.fraction = []
  · rw [Numeral.point, if_pos hf, List.nil_append]
    cases rest with
    | nil => rfl
    | cons c rest =>
        rcases hrest c rfl with rfl | rfl <;> rfl
  · obtain ⟨htake, hdrop⟩ := Decimal.span_digits n.digits hdigit
    rw [Numeral.point, if_neg hf, List.cons_append, readFraction, htake, hdrop, if_neg hf]

theorem readExponent_delimited {rest : List Char} (hrest : Delimited rest) :
    readExponent rest = ([], rest) := by
  cases rest with
  | nil => rfl
  | cons c rest => rcases hrest c rfl with rfl | rfl <;> simp [readExponent]

/-- After the digits before the point there is no further digit. -/
theorem head?_point (n : Numeral) {rest : List Char} (hrest : Delimited rest) :
    ∀ c ∈ (n.point ++ rest).head?, ¬ c.isDigit = true := by
  intro c hc
  by_cases hf : n.fraction = []
  · rw [Numeral.point, if_pos hf, List.nil_append] at hc
    rcases hrest c hc with rfl | rfl <;> decide
  · rw [Numeral.point, if_neg hf] at hc
    obtain rfl : '.' = c := by simpa using hc
    decide

/-- **A number is read back** as its text. -/
theorem readNumber_render (n : Numeral) {rest : List Char} (hrest : Delimited rest) :
    readNumber (n.render ++ rest) = some (.number (.ofList n.render), rest) := by
  have hwhole := readWhole_toDigits n.whole (head?_point n hrest)
  have hminus : (Nat.toDigits 10 n.whole ++ (n.point ++ rest)).head? ≠ some '-' := by
    intro h
    exact Decimal.head?_ne_minus Nat.toDigits_ne_nil (isDigit_toDigits n.whole) _ '-' h rfl
  rw [Numeral.render, List.append_assoc, readNumber, if_neg hminus]
  simp [hwhole, readFraction_point n hrest, readExponent_delimited hrest]

/-! ## Objects -/

/-- The values of the members. -/
inductive Scalar
  | str (s : String)
  | num (n : Numeral)
  deriving DecidableEq

/-- The text of a value. -/
def Scalar.render : Scalar → List Char
  | .str s => quote s
  | .num n => n.render

/-- A value as it is read. -/
def Scalar.data : Scalar → Data
  | .str s => .str s
  | .num n => .number (.ofList n.render)

/-- An object, its members in order. -/
abbrev Object := List (String × Scalar)

/-- The members of an object, with the default separators. -/
def renderMembers : Object → List Char
  | [] => []
  | [(k, v)] => quote k ++ ':' :: ' ' :: v.render
  | (k, v) :: member :: members =>
      quote k ++ ':' :: ' ' :: (v.render ++ ',' :: ' ' :: renderMembers (member :: members))

/-- `json.dumps` of an object. -/
def dumps (o : Object) : String := .ofList ('\x7b' :: (renderMembers o ++ ['\x7d']))

/-- An object as it is read. -/
def Object.data (o : Object) : Data := .object (o.map fun member => (member.1, member.2.data))

/-- The first digit of a number, and what follows it. -/
theorem exists_render_append (n : Numeral) (rest : List Char) :
    ∃ c cs, n.render ++ rest = c :: cs ∧ c.isDigit = true := by
  obtain ⟨c, cs, hdigits⟩ :=
    List.exists_cons_of_ne_nil (Nat.toDigits_ne_nil (n := n.whole) (b := 10))
  refine ⟨c, cs ++ n.point ++ rest, ?_, isDigit_toDigits n.whole c (hdigits ▸ List.mem_cons_self)⟩
  rw [Numeral.render, hdigits]
  simp only [List.cons_append]

/-- A value does not begin with white space. -/
theorem skipSpace_render (v : Scalar) (rest : List Char) :
    skipSpace (v.render ++ rest) = v.render ++ rest := by
  cases v with
  | str s => exact skipSpace_quote s rest
  | num n =>
      obtain ⟨c, cs, hcs, hc⟩ := exists_render_append n rest
      have hspace : isSpace c = false := by
        by_contra hspace
        simp only [isSpace, Bool.not_eq_false, Bool.or_eq_true, decide_eq_true_eq] at hspace
        rcases hspace with ((rfl | rfl) | rfl) | rfl <;> exact absurd hc (by decide)
      show skipSpace (n.render ++ rest) = n.render ++ rest
      rw [hcs, skipSpace_cons hspace]

/-- What begins with a digit is a number. -/
theorem readValue_digit (fuel : ℕ) {c : Char} (hc : c.isDigit = true) (cs : List Char) :
    readValue (fuel + 1) (c :: cs) = readNumber (c :: cs) := by
  have hword : words.find? (·.1.isPrefixOf (c :: cs)) = none := by
    rw [List.find?_eq_none]
    intro word hword hprefix
    -- each of the words begins with a letter or a sign
    have hhead : ∀ d ds, List.isPrefixOf (d :: ds) (c :: cs) = true → d.isDigit = true := by
      intro d ds h
      obtain ⟨rfl, -⟩ := List.cons_prefix_cons.mp (List.isPrefixOf_iff_prefix.mp h)
      exact hc
    simp only [words, List.mem_cons, List.not_mem_nil, or_false] at hword
    rcases hword with rfl | rfl | rfl | rfl | rfl | rfl <;>
      exact absurd (hhead _ _ hprefix) (by decide)
  have hdigit : ∀ d : Char, d.isDigit = false → some c ≠ some d := by
    rintro d hd ⟨⟩
    rw [hc] at hd
    cases hd
  rw [readValue, List.head?_cons]
  split
  case h_1 heq => exact absurd heq (hdigit _ (by decide))
  case h_2 heq => exact absurd heq (hdigit _ (by decide))
  case h_3 heq => exact absurd heq (hdigit _ (by decide))
  case h_4 => rw [readAtom, hword]

/-- **A value is read back.** -/
theorem readValue_render (fuel : ℕ) (v : Scalar) {rest : List Char} (hrest : Delimited rest) :
    readValue (fuel + 1) (v.render ++ rest) = some (v.data, rest) := by
  cases v with
  | str s => exact Json.readValue_render fuel (.str s) rest
  | num n =>
      obtain ⟨c, cs, hcs, hc⟩ := exists_render_append n rest
      show readValue (fuel + 1) (n.render ++ rest) = _
      rw [hcs, readValue_digit fuel hc, ← hcs, readNumber_render n hrest]
      rfl

/-- **The members of an object are read back.** -/
theorem readMembers_renderMembers (fuel : ℕ) {o : Object} (ho : o ≠ []) (h : o.length < fuel)
    (rest : List Char) :
    readMembers fuel (renderMembers o ++ '\x7d' :: rest) =
      some (o.map fun member => (member.1, member.2.data), rest) := by
  induction o generalizing fuel with
  | nil => exact absurd rfl ho
  | cons member o ih =>
      obtain ⟨k, v⟩ := member
      obtain ⟨fuel, rfl⟩ : ∃ n, fuel = n + 2 := ⟨fuel - 2, by simp at h; omega⟩
      cases o with
      | nil =>
          have htext : renderMembers [(k, v)] ++ '\x7d' :: rest =
              quote k ++ ':' :: ' ' :: (v.render ++ '\x7d' :: rest) := by
            simp [renderMembers]
          have hdel : Delimited ('\x7d' :: rest) := fun c hc => .inr (by simpa using hc.symm)
          rw [htext, readMembers, readQuoted_quote]
          simp only [Option.pure_def, Option.bind_eq_bind, Option.bind_some,
            skipSpace_cons (c := ':') (by decide), expect, if_true, skipSpace_blank,
            skipSpace_render, readValue_render fuel v hdel,
            skipSpace_cons (c := '\x7d') (by decide), List.head?_cons, List.tail_cons,
            List.map_cons, List.map_nil]
      | cons member' o =>
          have htext : renderMembers ((k, v) :: member' :: o) ++ '\x7d' :: rest =
              quote k ++ ':' :: ' ' ::
                (v.render ++ ',' :: ' ' :: (renderMembers (member' :: o) ++ '\x7d' :: rest)) := by
            simp [renderMembers]
          have hdel : Delimited
              (',' :: ' ' :: (renderMembers (member' :: o) ++ '\x7d' :: rest)) :=
            fun c hc => .inl (by simpa using hc.symm)
          have hnext : skipSpace (renderMembers (member' :: o) ++ '\x7d' :: rest) =
              renderMembers (member' :: o) ++ '\x7d' :: rest := by
            cases o <;> simp only [renderMembers, List.append_assoc] <;> exact skipSpace_quote _ _
          have hread := ih (fuel + 1) (List.cons_ne_nil _ _) (by simp at h ⊢; omega)
          rw [htext, readMembers, readQuoted_quote]
          simp only [Option.pure_def, Option.bind_eq_bind, Option.bind_some,
            skipSpace_cons (c := ':') (by decide), expect, if_true, skipSpace_blank,
            skipSpace_render, readValue_render fuel v hdel,
            skipSpace_cons (c := ',') (by decide), List.head?_cons, hnext, hread, List.map_cons]
          rfl

/-- An object has no more members than its text has characters. -/
theorem length_le_renderMembers (o : Object) : o.length ≤ (renderMembers o).length := by
  induction o with
  | nil => exact le_refl 0
  | cons member o ih =>
      obtain ⟨k, v⟩ := member
      cases o with
      | nil => simp [renderMembers, quote]
      | cons member' o =>
          simp only [renderMembers, List.length_append, List.length_cons] at ih ⊢
          omega

/-- **Reading inverts writing.** -/
theorem loads_dumps (o : Object) : loads (dumps o) = some o.data := by
  have hchars : (dumps o).toList = '\x7b' :: (renderMembers o ++ ['\x7d']) := String.toList_ofList
  rw [loads, hchars, skipSpace_cons (by decide)]
  cases o with
  | nil => rfl
  | cons member o =>
      have hlen := length_le_renderMembers (member :: o)
      obtain ⟨text, htext⟩ : ∃ text, renderMembers (member :: o) ++ ['\x7d'] = '"' :: text := by
        obtain ⟨k, v⟩ := member
        cases o <;> simp [renderMembers, quote]
      have hread := readMembers_renderMembers
        ('\x7b' :: (renderMembers (member :: o) ++ ['\x7d'])).length (List.cons_ne_nil member o)
        (by
          simp only [List.length_cons, List.length_append] at hlen ⊢
          omega) []
      rw [readValue]
      simp only [List.head?_cons, List.tail_cons, htext, skipSpace_cons (c := '"') (by decide)]
        at hread ⊢
      rw [hread]
      rfl

/-! ## Dictionaries

An object whose members are the values of a function at the keys that have one. -/

section Dictionary

variable {keys : List String} {f g : String → Option Scalar}

/-- The members of `f` in the order of `keys`. -/
def ofKeys (keys : List String) (f : String → Option Scalar) : Object :=
  keys.flatMap fun key => ((f key).map fun v => (key, v)).toList

theorem mem_ofKeys {key : String} {v : Scalar} :
    (key, v) ∈ ofKeys keys f ↔ key ∈ keys ∧ f key = some v := by
  simp only [ofKeys, List.mem_flatMap, Option.mem_toList, Option.map_eq_some_iff,
    Prod.mk.injEq]
  constructor
  · rintro ⟨k, hk, w, hw, rfl, rfl⟩
    exact ⟨hk, hw⟩
  · rintro ⟨hk, hv⟩
    exact ⟨key, hk, v, hv, rfl, rfl⟩

/-- **The dictionary is the function.** -/
theorem get?_data_ofKeys (hkeys : ∀ key, f key ≠ none → key ∈ keys) (key : String) :
    (ofKeys keys f).data.get? key = (f key).map Scalar.data := by
  have hmem : ∀ {k : String} {w : Data},
      (k, w) ∈ ((ofKeys keys f).map fun member => (member.1, member.2.data)) ↔
        ∃ v, (k, v) ∈ ofKeys keys f ∧ v.data = w := by
    intro k w
    simp only [List.mem_map, Prod.exists, Prod.mk.injEq]
    constructor
    · rintro ⟨k', v, hv, rfl, rfl⟩
      exact ⟨v, hv, rfl⟩
    · rintro ⟨v, hv, rfl⟩
      exact ⟨k, v, hv, rfl, rfl⟩
  rw [Object.data, Data.get?]
  cases hfind : List.find? (fun member => decide (member.1 = key))
      ((ofKeys keys f).map fun member => (member.1, member.2.data)).reverse with
  | none =>
      cases hf : f key with
      | none => rfl
      | some v =>
          have hv : (key, v) ∈ ofKeys keys f := mem_ofKeys.mpr ⟨hkeys key (by simp [hf]), hf⟩
          have hnone := List.find?_eq_none.mp hfind (key, v.data)
            (List.mem_reverse.mpr (hmem.mpr ⟨v, hv, rfl⟩))
          exact absurd (decide_eq_true rfl) hnone
  | some member =>
      obtain ⟨k, w⟩ := member
      obtain rfl : k = key := by simpa using List.find?_some hfind
      obtain ⟨v, hv, rfl⟩ := hmem.mp (List.mem_reverse.mp (List.mem_of_find?_eq_some hfind))
      rw [(mem_ofKeys.mp hv).2]
      rfl

/-- The text of a number determines it. -/
theorem Numeral.render_inj {m n : Numeral} (h : m.render = n.render) : m = n := by
  have hdel : Delimited [] := fun _ hc => by cases hc
  have hspan : ∀ k : Numeral, k.render.takeWhile Char.isDigit = Nat.toDigits 10 k.whole ∧
      k.render.dropWhile Char.isDigit = k.point := by
    intro k
    have hhead := head?_point k hdel
    rw [List.append_nil] at hhead
    exact Decimal.span_digits (isDigit_toDigits k.whole) hhead
  have hwhole : m.whole = n.whole := by
    have hdigits : Nat.toDigits 10 m.whole = Nat.toDigits 10 n.whole := by
      rw [← (hspan m).1, h, (hspan n).1]
    rw [← Nat.ofDigitChars_ten_toDigits (n := m.whole), hdigits, Nat.ofDigitChars_ten_toDigits]
  have hfraction : m.fraction = n.fraction :=
    Decimal.point_inj ((hspan m).2.symm.trans (h ▸ (hspan n).2))
  cases m
  cases n
  cases hwhole
  cases hfraction
  rfl

theorem Scalar.data_inj {v w : Scalar} (h : v.data = w.data) : v = w := by
  cases v <;> cases w <;> simp only [Scalar.data, Data.str.injEq, Data.number.injEq] at h
  case str.str => rw [h]
  case str.num => cases h
  case num.str => cases h
  case num.num => rw [Numeral.render_inj (String.ofList_injective h)]

/-- **Texts of dictionaries with the same order of keys are equal exactly for equal functions.** -/
theorem dumps_ofKeys_eq_iff (hf : ∀ key, f key ≠ none → key ∈ keys)
    (hg : ∀ key, g key ≠ none → key ∈ keys) :
    dumps (ofKeys keys f) = dumps (ofKeys keys g) ↔ ∀ key, f key = g key := by
  constructor
  · intro h key
    have hdata : (ofKeys keys f).data = (ofKeys keys g).data := by
      have hread := loads_dumps (ofKeys keys f)
      rw [h, loads_dumps] at hread
      exact (Option.some.inj hread).symm
    have hget := congrArg (Data.get? key) hdata
    rw [get?_data_ofKeys hf, get?_data_ofKeys hg] at hget
    exact Option.map_injective (fun _ _ => Scalar.data_inj) hget
  · intro h
    rw [funext h]

end Dictionary

/-! ## Printable text -/

/-- The characters of ASCII that are shown. -/
def Printable (c : Char) : Prop := ' ' ≤ c ∧ c ≤ '~'

instance (c : Char) : Decidable (Printable c) := inferInstanceAs (Decidable (_ ∧ _))

/-- A line break is no printable character. -/
theorem not_printable_newline : ¬ Printable '\n' := by decide

theorem printable_of_isDigit {c : Char} (h : c.isDigit = true) : Printable c := by
  simp only [Char.isDigit, Bool.and_eq_true, decide_eq_true_eq] at h
  have hzero : '0' ≤ c := h.1
  have hnine : c ≤ '9' := h.2
  exact ⟨Char.le_trans (by decide) hzero, Char.le_trans hnine (by decide)⟩

theorem printable_of_isHex {c : Char} (h : Text.IsHex c) : Printable c := by
  have hmem : c ∈ ['0', '1', '2', '3', '4', '5', '6', '7', '8', '9', 'a', 'b', 'c', 'd', 'e',
    'f'] := h
  simp only [List.mem_cons, List.not_mem_nil, or_false] at hmem
  rcases hmem with rfl | rfl | rfl | rfl | rfl | rfl | rfl | rfl | rfl | rfl | rfl | rfl | rfl |
    rfl | rfl | rfl <;> decide

/-- A backslash and a letter. -/
theorem printable_pair {c : Char} (h : Printable c) : ∀ x ∈ ['\\', c], Printable x := by
  intro x hx
  rcases List.mem_pair.mp hx with rfl | rfl
  · decide
  · exact h

theorem printable_hexEscape (n : ℕ) : ∀ x ∈ hexEscape n, Printable x := by
  intro x hx
  simp only [hexEscape, List.mem_cons] at hx
  rcases hx with rfl | rfl | hx
  · decide
  · decide
  · exact printable_of_isHex (Text.isHex_of_mem_hexDigits hx)

/-- **Every character is escaped to printable ones.** -/
theorem printable_escape (c : Char) : ∀ x ∈ escape c, Printable x := by
  intro x hx
  unfold escape at hx
  split at hx
  · exact printable_pair (by decide) x hx
  split at hx
  · exact printable_pair (by decide) x hx
  split at hx
  · exact printable_pair (by decide) x hx
  split at hx
  · exact printable_pair (by decide) x hx
  split at hx
  · exact printable_pair (by decide) x hx
  split at hx
  · exact printable_pair (by decide) x hx
  split at hx
  · exact printable_pair (by decide) x hx
  split at hx
  case isTrue hascii =>
    obtain rfl : x = c := by simpa using hx
    exact hascii
  split at hx
  · exact printable_hexEscape _ x hx
  · rcases List.mem_append.mp hx with hx | hx <;> exact printable_hexEscape _ x hx

theorem printable_quote (s : String) : ∀ x ∈ quote s, Printable x := by
  intro x hx
  simp only [quote, List.mem_cons, List.mem_append, List.mem_flatMap, List.not_mem_nil,
    or_false] at hx
  rcases hx with rfl | ⟨c, -, hx⟩ | rfl
  · decide
  · exact printable_escape c x hx
  · decide

theorem printable_render (v : Scalar) : ∀ x ∈ v.render, Printable x := by
  cases v with
  | str s => exact printable_quote s
  | num n =>
      intro x hx
      rcases List.mem_append.mp hx with hx | hx
      · exact printable_of_isDigit (isDigit_toDigits n.whole x hx)
      · unfold Numeral.point at hx
        split at hx
        · cases hx
        · rcases List.mem_cons.mp hx with rfl | hx
          · decide
          · exact printable_of_isDigit (n.digits x hx)

theorem printable_renderMembers (o : Object) : ∀ x ∈ renderMembers o, Printable x := by
  have hmember : ∀ (k : String) (v : Scalar), ∀ x ∈ quote k ++ ':' :: ' ' :: v.render,
      Printable x := by
    intro k v x hx
    simp only [List.mem_append, List.mem_cons] at hx
    rcases hx with hx | rfl | rfl | hx
    · exact printable_quote k x hx
    · decide
    · decide
    · exact printable_render v x hx
  induction o with
  | nil => exact fun x hx => absurd hx List.not_mem_nil
  | cons member o ih =>
      obtain ⟨k, v⟩ := member
      cases o with
      | nil => exact hmember k v
      | cons member' o =>
          intro x hx
          have htext : renderMembers ((k, v) :: member' :: o) =
              (quote k ++ ':' :: ' ' :: v.render) ++
                ',' :: ' ' :: renderMembers (member' :: o) := by
            simp [renderMembers]
          rw [htext, List.mem_append, List.mem_cons, List.mem_cons] at hx
          rcases hx with hx | rfl | rfl | hx
          · exact hmember k v x hx
          · decide
          · decide
          · exact ih x hx

/-- **An object is written on one line.** -/
theorem newline_notMem_dumps (o : Object) : '\n' ∉ (dumps o).toList := by
  intro h
  rw [dumps, String.toList_ofList, List.mem_cons, List.mem_append, List.mem_singleton] at h
  rcases h with h | h | h
  · exact absurd h (by decide)
  · exact not_printable_newline (printable_renderMembers o '\n' h)
  · exact absurd h (by decide)

/-! ## Lines -/

/-- What a writer leaves that ends every line. -/
def written (texts : List String) : String :=
  .ofList (texts.flatMap fun text => text.toList ++ ['\n'])

/-- The lines of a text; what follows the last line break is no line. -/
def lines (text : String) : List String := (text.toList.splitOn '\n').dropLast.map .ofList

theorem splitOn_flatMap {texts : List (List Char)} (h : ∀ text ∈ texts, '\n' ∉ text) :
    (texts.flatMap fun text => text ++ ['\n']).splitOn '\n' = texts ++ [[]] := by
  have hflat : (texts.flatMap fun text => text ++ ['\n']) =
      ['\n'].intercalate (texts ++ [[]]) := by
    induction texts with
    | nil => rfl
    | cons text texts ih =>
        rw [List.flatMap_cons, ih fun t ht => h t (List.mem_cons_of_mem _ ht), List.cons_append]
        cases texts <;> simp [List.intercalate, List.intersperse]
  rw [hflat, List.splitOn_intercalate]
  · intro l hl
    rcases List.mem_append.mp hl with hl | hl
    · exact h l hl
    · rw [List.mem_singleton.mp hl]
      exact List.not_mem_nil
  · exact List.append_ne_nil_of_right_ne_nil _ (List.cons_ne_nil _ _)

/-- **A stream is cut where its writer ended the lines.** -/
theorem lines_written {texts : List String} (h : ∀ text ∈ texts, '\n' ∉ text.toList) :
    lines (written texts) = texts := by
  have hchars : ∀ text ∈ texts.map String.toList, '\n' ∉ text := by simpa using h
  have hsplit := splitOn_flatMap hchars
  rw [List.flatMap_map] at hsplit
  rw [lines, written, String.toList_ofList, hsplit, List.dropLast_concat, List.map_map]
  simp

end JsonLines
