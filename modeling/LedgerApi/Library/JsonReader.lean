import LedgerApi.Library.Json

/-! # Reading JSON

`json.loads`: the values of JSON with white space between tokens, nested to any depth; numbers are
kept as their text. A `\u` escape of a surrogate without its partner, which Python reads as that
code point, is no character and is not read here.

Reading inverts writing (`loads_dumps`): the text of an object of strings and nulls is read back as
that object. -/

namespace Json

/-- What `json.loads` returns. -/
inductive Data
  | null
  | bool (b : Bool)
  | number (text : String)
  | str (s : String)
  | array (items : List Data)
  | object (members : List (String × Data))

/-- `get` of a dictionary: of two members with one key the later counts. -/
def Data.get? (key : String) : Data → Option Data
  | .object members => (members.reverse.find? (·.1 = key)).map Prod.snd
  | _ => none

/-! ## The reader -/

/-- White space between tokens. -/
def isSpace (c : Char) : Bool := c = ' ' || c = '\t' || c = '\n' || c = '\r'

/-- The text after white space. -/
def skipSpace (cs : List Char) : List Char := cs.dropWhile isSpace

/-- What follows an expected character. -/
def expect (c : Char) : List Char → Option (List Char)
  | [] => none
  | d :: cs => if d = c then some cs else none

/-- A quoted string and what follows it. -/
def readQuoted (cs : List Char) : Option (String × List Char) := do
  let cs ← expect '"' cs
  let (s, rest) ← readString (cs.length + 1) cs
  return (.ofList s, rest)

/-- The digits before the point: a zero alone, or digits that do not begin with it. -/
def readWhole (cs : List Char) : Option (List Char × List Char) :=
  let digits := cs.takeWhile Char.isDigit
  if digits = [] then none
  else if digits.head? = some '0' then some (['0'], cs.tail)
  else some (digits, cs.dropWhile Char.isDigit)

/-- The point and the digits after it, if both are there. -/
def readFraction (cs : List Char) : List Char × List Char :=
  match cs with
  | '.' :: rest =>
      if rest.takeWhile Char.isDigit = [] then ([], cs)
      else ('.' :: rest.takeWhile Char.isDigit, rest.dropWhile Char.isDigit)
  | _ => ([], cs)

/-- A sign, if there is one. -/
def readSign (cs : List Char) : List Char × List Char :=
  match cs with
  | '-' :: rest => (['-'], rest)
  | '+' :: rest => (['+'], rest)
  | _ => ([], cs)

/-- The exponent, if there is one. -/
def readExponent (cs : List Char) : List Char × List Char :=
  match cs with
  | [] => ([], cs)
  | e :: rest =>
      let (sign, digits) := readSign rest
      if (e = 'e' ∨ e = 'E') ∧ digits.takeWhile Char.isDigit ≠ [] then
        (e :: (sign ++ digits.takeWhile Char.isDigit), digits.dropWhile Char.isDigit)
      else ([], cs)

/-- A number. -/
def readNumber (cs : List Char) : Option (Data × List Char) := do
  let (sign, cs) := if cs.head? = some '-' then (['-'], cs.tail) else ([], cs)
  let (whole, cs) ← readWhole cs
  let (fraction, cs) := readFraction cs
  let (exponent, cs) := readExponent cs
  return (.number (.ofList (sign ++ whole ++ fraction ++ exponent)), cs)

/-- The words that are values, `NaN` and the infinities among them. -/
def words : List (List Char × Data) :=
  [("null".toList, .null), ("true".toList, .bool true), ("false".toList, .bool false),
    ("NaN".toList, .number "NaN"), ("Infinity".toList, .number "Infinity"),
    ("-Infinity".toList, .number "-Infinity")]

/-- A word or a number. -/
def readAtom (cs : List Char) : Option (Data × List Char) :=
  match words.find? (·.1.isPrefixOf cs) with
  | some (word, value) => some (value, cs.drop word.length)
  | none => readNumber cs

mutual

/-- A value and what follows it. -/
def readValue : ℕ → List Char → Option (Data × List Char)
  | 0, _ => none
  | fuel + 1, cs =>
      match cs.head? with
      | some '"' => (readQuoted cs).map fun (s, rest) => (.str s, rest)
      | some '\x7b' =>
          let cs := skipSpace cs.tail
          if cs.head? = some '\x7d' then some (.object [], cs.tail)
          else (readMembers fuel cs).map fun (members, rest) => (.object members, rest)
      | some '[' =>
          let cs := skipSpace cs.tail
          if cs.head? = some ']' then some (.array [], cs.tail)
          else (readItems fuel cs).map fun (items, rest) => (.array items, rest)
      | _ => readAtom cs

/-- The members of an object up to its end. -/
def readMembers : ℕ → List Char → Option (List (String × Data) × List Char)
  | 0, _ => none
  | fuel + 1, cs => do
      let (key, cs) ← readQuoted cs
      let cs ← expect ':' (skipSpace cs)
      let (value, cs) ← readValue fuel (skipSpace cs)
      let cs := skipSpace cs
      if cs.head? = some '\x7d' then return ([(key, value)], cs.tail)
      else
        let cs ← expect ',' cs
        let (members, rest) ← readMembers fuel (skipSpace cs)
        return ((key, value) :: members, rest)

/-- The items of an array up to its end. -/
def readItems : ℕ → List Char → Option (List Data × List Char)
  | 0, _ => none
  | fuel + 1, cs => do
      let (value, cs) ← readValue fuel cs
      let cs := skipSpace cs
      if cs.head? = some ']' then return ([value], cs.tail)
      else
        let cs ← expect ',' cs
        let (items, rest) ← readItems fuel (skipSpace cs)
        return (value :: items, rest)

end

/-- `json.loads`. -/
def loads (text : String) : Option Data := do
  let (value, rest) ← readValue (text.toList.length + 1) (skipSpace text.toList)
  if skipSpace rest = [] then return value else none

/-! ## Reading what was written -/

/-- A written value as it is read. -/
def Value.data : Value → Data
  | .null => .null
  | .str s => .str s

/-- Text that does not begin with white space. -/
theorem skipSpace_cons {c : Char} (h : isSpace c = false) (cs : List Char) :
    skipSpace (c :: cs) = c :: cs := by
  rw [skipSpace, List.dropWhile_cons, h]
  rfl

/-- A blank is skipped. -/
theorem skipSpace_blank (cs : List Char) : skipSpace (' ' :: cs) = skipSpace cs := rfl

/-- Every character has an escape. -/
theorem escape_ne_nil (c : Char) : escape c ≠ [] := by
  intro h
  have hread := readChar_escape c []
  rw [h] at hread
  cases hread

/-- A string is no longer than its escapes. -/
theorem length_le_flatMap_escape (s : List Char) : s.length ≤ (s.flatMap escape).length := by
  induction s with
  | nil => exact le_refl 0
  | cons c s ih =>
      have hc := List.length_pos_of_ne_nil (escape_ne_nil c)
      rw [List.flatMap_cons, List.length_append, List.length_cons]
      omega

/-- A quoted string is read back. -/
theorem readQuoted_quote (s : String) (rest : List Char) :
    readQuoted (quote s ++ rest) = some (s, rest) := by
  have htext : quote s ++ rest = '"' :: (s.toList.flatMap escape ++ '"' :: rest) := by
    simp [quote]
  have hlen := length_le_flatMap_escape s.toList
  rw [htext, readQuoted, expect, if_pos rfl]
  simp only [Option.pure_def, Option.bind_eq_bind, Option.bind_some]
  rw [readString_escape (by rw [List.length_append]; omega)]
  simp

/-- A quoted string begins with a quote, which is no white space. -/
theorem skipSpace_quote (s : String) (rest : List Char) :
    skipSpace (quote s ++ rest) = quote s ++ rest :=
  skipSpace_cons (by decide) _

/-- So does a value, or with a letter. -/
theorem skipSpace_render (v : Value) (rest : List Char) :
    skipSpace (v.render ++ rest) = v.render ++ rest := by
  cases v with
  | null => exact skipSpace_cons (by decide) _
  | str s => exact skipSpace_quote s rest

/-- **A value is read back.** -/
theorem readValue_render (fuel : ℕ) (v : Value) (rest : List Char) :
    readValue (fuel + 1) (v.render ++ rest) = some (v.data, rest) := by
  cases v with
  | null => rfl
  | str s =>
      have hread := readQuoted_quote s rest
      show (readQuoted (quote s ++ rest)).map _ = _
      rw [hread]
      rfl

/-- **The members of an object are read back.** -/
theorem readMembers_renderMembers (fuel : ℕ) {o : Object} (ho : o ≠ []) (h : o.length < fuel)
    (rest : List Char) :
    readMembers fuel (renderMembers o ++ '\x7d' :: rest) =
      some (o.map fun member => (member.1, member.2.data), rest) := by
  induction o generalizing fuel with
  | nil => exact absurd rfl ho
  | cons member o ih =>
      obtain ⟨k, v⟩ := member
      obtain ⟨fuel, rfl⟩ : ∃ n, fuel = n + 2 := ⟨fuel - 2, by simp at h; omega⟩
      cases o with
      | nil =>
          have htext : renderMembers [(k, v)] ++ '\x7d' :: rest =
              quote k ++ ':' :: ' ' :: (v.render ++ '\x7d' :: rest) := by
            simp [renderMembers]
          rw [htext, readMembers, readQuoted_quote]
          simp only [Option.pure_def, Option.bind_eq_bind, Option.bind_some,
            skipSpace_cons (c := ':') (by decide), expect, if_true, skipSpace_blank,
            skipSpace_render, readValue_render, skipSpace_cons (c := '\x7d') (by decide),
            List.head?_cons, List.tail_cons, List.map_cons, List.map_nil]
      | cons member' o =>
          have htext : renderMembers ((k, v) :: member' :: o) ++ '\x7d' :: rest =
              quote k ++ ':' :: ' ' ::
                (v.render ++ ',' :: ' ' :: (renderMembers (member' :: o) ++ '\x7d' :: rest)) := by
            simp [renderMembers]
          have hnext : skipSpace (renderMembers (member' :: o) ++ '\x7d' :: rest) =
              renderMembers (member' :: o) ++ '\x7d' :: rest := by
            cases o <;> simp only [renderMembers, List.append_assoc] <;> exact skipSpace_quote _ _
          have hread := ih (fuel + 1) (List.cons_ne_nil _ _) (by simp at h ⊢; omega)
          rw [htext, readMembers, readQuoted_quote]
          simp only [Option.pure_def, Option.bind_eq_bind, Option.bind_some,
            skipSpace_cons (c := ':') (by decide), expect, if_true, skipSpace_blank,
            skipSpace_render, readValue_render, skipSpace_cons (c := ',') (by decide),
            List.head?_cons, hnext, hread, List.map_cons]
          rfl

/-- An object has no more members than its text has characters. -/
theorem length_le_renderMembers (o : Object) : o.length ≤ (renderMembers o).length := by
  induction o with
  | nil => exact le_refl 0
  | cons member o ih =>
      obtain ⟨k, v⟩ := member
      cases o with
      | nil => simp [renderMembers, quote]
      | cons member' o =>
          simp only [renderMembers, List.length_append, List.length_cons] at ih ⊢
          omega

/-- **Reading inverts writing.** -/
theorem loads_dumps (o : Object) :
    loads (dumps o) = some (.object (o.map fun member => (member.1, member.2.data))) := by
  have hchars : (dumps o).toList = '\x7b' :: (renderMembers o ++ ['\x7d']) := String.toList_ofList
  rw [loads, hchars, skipSpace_cons (by decide)]
  cases o with
  | nil => rfl
  | cons member o =>
      have hlen := length_le_renderMembers (member :: o)
      have hnext : skipSpace (renderMembers (member :: o) ++ ['\x7d']) =
          renderMembers (member :: o) ++ ['\x7d'] := by
        obtain ⟨k, v⟩ := member
        cases o <;> simp only [renderMembers, List.append_assoc] <;> exact skipSpace_quote _ _
      have hhead : (renderMembers (member :: o) ++ ['\x7d']).head? ≠ some '\x7d' := by
        obtain ⟨k, v⟩ := member
        cases o <;> simp [renderMembers, quote]
      have hread := readMembers_renderMembers
        ('\x7b' :: (renderMembers (member :: o) ++ ['\x7d'])).length (List.cons_ne_nil member o)
        (by
          simp only [List.length_cons, List.length_append] at hlen ⊢
          omega) []
      rw [readValue]
      simp only [List.head?_cons, List.tail_cons, hnext, if_neg hhead, hread]
      rfl

end Json
