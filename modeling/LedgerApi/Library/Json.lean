import Mathlib.Data.List.Sort
import LedgerApi.Library.Text

/-! # JSON objects of strings

The part of `json.dumps` that programs use which serialise flat objects of strings and nulls: ASCII
output with `\u` escapes (surrogate pairs beyond the basic plane), members in the order of the
object or sorted by key.

A reader for quoted strings inverts the writer (`readString_escape`), which makes every quoted
string self-delimiting, and with it the whole text: objects with the same keys have the same text
only if they are the same (`dumps_inj`). -/

namespace Json

/-- The values of the objects. -/
inductive Value
  | null
  | str (s : String)
  deriving DecidableEq, Repr

/-- An object, its members in order. -/
abbrev Object := List (String × Value)

/-! ## Strings -/

/-- `\uXXXX`. -/
def hexEscape (n : ℕ) : List Char := '\\' :: 'u' :: Text.hexDigits 4 n

/-- A character inside a quoted string. -/
def escape (c : Char) : List Char :=
  if c = '"' then ['\\', '"']
  else if c = '\\' then ['\\', '\\']
  else if c = '\n' then ['\\', 'n']
  else if c = '\r' then ['\\', 'r']
  else if c = '\t' then ['\\', 't']
  else if c = '\x0c' then ['\\', 'f']
  else if c = '\x08' then ['\\', 'b']
  else if ' ' ≤ c ∧ c ≤ '~' then [c]
  else if c.toNat < 0x10000 then hexEscape c.toNat
  else
    -- a surrogate pair
    let n := c.toNat - 0x10000
    hexEscape (0xd800 + n / 0x400) ++ hexEscape (0xdc00 + n % 0x400)

/-- A quoted string. -/
def quote (s : String) : List Char := '"' :: (s.toList.flatMap escape ++ ['"'])

/-- Four hexadecimal digits and what follows them. -/
def readHex4 (cs : List Char) : Option (ℕ × List Char) :=
  if (cs.take 4).length = 4 then (Text.readHex 0 (cs.take 4)).map fun n => (n, cs.drop 4) else none

/-- The character a one-letter escape stands for. -/
def unescape : Char → Option Char
  | '"' => some '"'
  | '\\' => some '\\'
  | '/' => some '/'
  | 'b' => some '\x08'
  | 'f' => some '\x0c'
  | 'n' => some '\n'
  | 'r' => some '\r'
  | 't' => some '\t'
  | _ => none

/-- The character a `\u` escape stands for, from the text after the `u`. -/
def readUnicode (cs : List Char) : Option (Char × List Char) :=
  (readHex4 cs).bind fun (n, rest) =>
    if 0xd800 ≤ n ∧ n < 0xe000 then
      match rest with
      | '\\' :: 'u' :: rest => (readHex4 rest).bind fun (m, rest) =>
          if n < 0xdc00 ∧ 0xdc00 ≤ m ∧ m < 0xe000 then
            some (Char.ofNat (0x10000 + (n - 0xd800) * 0x400 + (m - 0xdc00)), rest)
          else none
      | _ => none
    else some (Char.ofNat n, rest)

/-- One character of a quoted string and what follows it. -/
def readChar : List Char → Option (Char × List Char)
  | [] => none
  | c :: rest =>
      if c = '\\' then
        match rest with
        | [] => none
        | d :: rest => if d = 'u' then readUnicode rest else (unescape d).map fun c => (c, rest)
      else if c = '"' ∨ c < ' ' then none
      else some (c, rest)

/-- The characters of a quoted string up to its closing quote, and what follows that. -/
def readString : ℕ → List Char → Option (List Char × List Char)
  | 0, _ => none
  | fuel + 1, cs =>
      if cs.head? = some '"' then some ([], cs.tail)
      else (readChar cs).bind fun (c, rest) =>
        (readString fuel rest).map fun (s, rest) => (c :: s, rest)

theorem readHex4_hexDigits (n : ℕ) (h : n < 0x10000) (rest : List Char) :
    readHex4 (Text.hexDigits 4 n ++ rest) = some (n, rest) := by
  have htake : (Text.hexDigits 4 n ++ rest).take 4 = Text.hexDigits 4 n :=
    List.take_left' (Text.length_hexDigits 4 n)
  have hdrop : (Text.hexDigits 4 n ++ rest).drop 4 = rest :=
    List.drop_left' (Text.length_hexDigits 4 n)
  rw [readHex4, htake, hdrop, if_pos (Text.length_hexDigits 4 n), Text.readHex_hexDigits, zero_mul,
    zero_add, Nat.mod_eq_of_lt (by simpa using h)]
  rfl

/-- Code points are below the end of the last plane and no surrogates. -/
theorem toNat_char (c : Char) : c.toNat < 0xd800 ∨ (0xdfff < c.toNat ∧ c.toNat < 0x110000) :=
  c.valid

theorem readUnicode_basic {n : ℕ} (h : n < 0x10000) (hs : ¬ (0xd800 ≤ n ∧ n < 0xe000))
    (rest : List Char) :
    readUnicode (Text.hexDigits 4 n ++ rest) = some (Char.ofNat n, rest) := by
  rw [readUnicode, readHex4_hexDigits n h, Option.bind_some]
  exact if_neg hs

theorem readUnicode_pair {n m : ℕ} (hn : 0xd800 ≤ n ∧ n < 0xdc00) (hm : 0xdc00 ≤ m ∧ m < 0xe000)
    (rest : List Char) :
    readUnicode (Text.hexDigits 4 n ++ (hexEscape m ++ rest)) =
      some (Char.ofNat (0x10000 + (n - 0xd800) * 0x400 + (m - 0xdc00)), rest) := by
  rw [readUnicode, readHex4_hexDigits n (by omega), Option.bind_some]
  dsimp only
  rw [if_pos (by omega)]
  show (readHex4 (Text.hexDigits 4 m ++ rest)).bind _ = _
  rw [readHex4_hexDigits m (by omega), Option.bind_some]
  exact if_pos ⟨hn.2, hm⟩

/-- Reading a character inverts escaping it. -/
theorem readChar_escape (c : Char) (rest : List Char) :
    readChar (escape c ++ rest) = some (c, rest) := by
  have hc := toNat_char c
  unfold escape
  by_cases h1 : c = '"'
  · subst h1; rfl
  by_cases h2 : c = '\\'
  · subst h2; rfl
  by_cases h3 : c = '\n'
  · subst h3; rfl
  by_cases h4 : c = '\r'
  · subst h4; rfl
  by_cases h5 : c = '\t'
  · subst h5; rfl
  by_cases h6 : c = '\x0c'
  · subst h6; rfl
  by_cases h7 : c = '\x08'
  · subst h7; rfl
  rw [if_neg h1, if_neg h2, if_neg h3, if_neg h4, if_neg h5, if_neg h6, if_neg h7]
  by_cases hascii : ' ' ≤ c ∧ c ≤ '~'
  · rw [if_pos hascii, List.singleton_append, readChar.eq_def]
    dsimp only
    rw [if_neg h2, if_neg]
    rintro (h | h)
    · exact h1 h
    · exact absurd hascii.1 (Char.not_le.mpr h)
  rw [if_neg hascii]
  by_cases hbmp : c.toNat < 0x10000
  · rw [if_pos hbmp, hexEscape, List.cons_append, List.cons_append, readChar, if_pos rfl]
    exact (readUnicode_basic hbmp (by omega) rest).trans (by rw [Char.ofNat_toNat])
  · -- the two surrogates carry the upper and the lower ten bits
    rw [if_neg hbmp, List.append_assoc, hexEscape, List.cons_append, List.cons_append, readChar,
      if_pos rfl]
    refine (readUnicode_pair (by omega) (by omega) rest).trans ?_
    have hn : 0x10000 + (0xd800 + (c.toNat - 0x10000) / 0x400 - 0xd800) * 0x400 +
        (0xdc00 + (c.toNat - 0x10000) % 0x400 - 0xdc00) = c.toNat := by omega
    rw [hn, Char.ofNat_toNat]

/-- No escaped character begins with a quote. -/
theorem head?_escape (c : Char) (rest : List Char) : (escape c ++ rest).head? ≠ some '"' := by
  intro h
  have hread := readChar_escape c rest
  cases htext : escape c ++ rest with
  | nil => rw [htext] at h; cases h
  | cons d ds =>
      rw [htext] at h hread
      obtain rfl : d = '"' := by simpa using h
      cases hread

/-- **Reading a string inverts escaping it.** -/
theorem readString_escape {fuel : ℕ} {s : List Char} (h : s.length < fuel) (rest : List Char) :
    readString fuel (s.flatMap escape ++ '"' :: rest) = some (s, rest) := by
  induction s generalizing fuel with
  | nil =>
      cases fuel with
      | zero => cases h
      | succ fuel => rfl
  | cons c s ih =>
      cases fuel with
      | zero => cases h
      | succ fuel =>
          rw [List.flatMap_cons, List.append_assoc, readString, if_neg (head?_escape c _),
            readChar_escape, Option.bind_some]
          dsimp only
          rw [ih (Nat.lt_of_succ_lt_succ h), Option.map_some]

/-- A quoted string ends where it ends. -/
theorem quote_append_inj {s t : String} {xs ys : List Char} (h : quote s ++ xs = quote t ++ ys) :
    s = t ∧ xs = ys := by
  simp only [quote, List.cons_append, List.append_assoc, List.nil_append, List.cons.injEq,
    true_and] at h
  have hs : readString (s.toList.length + t.toList.length + 1)
      (s.toList.flatMap escape ++ '"' :: xs) = some (s.toList, xs) :=
    readString_escape (by omega) xs
  rw [h, readString_escape (by omega) ys] at hs
  simp only [Option.some.injEq, Prod.mk.injEq] at hs
  exact ⟨String.toList_injective hs.1.symm, hs.2.symm⟩

/-! ## Objects -/

/-- A value. -/
def Value.render : Value → List Char
  | .null => ['n', 'u', 'l', 'l']
  | .str s => quote s

/-- The members of an object, with the default separators. -/
def renderMembers : Object → List Char
  | [] => []
  | [(k, v)] => quote k ++ ':' :: ' ' :: v.render
  | (k, v) :: member :: members =>
      quote k ++ ':' :: ' ' :: (v.render ++ ',' :: ' ' :: renderMembers (member :: members))

/-- `json.dumps` of an object. -/
def dumps (o : Object) : String := String.ofList ('\x7b' :: (renderMembers o ++ ['\x7d']))

/-- The members in the order of their keys, as `sort_keys` writes them. -/
def sortKeys (o : Object) : Object := o.insertionSort (fun m n => m.1 ≤ n.1)

/-- A value ends where it ends. -/
theorem render_append_inj {v w : Value} {xs ys : List Char} (h : v.render ++ xs = w.render ++ ys) :
    v = w ∧ xs = ys := by
  cases v <;> cases w
  case null.null => simpa [Value.render] using h
  case null.str => simp [Value.render, quote] at h
  case str.null => simp [Value.render, quote] at h
  case str.str s t =>
    obtain ⟨rfl, hxs⟩ := quote_append_inj h
    exact ⟨rfl, hxs⟩

theorem renderMembers_append_inj {o o' : Object} (hkeys : o.map Prod.fst = o'.map Prod.fst)
    {xs ys : List Char} (h : renderMembers o ++ xs = renderMembers o' ++ ys) :
    o = o' ∧ xs = ys := by
  induction o generalizing o' xs ys with
  | nil =>
      obtain rfl : o' = [] := List.map_eq_nil_iff.mp hkeys.symm
      exact ⟨rfl, h⟩
  | cons m o ih =>
      cases o' with
      | nil => cases hkeys
      | cons m' o' =>
          obtain ⟨k, v⟩ := m
          obtain ⟨k', v'⟩ := m'
          obtain ⟨rfl, htail⟩ : k = k' ∧ o.map Prod.fst = o'.map Prod.fst := by
            simpa using hkeys
          -- a last member is followed by nothing, any other by a comma
          cases o with
          | nil =>
              obtain rfl : o' = [] := List.map_eq_nil_iff.mp htail.symm
              simp only [renderMembers, List.append_assoc, List.append_cancel_left_eq,
                List.cons_append, List.cons.injEq, true_and] at h
              obtain ⟨rfl, hxs⟩ := render_append_inj h
              exact ⟨rfl, hxs⟩
          | cons n o =>
              cases o' with
              | nil => cases htail
              | cons n' o' =>
                  simp only [renderMembers, List.append_assoc, List.append_cancel_left_eq,
                    List.cons_append, List.cons.injEq, true_and] at h
                  obtain ⟨rfl, hrest⟩ := render_append_inj h
                  simp only [List.cons.injEq, true_and] at hrest
                  obtain ⟨hmembers, hxs⟩ := ih htail hrest
                  rw [hmembers]
                  exact ⟨rfl, hxs⟩

/-- **The text of an object determines it** among the objects with the same keys. -/
theorem dumps_inj {o o' : Object} (hkeys : o.map Prod.fst = o'.map Prod.fst)
    (h : dumps o = dumps o') : o = o' := by
  have hchars := String.ofList_injective h
  rw [List.cons.injEq] at hchars
  exact (renderMembers_append_inj hkeys hchars.2).1

/-- Lists with the same elements are equal when their keys are distinct and in the same order. -/
theorem eq_of_perm_of_map_eq {α β : Type*} {f : α → β} {xs ys : List α} (hperm : xs.Perm ys)
    (hmap : xs.map f = ys.map f) (hnodup : (xs.map f).Nodup) : xs = ys := by
  induction xs generalizing ys with
  | nil => exact hperm.nil_eq
  | cons x xs ih =>
      cases ys with
      | nil => cases hmap
      | cons y ys =>
          obtain ⟨hxy, htail⟩ := List.cons.inj hmap
          obtain ⟨hx, hnodup⟩ := List.nodup_cons.mp hnodup
          rcases List.mem_cons.mp (hperm.subset List.mem_cons_self) with rfl | hmem
          · rw [ih hperm.cons_inv htail hnodup]
          · exact absurd (htail ▸ List.mem_map_of_mem hmem) hx

/-- So does its text with sorted keys, when the keys are distinct. -/
theorem dumps_sortKeys_inj {o o' : Object} (hkeys : o.map Prod.fst = o'.map Prod.fst)
    (hnodup : (o.map Prod.fst).Nodup) (h : dumps (sortKeys o) = dumps (sortKeys o')) : o = o' := by
  -- sorting by key sorts the keys, whatever the values
  have hfst : ∀ p : Object, (sortKeys p).map Prod.fst = (p.map Prod.fst).insertionSort (· ≤ ·) :=
    fun p => List.map_insertionSort _ _ _ p fun _ _ _ _ => Iff.rfl
  have hsorted : sortKeys o = sortKeys o' := dumps_inj (by rw [hfst, hfst, hkeys]) h
  have hperm : o.Perm (sortKeys o') := hsorted ▸ (List.perm_insertionSort _ o).symm
  exact eq_of_perm_of_map_eq (hperm.trans (List.perm_insertionSort _ o')) hkeys hnodup

end Json
