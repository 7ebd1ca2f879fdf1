import LedgerApi.Library.Text

/-! # Hexadecimal digests and SHA-256

A `HexHash` is what a client of a 256-bit hash function relies on: a function from texts to
sixty-four lowercase hexadecimal characters. Results about hash chains are stated over an arbitrary
one, so that they hold of SHA-256 and need no property of it beyond the ones they name.

`sha256` is the instance itself, FIPS 180-4 over the UTF-8 bytes of a text with 32-bit words as
naturals below `2 ^ 32`; it evaluates, so that concrete payloads can be hashed. -/

/-- A hash function rendered in hexadecimal: every digest is 64 hexadecimal characters. -/
structure HexHash where
  /-- The digest of a text, as `hashlib`'s `hexdigest` renders it. -/
  hexdigest : String → String
  /-- A digest has 64 characters. -/
  length_hexdigest : ∀ text, (hexdigest text).toList.length = 64
  /-- A digest consists of lowercase hexadecimal characters. -/
  isHex_hexdigest : ∀ text, ∀ c ∈ (hexdigest text).toList, Text.IsHex c

/-- A text of sixty-four lowercase hexadecimal characters. -/
def IsDigest (text : String) : Prop :=
  text.length = 64 ∧ ∀ c ∈ text.toList, Text.IsHex c

theorem HexHash.isDigest_hexdigest (H : HexHash) (text : String) : IsDigest (H.hexdigest text) :=
  ⟨H.length_hexdigest text, H.isHex_hexdigest text⟩

/-- A digest contains no character that is not hexadecimal. -/
theorem IsDigest.not_mem {text : String} (h : IsDigest text) {c : Char} (hc : ¬ Text.IsHex c) :
    c ∉ text.toList := fun hmem => hc (h.2 c hmem)

/-- A text of sixty-four hexadecimal digits, of either case. -/
def IsHexText (text : String) : Prop :=
  text.length = 64 ∧ ∀ c ∈ text.toList, Text.IsHex c.toLower

/-- A digest is such a text. -/
theorem IsDigest.isHexText {text : String} (h : IsDigest text) : IsHexText text := by
  have hlower : "0123456789abcdef".toList.all (fun c => Text.IsHex c.toLower) := by decide
  exact ⟨h.1, fun c hc => of_decide_eq_true (List.all_eq_true.mp hlower c (h.2 c hc))⟩

/-- Such a text contains no character that is not hexadecimal. -/
theorem IsHexText.not_mem {text : String} (h : IsHexText text) {c : Char}
    (hc : ¬ Text.IsHex c.toLower) : c ∉ text.toList := fun hmem => hc (h.2 c hmem)

/-- No two texts of a collection collide. -/
def HexHash.CollisionFree (H : HexHash) (texts : List String) : Prop :=
  ∀ x ∈ texts, ∀ y ∈ texts, H.hexdigest x = H.hexdigest y → x = y

/-- Two texts with different digests do not collide. -/
theorem HexHash.collisionFree_pair {H : HexHash} {x y : String}
    (h : H.hexdigest x ≠ H.hexdigest y) : H.CollisionFree [x, y] := by
  intro a ha b hb heq
  rw [List.mem_pair] at ha hb
  rcases ha with rfl | rfl <;> rcases hb with rfl | rfl
  · rfl
  · exact absurd heq h
  · exact absurd heq.symm h
  · rfl

instance (H : HexHash) (texts : List String) : Decidable (H.CollisionFree texts) :=
  inferInstanceAs (Decidable (∀ x ∈ texts, ∀ y ∈ texts, _))

namespace Sha256

/-- The range of a 32-bit word. -/
def word : ℕ := 2 ^ 32

/-- Rotate a 32-bit word right. -/
def rotr (n x : ℕ) : ℕ := (x >>> n) ||| (x <<< (32 - n) % word)

/-- The round constants. -/
def roundConstants : List ℕ := [
  0x428a2f98, 0x71374491, 0xb5c0fbcf, 0xe9b5dba5, 0x3956c25b, 0x59f111f1, 0x923f82a4, 0xab1c5ed5,
  0xd807aa98, 0x12835b01, 0x243185be, 0x550c7dc3, 0x72be5d74, 0x80deb1fe, 0x9bdc06a7, 0xc19bf174,
  0xe49b69c1, 0xefbe4786, 0x0fc19dc6, 0x240ca1cc, 0x2de92c6f, 0x4a7484aa, 0x5cb0a9dc, 0x76f988da,
  0x983e5152, 0xa831c66d, 0xb00327c8, 0xbf597fc7, 0xc6e00bf3, 0xd5a79147, 0x06ca6351, 0x14292967,
  0x27b70a85, 0x2e1b2138, 0x4d2c6dfc, 0x53380d13, 0x650a7354, 0x766a0abb, 0x81c2c92e, 0x92722c85,
  0xa2bfe8a1, 0xa81a664b, 0xc24b8b70, 0xc76c51a3, 0xd192e819, 0xd6990624, 0xf40e3585, 0x106aa070,
  0x19a4c116, 0x1e376c08, 0x2748774c, 0x34b0bcb5, 0x391c0cb3, 0x4ed8aa4a, 0x5b9cca4f, 0x682e6ff3,
  0x748f82ee, 0x78a5636f, 0x84c87814, 0x8cc70208, 0x90befffa, 0xa4506ceb, 0xbef9a3f7, 0xc67178f2]

/-- The eight working variables. -/
structure Registers where
  (a b c d e f g h : ℕ)

/-- The initial hash value. -/
def initial : Registers :=
  ⟨0x6a09e667, 0xbb67ae85, 0x3c6ef372, 0xa54ff53a, 0x510e527f, 0x9b05688c, 0x1f83d9ab, 0x5be0cd19⟩

/-- Extend a message schedule, newest word first, by `n` words. -/
def extend : ℕ → List ℕ → List ℕ
  | 0, ws => ws
  | n + 1, ws =>
      let x := ws.getD 14 0
      let y := ws.getD 1 0
      let s0 := rotr 7 x ^^^ rotr 18 x ^^^ (x >>> 3)
      let s1 := rotr 17 y ^^^ rotr 19 y ^^^ (y >>> 10)
      extend n (((ws.getD 15 0 + s0 + ws.getD 6 0 + s1) % word) :: ws)

/-- One round with constant `k` and schedule word `w`. -/
def round (s : Registers) (k w : ℕ) : Registers :=
  let S1 := rotr 6 s.e ^^^ rotr 11 s.e ^^^ rotr 25 s.e
  let ch := (s.e &&& s.f) ^^^ ((s.e ^^^ (word - 1)) &&& s.g)
  let t1 := s.h + S1 + ch + k + w
  let S0 := rotr 2 s.a ^^^ rotr 13 s.a ^^^ rotr 22 s.a
  let maj := (s.a &&& s.b) ^^^ (s.a &&& s.c) ^^^ (s.b &&& s.c)
  ⟨(t1 + S0 + maj) % word, s.a, s.b, s.c, (s.d + t1) % word, s.e, s.f, s.g⟩

/-- Add the working variables to the running hash value. -/
def Registers.add (s t : Registers) : Registers :=
  ⟨(s.a + t.a) % word, (s.b + t.b) % word, (s.c + t.c) % word, (s.d + t.d) % word,
    (s.e + t.e) % word, (s.f + t.f) % word, (s.g + t.g) % word, (s.h + t.h) % word⟩

/-- Compress one block of sixteen words. -/
def compress (s : Registers) (block : List ℕ) : Registers :=
  s.add ((roundConstants.zip (extend 48 block.reverse).reverse).foldl
    (fun t kw => round t kw.1 kw.2) s)

/-- Big-endian bytes of `n`. -/
def bytesBE : ℕ → ℕ → List ℕ
  | 0, _ => []
  | width + 1, n => (n / 256 ^ width % 256) :: bytesBE width n

/-- Pad a message to a whole number of 64-byte blocks. -/
def pad (message : List ℕ) : List ℕ :=
  message ++ 128 :: List.replicate ((119 - message.length % 64) % 64) 0
    ++ bytesBE 8 (message.length * 8)

/-- Group bytes into big-endian words. -/
def words : List ℕ → List ℕ
  | a :: b :: c :: d :: rest => (((a * 256 + b) * 256 + c) * 256 + d) :: words rest
  | _ => []

/-- Compress a sequence of `n` blocks. -/
def compressAll : ℕ → Registers → List ℕ → Registers
  | 0, s, _ => s
  | n + 1, s, ws => compressAll n (compress s (ws.take 16)) (ws.drop 16)

/-- The digest of a sequence of bytes, in hexadecimal. -/
def digest (message : List ℕ) : List Char :=
  let ws := words (pad message)
  let s := compressAll (ws.length / 16) initial ws
  [s.a, s.b, s.c, s.d, s.e, s.f, s.g, s.h].flatMap (Text.hexDigits 8)

theorem length_digest (message : List ℕ) : (digest message).length = 64 := by
  simp [digest]

theorem isHex_of_mem_digest {message : List ℕ} {c : Char} (h : c ∈ digest message) :
    Text.IsHex c := by
  obtain ⟨r, -, hr⟩ := List.mem_flatMap.mp h
  exact Text.isHex_of_mem_hexDigits hr

end Sha256

/-- SHA-256 of the UTF-8 encoding, as `hashlib.sha256(text.encode()).hexdigest()`. -/
def sha256 : HexHash where
  hexdigest text :=
    String.ofList (Sha256.digest (text.toUTF8.data.toList.map UInt8.toNat))
  length_hexdigest text := by rw [String.toList_ofList]; exact Sha256.length_digest _
  isHex_hexdigest text c h := by
    rw [String.toList_ofList] at h
    exact Sha256.isHex_of_mem_digest h

example : sha256.hexdigest "abc" =
    "ba7816bf8f01cfea414140de5dae2223b00361a396177a9cb410ff61f20015ad" := by decide +kernel
