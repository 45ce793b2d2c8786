import Goblet.Text.Class

/-!
# Texts as bytes

A text is its UTF-8 bytes: lengths and indices of the language count them. Cutting a text can leave bytes that are
not UTF-8; `ofBytesLossy` reads them by writing one replacement character for each maximal run of bytes that begins
an encoding and is not continued.
-/

namespace Goblet.Text

def bytes (s : String) : List UInt8 := s.toUTF8.data.toList

def byteLength (s : String) : Nat := s.utf8ByteSize

def byteAt? (s : String) (i : Nat) : Option UInt8 := s.toUTF8.data[i]?

/-- What may follow a lead byte: the number of continuation bytes, and the range of the first of them. -/
def leadRange? (b : UInt8) : Option (Nat × UInt8 × UInt8) :=
  if 0xC2 ≤ b ∧ b ≤ 0xDF then some (1, 0x80, 0xBF)
  else if b = 0xE0 then some (2, 0xA0, 0xBF)
  else if b = 0xED then some (2, 0x80, 0x9F)
  else if 0xE1 ≤ b ∧ b ≤ 0xEF then some (2, 0x80, 0xBF)
  else if b = 0xF0 then some (3, 0x90, 0xBF)
  else if 0xF1 ≤ b ∧ b ≤ 0xF3 then some (3, 0x80, 0xBF)
  else if b = 0xF4 then some (3, 0x80, 0x8F)
  else none

def replacement : Char := Char.ofNat 0xFFFD

/-- The decoder between two bytes. -/
inductive Decoding where
  /-- At the start of a character. -/
  | start
  /-- Inside one: continuation bytes still due, range of the next, bits so far. -/
  | inside (due : Nat) (lo hi : UInt8) (bits : Nat)

/-- A byte at the start of a character: what it completes, and where the decoder stands then. -/
def decodeFirst (b : UInt8) : List Char × Decoding :=
  if b < 0x80 then ([Char.ofNat b.toNat], .start)
  else
    match leadRange? b with
    | some (n, lo, hi) => ([], .inside n lo hi (b.toNat % Nat.pow 2 (6 - n)))
    | none => ([replacement], .start)

def decodeFrom : Decoding → List UInt8 → List Char
  | .start, [] => []
  | .inside .., [] => [replacement]
  | .start, b :: bs => (decodeFirst b).1 ++ decodeFrom (decodeFirst b).2 bs
  | .inside due lo hi bits, b :: bs =>
    if lo ≤ b ∧ b ≤ hi then
      let bits := bits * 64 + b.toNat % 64
      if due ≤ 1 then Char.ofNat bits :: decodeFrom .start bs
      else decodeFrom (.inside (due - 1) 0x80 0xBF bits) bs
    else replacement :: ((decodeFirst b).1 ++ decodeFrom (decodeFirst b).2 bs)

/-- Reads bytes as UTF-8, with replacement characters for what is not. -/
def ofBytesLossy (bs : List UInt8) : String := String.ofList (decodeFrom .start bs)

def ofBytes? (bs : List UInt8) : Option String := String.fromUTF8? (ByteArray.mk bs.toArray)

/-! ## Searching -/

def trimmed (s : String) : String :=
  String.ofList ((s.toList.dropWhile CharClass.isBlank).reverse.dropWhile CharClass.isBlank).reverse

/-- Where a pattern first occurs, counted from index `i`. -/
def indexFrom (pattern : List UInt8) : Nat → List UInt8 → Option Nat
  | i, [] => if pattern.isEmpty then some i else none
  | i, b :: bs => if pattern.isPrefixOf (b :: bs) then some i else indexFrom pattern (i + 1) bs

def indexOf? (s pattern : String) : Option Nat := indexFrom (bytes pattern) 0 (bytes s)

/-- The pieces of a text between occurrences of a nonempty pattern. `skip` characters still belong to the
occurrence just found; `piece` is the current piece, last character first. -/
def pieces (pattern : List Char) : (skip : Nat) → (piece : List Char) → List Char → List String
  | _, piece, [] => [String.ofList piece.reverse]
  | skip + 1, piece, _ :: cs => pieces pattern skip piece cs
  | 0, piece, c :: cs =>
    if pattern.isPrefixOf (c :: cs) then
      String.ofList piece.reverse :: pieces pattern (pattern.length - 1) [] cs
    else pieces pattern 0 (c :: piece) cs

/-- The pieces of a text between occurrences of a pattern. The empty pattern occurs around every character. -/
def split (s pattern : String) : List String :=
  if pattern.isEmpty then "" :: (s.toList.map fun c => String.ofList [c]) ++ [""]
  else pieces pattern.toList 0 [] s.toList

end Goblet.Text
