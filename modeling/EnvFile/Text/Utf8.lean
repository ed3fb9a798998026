import EnvFile.Text.Basic

namespace EnvFile

/-- Why some bytes are not the encoding of a text. -/
inductive Undecodable.Reason
  | startByte
  | continuationByte
  | endOfData
deriving DecidableEq, Repr

/-- The first bytes that no text has at that place: `byte` is the first of them, `position` its
place, and `length` their number. -/
structure Undecodable where
  byte : UInt8
  position : Nat
  length : Nat
  reason : Undecodable.Reason
deriving DecidableEq, Repr

/-- A code point of a string as a caller may hand it over: a character, or half of a pair that stands
alone, which no encoding has. -/
inductive CodePoint
  | char (c : Char)
  | half (offset : Fin 0x800)
deriving DecidableEq, Repr

def CodePoint.isHalf : CodePoint → Bool
  | char _ => false
  | half _ => true

/-- A string that may hold code points without an encoding. -/
abbrev RawText := List CodePoint

/-- The first code points that have no encoding: `code` is the first of them, `position` its place,
and `length` their number. -/
structure Unencodable where
  code : Nat
  position : Nat
  length : Nat
deriving DecidableEq, Repr

namespace RawText

def ofText (t : Text) : RawText := t.map .char

/-- The text that a raw one is if all its code points are characters, or the first ones that are not;
`position` is where it stands in what is encoded. -/
def textFrom (position : Nat) : RawText → Except Unencodable Text
  | [] => .ok []
  | .char c :: r => (textFrom (position + 1) r).map (c :: ·)
  | .half k :: r => .error ⟨0xD800 + k, position, 1 + (r.takeWhile (·.isHalf)).length⟩

theorem textFrom_ofText (position : Nat) (t : Text) : textFrom position (ofText t) = .ok t := by
  induction t generalizing position with
  | nil => rfl
  | cons c t ih =>
    change (textFrom (position + 1) (ofText t)).map (c :: ·) = _
    rw [ih]
    rfl

end RawText

namespace Utf8

/-- What a character still lacks: a number of bytes, the next of them in a range. -/
structure Lack where
  count : Nat
  least : UInt8
  greatest : UInt8

/-- What a character lacks after its first byte, where a character can begin with that byte. -/
def lackAfter? (b : UInt8) : Option Lack :=
  if b < 0x80 then some ⟨0, 0x80, 0xBF⟩
  else if b < 0xC2 then none
  else if b < 0xE0 then some ⟨1, 0x80, 0xBF⟩
  else if b = 0xE0 then some ⟨2, 0xA0, 0xBF⟩
  else if b = 0xED then some ⟨2, 0x80, 0x9F⟩
  else if b < 0xF0 then some ⟨2, 0x80, 0xBF⟩
  else if b = 0xF0 then some ⟨3, 0x90, 0xBF⟩
  else if b < 0xF4 then some ⟨3, 0x80, 0xBF⟩
  else if b = 0xF4 then some ⟨3, 0x80, 0x8F⟩
  else none

/-- Reads on at `position`; `open?` is the character being read, by its first byte, the number of
its bytes so far and what it lacks. -/
def faultFrom (position : Nat) (open? : Option (UInt8 × Nat × Lack)) : List UInt8 → Option Undecodable
  | [] => open?.map fun (first, read, _) => ⟨first, position - read, read, .endOfData⟩
  | b :: bytes =>
    match open? with
    | some (first, read, lack) =>
      if lack.least ≤ b ∧ b ≤ lack.greatest then
        if lack.count ≤ 1 then faultFrom (position + 1) none bytes
        else faultFrom (position + 1) (some (first, read + 1, ⟨lack.count - 1, 0x80, 0xBF⟩)) bytes
      else some ⟨first, position - read, read, .continuationByte⟩
    | none =>
      match lackAfter? b with
      | none => some ⟨b, position, 1, .startByte⟩
      | some lack =>
        if lack.count = 0 then faultFrom (position + 1) none bytes
        else faultFrom (position + 1) (some (b, 1, lack)) bytes

/-- The first fault of the bytes, if they are not the encoding of a text. -/
def fault? (bytes : List UInt8) : Option Undecodable := faultFrom 0 none bytes

/-- A text without the mark that may stand before it. -/
def unmarked : Text → Text
  | '\uFEFF' :: t => t
  | t => t

/-- Bytes without the mark that may stand before a text. A mark that is cut short leaves nothing. -/
def unmarkedBytes : List UInt8 → List UInt8
  | [0xEF] => []
  | [0xEF, 0xBB] => []
  | 0xEF :: 0xBB :: 0xBF :: bytes => bytes
  | bytes => bytes

/-- The text of a file, without a leading mark, or the first fault of its bytes. Bytes that are no
text and have no fault are a mark cut short. -/
def decode (bytes : ByteArray) : Except Undecodable Text :=
  match String.fromUTF8? bytes with
  | some text => .ok (unmarked text.toList)
  | none =>
    match fault? (unmarkedBytes bytes.data.toList) with
    | some fault => .error fault
    | none => .ok []

def encode (t : Text) : ByteArray := (String.ofList t).toByteArray

def encodeRaw (r : RawText) : Except Unencodable ByteArray := (r.textFrom 0).map encode

theorem encodeRaw_ofText (t : Text) : encodeRaw (RawText.ofText t) = .ok (encode t) := by
  rw [encodeRaw, RawText.textFrom_ofText]
  rfl

theorem decode_encode (t : Text) : decode (encode t) = .ok (unmarked t) := by
  have h : String.fromUTF8? (encode t) = some (String.ofList t) :=
    dif_pos (String.ofList t).isValidUTF8
  simp [decode, h]

end Utf8

end EnvFile
