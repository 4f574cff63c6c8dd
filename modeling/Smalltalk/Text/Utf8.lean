/-!
# Text in bytes

The heap holds text as bytes in UTF-8. Any bytes can be read as text: a run that starts a character
but does not complete it, and a byte that can start none, is read as the replacement character
U+FFFD. One replacement stands for the whole run, up to the first byte that cannot continue it.

`decodeLossy` reads byte by byte. Between bytes it remembers the character that has been started,
how many bytes are missing, and the range in which the next one must lie: the ranges after `E0`,
`ED`, `F0` and `F4` leave out overlong forms, surrogates and numbers above `10FFFF`.
-/

namespace Smalltalk

namespace Text

/-- The bytes of a text. -/
def utf8 (s : String) : List UInt8 := s.toByteArray.data.toList

/-- A character that has been started. -/
structure Partial where
  /-- The bits so far. -/
  bits : Nat
  /-- How many bytes are missing, less one. -/
  missing : Nat
  /-- The next byte must not be lower. -/
  low : UInt8
  /-- The next byte must not be higher. -/
  high : UInt8

/-- What a first byte does: it is a character, starts one, or neither. -/
inductive Lead where
  | char (c : Char)
  | start (p : Partial)
  | invalid

/-- What a byte does where a character may start. -/
def lead (b : UInt8) : Lead :=
  if b < 0x80 then .char (Char.ofNat b.toNat)
  else if b < 0xC2 then .invalid
  else if b < 0xE0 then .start ⟨b.toNat - 0xC0, 0, 0x80, 0xBF⟩
  else if b == 0xE0 then .start ⟨0, 1, 0xA0, 0xBF⟩
  else if b == 0xED then .start ⟨0xD, 1, 0x80, 0x9F⟩
  else if b < 0xF0 then .start ⟨b.toNat - 0xE0, 1, 0x80, 0xBF⟩
  else if b == 0xF0 then .start ⟨0, 2, 0x90, 0xBF⟩
  else if b < 0xF4 then .start ⟨b.toNat - 0xF0, 2, 0x80, 0xBF⟩
  else if b == 0xF4 then .start ⟨4, 2, 0x80, 0x8F⟩
  else .invalid

/-- The replacement character. -/
def replacement : Char := Char.ofNat 0xFFFD

/-- Reads the remaining bytes after a started character, if there is one. -/
def decodeFrom : Option Partial → List UInt8 → List Char
  | none, [] => []
  | some _, [] => [replacement]
  | none, b :: bs =>
    match lead b with
    | .char c => c :: decodeFrom none bs
    | .start p => decodeFrom (some p) bs
    | .invalid => replacement :: decodeFrom none bs
  | some p, b :: bs =>
    if p.low ≤ b ∧ b ≤ p.high then
      let bits := p.bits * 64 + (b.toNat - 0x80)
      match p.missing with
      | 0 => Char.ofNat bits :: decodeFrom none bs
      | n + 1 => decodeFrom (some ⟨bits, n, 0x80, 0xBF⟩) bs
    else
      match lead b with
      | .char c => replacement :: c :: decodeFrom none bs
      | .start p => replacement :: decodeFrom (some p) bs
      | .invalid => replacement :: replacement :: decodeFrom none bs

/-- The text that bytes stand for, with replacements where they stand for none. -/
def decodeLossy (bytes : List UInt8) : String := String.ofList (decodeFrom none bytes)

end Text

end Smalltalk
