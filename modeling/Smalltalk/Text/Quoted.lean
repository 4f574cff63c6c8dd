import Smalltalk.Text.Printable

/-!
# Quoted text in messages

A message that shows a piece of source puts it between quotation marks. The mark itself and the
backslash get a backslash in front, the usual control characters have a letter, and every other
character that `isHidden` or `isCombining` is written as its number in braces.
-/

namespace Smalltalk

namespace Text

/-- A character written by its number. -/
def numbered (c : Char) : String :=
  "\\u\x7b" ++ String.ofList (Nat.toDigits 16 c.toNat) ++ "\x7d"

/-- A character as it stands between two `mark`s. -/
def escape (mark c : Char) : String :=
  if c = '\x00' then "\\0"
  else if c = '\t' then "\\t"
  else if c = '\r' then "\\r"
  else if c = '\n' then "\\n"
  else if c = '\\' then "\\\\"
  else if c = mark then String.ofList ['\\', c]
  else if isCombining c || isHidden c then numbered c
  else String.singleton c

/-- A text between double quotation marks. -/
def quoted (s : String) : String :=
  "\"" ++ String.join (s.toList.map (escape '"')) ++ "\""

/-- A character between single quotation marks. -/
def quotedChar (c : Char) : String := "'" ++ escape '\'' c ++ "'"

end Text

end Smalltalk
