/-!
# Columns

Listings put numbers into columns of a fixed width.
-/

namespace Smalltalk

namespace Text

/-- A text with blanks in front of it, so that it is at least `width` characters long. -/
def alignRight (width : Nat) (s : String) : String :=
  String.ofList (List.replicate (width - s.length) ' ') ++ s

end Text

end Smalltalk
