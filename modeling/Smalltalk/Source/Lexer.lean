import Smalltalk.Source.Token
import Smalltalk.Text.Utf8

/-!
# From bytes to tokens

A `Cursor` is the source that is left and the number of its first line. `Cursor.next` skips blanks
and comments and reads one token; unless the token is the end of input, less source is left
afterwards, and that is why `tokens` ends.

Bytes are classified as ASCII. Bytes of other characters may stand in strings, comments and
character literals, and a character literal is a single byte.

## Main definitions

* `Cursor.next`: one token
* `tokenize`: all tokens, with the end of input as the last

## Main results

* `Cursor.length_next_lt`: a token other than the end of input takes some source
-/

namespace Smalltalk

namespace Lexer

/-! ### Classes of bytes -/

/-- Letters `a` to `z` and `A` to `Z`. -/
def isLetter (b : UInt8) : Bool := (97 ≤ b && b ≤ 122) || (65 ≤ b && b ≤ 90)

/-- Digits `0` to `9`. -/
def isDigit (b : UInt8) : Bool := 48 ≤ b && b ≤ 57

/-- Letters, digits and the underscore: what words are made of. -/
def isWordByte (b : UInt8) : Bool := isLetter b || isDigit b || b == 95

/-- Space, tab, line feed, form feed and carriage return. -/
def isSpace (b : UInt8) : Bool := b == 32 || b == 9 || b == 10 || b == 12 || b == 13

/-- The bytes of binary operators: `+ - * / \ < > = ~ @ % & ? ,`. -/
def isOperatorByte (b : UInt8) : Bool :=
  b == 43 || b == 45 || b == 42 || b == 47 || b == 92 || b == 60 || b == 62 || b == 61 ||
    b == 126 || b == 64 || b == 37 || b == 38 || b == 63 || b == 44

/-- The value of a digit; letters of either case go on from ten. -/
def digitValue? (b : UInt8) : Option Nat :=
  if isDigit b then some (b.toNat - 48)
  else if 97 ≤ b && b ≤ 122 then some (b.toNat - 87)
  else if 65 ≤ b && b ≤ 90 then some (b.toNat - 55)
  else none

/-- Is the byte a digit to this radix? -/
def isDigitIn (radix : Nat) (b : UInt8) : Bool :=
  match digitValue? b with
  | some d => d < radix
  | none => false

/-- The number that digits stand for. -/
def numberOf (radix : Nat) (digits : List UInt8) : Nat :=
  digits.foldl (fun n b => n * radix + (digitValue? b).getD 0) 0

/-- Literals are below this bound. -/
def integerBound : Nat := 9223372036854775808

/-- The line after a byte. -/
def lineAfter (b : UInt8) (line : Nat) : Nat := if b == 10 then line + 1 else line

end Lexer

open Lexer

/-- The source that is left, and the line it starts on. -/
structure Cursor where
  rest : List UInt8
  line : Nat

namespace Lexer

/-! ### Pieces of tokens -/

/-- Skips blanks and comments. The flag says whether a comment is open; what is answered is whether
all comments were closed. -/
def skipTrivia : Bool → List UInt8 → Nat → Bool × Cursor
  | inComment, [], line => (!inComment, ⟨[], line⟩)
  | false, b :: bs, line =>
    if isSpace b then skipTrivia false bs (lineAfter b line)
    else if b == 34 then skipTrivia true bs line
    else (true, ⟨b :: bs, line⟩)
  | true, b :: bs, line =>
    if b == 34 then skipTrivia false bs line else skipTrivia true bs (lineAfter b line)

/-- The rest of a string behind its opening quote, in which two quotes stand for one: its bytes, or
nothing if it is not closed. -/
def stringBody : List UInt8 → Nat → Option (List UInt8) × Cursor
  | [], line => (none, ⟨[], line⟩)
  | b :: bs, line =>
    if b == 39 then
      match bs with
      | 39 :: bs =>
        let (body, c) := stringBody bs line
        (body.map (39 :: ·), c)
      | bs => (some [], ⟨bs, line⟩)
    else
      let (body, c) := stringBody bs (lineAfter b line)
      (body.map (b :: ·), c)

/-- The rest of a symbol written as a selector, and the source behind it. A colon may be followed by
a letter, which starts another word. -/
def symbolTail : Bool → List UInt8 → List UInt8 × List UInt8
  | _, [] => ([], [])
  | afterColon, b :: bs =>
    if b == 58 then
      let (name, rest) := symbolTail true bs
      (b :: name, rest)
    else if (if afterColon then isLetter b else isWordByte b) then
      let (name, rest) := symbolTail false bs
      (b :: name, rest)
    else ([], b :: bs)

/-- An identifier, or a keyword if a colon follows that does not start an assignment. -/
def word (b : UInt8) (bs : List UInt8) (line : Nat) : TokenKind × Cursor :=
  let name := Text.decodeLossy (b :: bs.takeWhile isWordByte)
  let rest := bs.dropWhile isWordByte
  match rest with
  | 58 :: tail =>
    if tail.head? == some 61 then (.identifier name, ⟨rest, line⟩)
    else (.keyword (name ++ ":"), ⟨tail, line⟩)
  | _ => (.identifier name, ⟨rest, line⟩)

/-- An integer from `digits` to the given radix. -/
def radixInteger (radix : Nat) (digits : List UInt8) : TokenKind :=
  if digits.isEmpty || integerBound ≤ numberOf radix digits then
    .error (.badRadixLiteral radix)
  else .integer (numberOf radix digits)

/-- A decimal integer, an integer with its radix in front, or a number with a decimal point. -/
def number (b : UInt8) (bs : List UInt8) (line : Nat) : TokenKind × Cursor :=
  let digits := b :: bs.takeWhile isDigit
  let rest := bs.dropWhile isDigit
  let value := numberOf 10 digits
  if integerBound ≤ value then (.error .integerTooLarge, ⟨rest, line⟩)
  else
    match rest with
    | 114 :: d :: more =>
      if isLetter d || isDigit d then
        if value < 2 || 36 < value then (.error (.badRadix value), ⟨rest, line⟩)
        else
          (radixInteger value ((d :: more).takeWhile (isDigitIn value)),
            ⟨(d :: more).dropWhile (isDigitIn value), line⟩)
      else (.integer value, ⟨rest, line⟩)
    | 46 :: d :: more =>
      if isDigit d then
        let places := d :: more.takeWhile isDigit
        (.float (Double.ofDecimal (numberOf 10 (digits ++ places)) places.length),
          ⟨more.dropWhile isDigit, line⟩)
      else (.integer value, ⟨rest, line⟩)
    | _ => (.integer value, ⟨rest, line⟩)

/-- A string token, or the error that it is not closed. -/
def stringToken (make : String → TokenKind) (bs : List UInt8) (line : Nat) : TokenKind × Cursor :=
  match stringBody bs line with
  | (some body, c) => (make (Text.decodeLossy body), c)
  | (none, c) => (.error .unterminatedString, c)

/-- Is the byte part of a symbol made of operator bytes? -/
def isSymbolOperatorByte (b : UInt8) : Bool := isOperatorByte b || b == 124

/-- What follows a number sign. -/
def symbol (bs : List UInt8) (line : Nat) : TokenKind × Cursor :=
  match bs with
  | [] => (.error .badSymbol, ⟨[], line⟩)
  | b :: tail =>
    if b == 40 then (.arrayStart, ⟨tail, line⟩)
    else if b == 39 then stringToken .symbol tail line
    else if isLetter b then
      let (name, rest) := symbolTail false tail
      (.symbol (Text.decodeLossy (b :: name)), ⟨rest, line⟩)
    else if isSymbolOperatorByte b then
      (.symbol (Text.decodeLossy (b :: tail.takeWhile isSymbolOperatorByte)),
        ⟨tail.dropWhile isSymbolOperatorByte, line⟩)
    else (.error .badSymbol, ⟨b :: tail, line⟩)

/-- A character literal is the byte behind the dollar sign, whatever it is. -/
def character (bs : List UInt8) (line : Nat) : TokenKind × Cursor :=
  match bs with
  | [] => (.error .characterAtEnd, ⟨[], line⟩)
  | c :: cs => (.character c, ⟨cs, lineAfter c line⟩)

/-- A colon, or the sign of an assignment. -/
def colon (bs : List UInt8) (line : Nat) : TokenKind × Cursor :=
  match bs with
  | 61 :: cs => (.assign, ⟨cs, line⟩)
  | _ => (.colon, ⟨bs, line⟩)

/-- The tokens of one byte: `| ^ . ; ( ) [ ]`. -/
def punctuation? (b : UInt8) : Option TokenKind :=
  if b == 124 then some (.binary "|")
  else if b == 94 then some .caret
  else if b == 46 then some .period
  else if b == 59 then some .semicolon
  else if b == 40 then some .leftParen
  else if b == 41 then some .rightParen
  else if b == 91 then some .leftBracket
  else if b == 93 then some .rightBracket
  else none

/-- A minus sign never continues an operator, so that `x--1` is `x - -1`. -/
def continuesOperator (b : UInt8) : Bool := isOperatorByte b && b != 45

/-- The token that starts with the byte `b`. -/
def token (b : UInt8) (bs : List UInt8) (line : Nat) : TokenKind × Cursor :=
  if isLetter b || b == 95 then word b bs line
  else if isDigit b then number b bs line
  else if b == 39 then stringToken .string bs line
  else if b == 36 then character bs line
  else if b == 35 then symbol bs line
  else if b == 58 then colon bs line
  else if isOperatorByte b then
    (.binary (Text.decodeLossy (b :: bs.takeWhile continuesOperator)),
      ⟨bs.dropWhile continuesOperator, line⟩)
  else ((punctuation? b).getD (.error (.unexpectedByte b)), ⟨bs, line⟩)

end Lexer

namespace Cursor

/-- Reads one token. -/
def next (c : Cursor) : Token × Cursor :=
  match skipTrivia false c.rest c.line with
  | (false, c) => (⟨.error .unterminatedComment, c.line⟩, c)
  | (true, ⟨[], line⟩) => (⟨.endOfInput, line⟩, ⟨[], line⟩)
  | (true, ⟨b :: bs, line⟩) =>
    let (kind, c) := token b bs line
    (⟨kind, line⟩, c)

end Cursor

/-! ### Every token takes some source -/

namespace Lexer

theorem length_dropWhile_le (p : UInt8 → Bool) (bs : List UInt8) :
    (bs.dropWhile p).length ≤ bs.length := by
  induction bs with
  | nil => exact Nat.le_refl _
  | cons b bs ih =>
    rw [List.dropWhile_cons]
    split
    · exact Nat.le_succ_of_le ih
    · exact Nat.le_refl _

theorem length_skipTrivia_le (inComment : Bool) (bs : List UInt8) (line : Nat) :
    (skipTrivia inComment bs line).2.rest.length ≤ bs.length := by
  fun_induction skipTrivia inComment bs line <;> simp_all <;> omega

/-- A comment that is left open has at least its opening quote. -/
theorem length_skipTrivia_lt (bs : List UInt8) (line : Nat)
    (h : (skipTrivia false bs line).1 = false) :
    (skipTrivia false bs line).2.rest.length < bs.length := by
  induction bs generalizing line with
  | nil => cases h
  | cons b bs ih =>
    rw [skipTrivia] at h ⊢
    by_cases hs : isSpace b = true
    · rw [if_pos hs] at h ⊢
      exact Nat.lt_succ_of_lt (ih _ h)
    · rw [if_neg hs] at h ⊢
      by_cases hq : (b == 34) = true
      · rw [if_pos hq]
        exact Nat.lt_succ_of_le (length_skipTrivia_le true bs line)
      · rw [if_neg hq] at h
        cases h

theorem length_stringBody_le (bs : List UInt8) (line : Nat) :
    (stringBody bs line).2.rest.length ≤ bs.length := by
  fun_induction stringBody bs line <;> simp_all <;> omega

theorem length_symbolTail_le (afterColon : Bool) (bs : List UInt8) :
    (symbolTail afterColon bs).2.length ≤ bs.length := by
  fun_induction symbolTail afterColon bs <;> simp_all <;> omega

theorem length_word_le (b : UInt8) (bs : List UInt8) (line : Nat) :
    (word b bs line).2.rest.length ≤ bs.length := by
  have h := length_dropWhile_le isWordByte bs
  unfold word
  dsimp only
  generalize bs.dropWhile isWordByte = rest at h ⊢
  split
  · simp only [List.length_cons] at h
    split
    · exact h
    · exact Nat.le_of_succ_le h
  · exact h

theorem length_number_le (b : UInt8) (bs : List UInt8) (line : Nat) :
    (number b bs line).2.rest.length ≤ bs.length := by
  have h := length_dropWhile_le isDigit bs
  unfold number
  dsimp only
  generalize bs.dropWhile isDigit = rest at h ⊢
  split
  · exact h
  · split
    · rename_i d more
      have h2 :=
        length_dropWhile_le (isDigitIn (numberOf 10 (b :: bs.takeWhile isDigit))) (d :: more)
      simp only [List.length_cons] at h h2
      split
      · split
        · exact h
        · dsimp only; omega
      · exact h
    · rename_i d more
      have h2 := length_dropWhile_le isDigit more
      simp only [List.length_cons] at h
      split
      · dsimp only; omega
      · exact h
    · exact h

theorem length_stringToken_le (make : String → TokenKind) (bs : List UInt8) (line : Nat) :
    (stringToken make bs line).2.rest.length ≤ bs.length := by
  have h := length_stringBody_le bs line
  unfold stringToken
  split <;> simp_all

theorem length_symbol_le (bs : List UInt8) (line : Nat) :
    (symbol bs line).2.rest.length ≤ bs.length := by
  unfold symbol
  split
  · exact Nat.le_refl _
  · rename_i b tail
    have h1 := length_stringToken_le .symbol tail line
    have h2 := length_symbolTail_le false tail
    have h3 := length_dropWhile_le isSymbolOperatorByte tail
    simp only [List.length_cons]
    repeat' split
    all_goals first
      | exact Nat.le_refl _
      | omega
      | (dsimp only; omega)

theorem length_character_le (bs : List UInt8) (line : Nat) :
    (character bs line).2.rest.length ≤ bs.length := by
  unfold character
  split
  · exact Nat.le_refl _
  · exact Nat.le_succ _

theorem length_colon_le (bs : List UInt8) (line : Nat) :
    (colon bs line).2.rest.length ≤ bs.length := by
  unfold colon
  split
  · exact Nat.le_succ _
  · exact Nat.le_refl _

/-- A token leaves no more than what follows its first byte. -/
theorem length_token_le (b : UInt8) (bs : List UInt8) (line : Nat) :
    (token b bs line).2.rest.length ≤ bs.length := by
  unfold token
  split
  · exact length_word_le b bs line
  split
  · exact length_number_le b bs line
  split
  · exact length_stringToken_le .string bs line
  split
  · exact length_character_le bs line
  split
  · exact length_symbol_le bs line
  split
  · exact length_colon_le bs line
  split
  · exact length_dropWhile_le continuesOperator bs
  · exact Nat.le_refl _

end Lexer

/-- Unless the end of input is reached, less source is left behind a token. -/
theorem Cursor.length_next_lt (c : Cursor) (h : c.next.1.kind ≠ .endOfInput) :
    c.next.2.rest.length < c.rest.length := by
  have h1 := length_skipTrivia_le false c.rest c.line
  have h2 := length_skipTrivia_lt c.rest c.line
  unfold next at h ⊢
  split
  · rename_i heq
    rw [heq] at h2
    exact h2 rfl
  · simp_all
  · rename_i b bs line heq
    rw [heq] at h1
    have h3 := length_token_le b bs line
    simp only [List.length_cons] at h1 ⊢
    omega

/-- The tokens from a cursor on, with the end of input as the last. -/
def tokens (c : Cursor) : List Token :=
  match h : c.next with
  | (t, after) =>
    if e : t.kind = .endOfInput then [t]
    else
      have : after.rest.length < c.rest.length := by
        have shorter := c.length_next_lt (by rw [h]; exact e)
        rwa [h] at shorter
      t :: tokens after
termination_by c.rest.length

/-- All tokens of a source text. -/
def tokenize (source : List UInt8) : List Token := tokens ⟨source, 1⟩

end Smalltalk
