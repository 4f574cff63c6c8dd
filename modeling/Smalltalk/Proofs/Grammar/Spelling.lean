import Mathlib
import Smalltalk.Proofs.Grammar.Utf8
import Smalltalk.Source.Lexer

/-!
# Spelling tokens

Source can be written token by token, with a blank between two of them. A negative number is two
tokens, a minus sign and a number, and is written without a blank; a piece of source between two
blanks is a `Lexeme`.

Not every token can be written. A word has to be a word, an operator to be made of operator
characters, with the minus sign in front only, because it never continues an operator. Numbers with
a decimal point are left out: no number is spelled with as many places as it would take.

## Main definitions

* `isWord`, `isOperator`: what names and operators are
* `TokenKind.spelling`, `TokenKind.Spellable`
* `Lexeme`, `spell`: pieces of source, and source made of them

## Main results

* `tokenize_spell`: the tokens of source that was spelled are the tokens that were spelled
-/

namespace Smalltalk

open Lexer Text

/-! ## Words and operators -/

/-- A letter or an underscore, and then letters, digits and underscores. -/
def isWord (s : String) : Bool :=
  match s.toList with
  | [] => false
  | c :: cs => (c.isAlpha || c == '_') && cs.all fun c => c.isAlphanum || c == '_'

/-- The characters of which operators are made. -/
def operatorChars : List Char :=
  ['+', '-', '*', '/', '\\', '<', '>', '=', '~', '@', '%', '&', '?', ',']

/-- A bar, or operator characters of which only the first may be a minus sign. -/
def isOperator (s : String) : Bool :=
  s == "|" ||
    match s.toList with
    | [] => false
    | c :: cs => operatorChars.contains c && cs.all fun c => operatorChars.contains c && c != '-'

/-- A text between quotes, in which two quotes stand for one. -/
def quote (s : String) : String :=
  String.ofList ('\'' :: s.toList.flatMap
    (fun c => if c = '\'' then ['\'', '\''] else [c]) ++ ['\''])

namespace TokenKind

/-- A token as it is written. -/
def spelling : TokenKind → String
  | .identifier name => name
  | .keyword name => name
  | .binary operator => operator
  | .integer n => toString n
  | .float x => x.text
  | .character b => String.ofList ['$', Char.ofNat b.toNat]
  | .string s => quote s
  | .symbol s => "#" ++ quote s
  | .arrayStart => "#("
  | .assign => ":="
  | .caret => "^"
  | .colon => ":"
  | .period => "."
  | .semicolon => ";"
  | .leftParen => "("
  | .rightParen => ")"
  | .leftBracket => "["
  | .rightBracket => "]"
  | .endOfInput => ""
  | .error _ => ""

/-- A token that can be written. -/
def Spellable : TokenKind → Prop
  | .identifier name => isWord name
  | .keyword name => ∃ word, isWord word ∧ name = word ++ ":"
  | .binary operator => isOperator operator
  | .integer n => n < integerBound
  | .float _ => False
  | .character b => b < 128
  | .endOfInput => False
  | .error _ => False
  | _ => True

end TokenKind

/-- A piece of source between two blanks: a token, or a number behind a minus sign. -/
inductive Lexeme where
  | token (kind : TokenKind)
  | negative (n : Nat)

namespace Lexeme

/-- A piece of source as it is written. -/
def text : Lexeme → String
  | token kind => kind.spelling
  | negative n => "-" ++ toString n

/-- The tokens of a piece of source. -/
def kinds : Lexeme → List TokenKind
  | token kind => [kind]
  | negative n => [.binary "-", .integer n]

/-- A piece of source that can be written. -/
def Spellable : Lexeme → Prop
  | token kind => kind.Spellable
  | negative n => n < integerBound

end Lexeme

/-- Pieces of source with blanks between them. -/
def spell (ls : List Lexeme) : String := " ".intercalate (ls.map Lexeme.text)

/-! ## Bytes of words and operators -/

theorem utf8EncodeChar_ascii {c : Char} (h : c.toNat < 128) :
    String.utf8EncodeChar c = [UInt8.ofNat c.toNat] := by
  unfold String.utf8EncodeChar
  exact if_pos (Nat.le_of_lt_succ h)

theorem utf8_ascii {s : String} (h : ∀ c ∈ s.toList, c.toNat < 128) :
    utf8 s = s.toList.map fun c => UInt8.ofNat c.toNat := by
  rw [utf8_eq_flatMap, List.map_eq_flatMap]
  exact List.flatMap_congr fun c hc => utf8EncodeChar_ascii (h c hc)

theorem toNat_lt_of_isAlphanum {c : Char} (h : c.isAlphanum) : c.toNat < 128 := by
  simp only [Char.isAlphanum, Char.isAlpha, Char.isUpper, Char.isLower, Char.isDigit,
    Bool.or_eq_true, Bool.and_eq_true, decide_eq_true_eq, UInt32.le_iff_toNat_le, ge_iff_le] at h
  change ((65 ≤ c.toNat ∧ c.toNat ≤ 90) ∨ 97 ≤ c.toNat ∧ c.toNat ≤ 122) ∨
    48 ≤ c.toNat ∧ c.toNat ≤ 57 at h
  omega

/-- What holds of the bytes of all ASCII characters holds of the byte of one. -/
theorem ascii_induction {P : Char → UInt8 → Prop} {c : Char} (h : c.toNat < 128)
    (hall : ∀ n < 128, P (Char.ofNat n) (UInt8.ofNat n)) : P c (UInt8.ofNat c.toNat) := by
  have hc := hall c.toNat h
  rwa [Char.ofNat_toNat] at hc

theorem isWordByte_ofNat {c : Char} (h : c.isAlphanum || c == '_') :
    c.toNat < 128 ∧ isWordByte (UInt8.ofNat c.toNat) := by
  have hc : c.toNat < 128 := by
    rcases Bool.or_eq_true_iff.1 h with h | h
    · exact toNat_lt_of_isAlphanum h
    · rw [eq_of_beq h]
      decide
  refine ⟨hc, ?_⟩
  revert h
  exact ascii_induction (P := fun c b => c.isAlphanum || c == '_' → isWordByte b) hc (by decide)

theorem isLetter_ofNat {c : Char} (h : c.isAlpha || c == '_') :
    c.toNat < 128 ∧ (isLetter (UInt8.ofNat c.toNat) || UInt8.ofNat c.toNat == 95) := by
  have hc : c.toNat < 128 := by
    refine (isWordByte_ofNat (c := c) ?_).1
    simp only [Char.isAlphanum]
    rcases Bool.or_eq_true_iff.1 h with h | h <;> simp [h]
  refine ⟨hc, ?_⟩
  revert h
  exact ascii_induction
    (P := fun c b => c.isAlpha || c == '_' → isLetter b || b == 95) hc (by decide)

/-- The bytes of a word. -/
theorem utf8_word {s : String} (h : isWord s) :
    ∃ b bs, utf8 s = b :: bs ∧ (isLetter b || b == 95) ∧ ∀ x ∈ bs, isWordByte x := by
  unfold isWord at h
  split at h
  · cases h
  · rename_i c cs hs
    obtain ⟨hc, hcs⟩ := Bool.and_eq_true_iff.1 h
    rw [List.all_eq_true] at hcs
    refine ⟨UInt8.ofNat c.toNat, cs.map fun c => UInt8.ofNat c.toNat, ?_, (isLetter_ofNat hc).2, ?_⟩
    · rw [utf8_ascii, hs, List.map_cons]
      rw [hs, List.forall_mem_cons]
      exact ⟨(isLetter_ofNat hc).1, fun d hd => (isWordByte_ofNat (hcs d hd)).1⟩
    · intro x hx
      obtain ⟨d, hd, rfl⟩ := List.mem_map.1 hx
      exact (isWordByte_ofNat (hcs d hd)).2

theorem isOperatorByte_ofNat {c : Char} (h : operatorChars.contains c) :
    c.toNat < 128 ∧ isOperatorByte (UInt8.ofNat c.toNat) ∧
      (c ≠ '-' → continuesOperator (UInt8.ofNat c.toNat)) := by
  have hall : operatorChars.all fun d => d.toNat < 128 && isOperatorByte (UInt8.ofNat d.toNat) &&
      (d == '-' || continuesOperator (UInt8.ofNat d.toNat)) := by decide
  have hc := List.all_eq_true.1 hall c (List.contains_iff_mem.1 h)
  simp only [Bool.and_eq_true, Bool.or_eq_true, beq_iff_eq, decide_eq_true_eq] at hc
  exact ⟨hc.1.1, hc.1.2, hc.2.resolve_left⟩

/-- The bytes of an operator other than the bar. -/
theorem utf8_operator {s : String} (h : isOperator s) : s = "|" ∨
    ∃ b bs, utf8 s = b :: bs ∧ isOperatorByte b ∧ ∀ x ∈ bs, continuesOperator x := by
  unfold isOperator at h
  rcases Bool.or_eq_true_iff.1 h with h | h
  · exact .inl (eq_of_beq h)
  right
  split at h
  · cases h
  · rename_i c cs hs
    obtain ⟨hc, hcs⟩ := Bool.and_eq_true_iff.1 h
    rw [List.all_eq_true] at hcs
    have hcont : ∀ d ∈ cs, d.toNat < 128 ∧ continuesOperator (UInt8.ofNat d.toNat) := by
      intro d hd
      obtain ⟨hop, hne⟩ := Bool.and_eq_true_iff.1 (hcs d hd)
      obtain ⟨hlt, -, hcontinues⟩ := isOperatorByte_ofNat hop
      exact ⟨hlt, hcontinues (bne_iff_ne.1 hne)⟩
    refine ⟨UInt8.ofNat c.toNat, cs.map fun c => UInt8.ofNat c.toNat, ?_,
      (isOperatorByte_ofNat hc).2.1, ?_⟩
    · rw [utf8_ascii, hs, List.map_cons]
      rw [hs, List.forall_mem_cons]
      exact ⟨(isOperatorByte_ofNat hc).1, fun d hd => (hcont d hd).1⟩
    · intro x hx
      obtain ⟨d, hd, rfl⟩ := List.mem_map.1 hx
      exact (hcont d hd).2

/-! ## Bytes of numbers -/

theorem digitValue?_ofNat {c : Char} (h : c.isDigit) : c.toNat < 128 ∧
    isDigit (UInt8.ofNat c.toNat) ∧ digitValue? (UInt8.ofNat c.toNat) = some (c.toNat - 48) := by
  have hc : c.toNat < 128 := toNat_lt_of_isAlphanum (by simp [Char.isAlphanum, h])
  refine ⟨hc, ?_⟩
  revert h
  exact ascii_induction (P := fun c b => c.isDigit →
    isDigit b ∧ digitValue? b = some (c.toNat - 48)) hc (by decide)

theorem numberOf_map {cs : List Char} (h : ∀ c ∈ cs, c.isDigit) :
    numberOf 10 (cs.map fun c => UInt8.ofNat c.toNat) = Nat.ofDigitChars 10 cs 0 := by
  rw [numberOf, List.foldl_map, Nat.ofDigitChars_eq_foldl]
  refine List.foldl_ext _ _ _ fun n c hc => ?_
  rw [(digitValue?_ofNat (h c hc)).2.2, Nat.mul_comm]
  rfl

/-- The bytes of a number. -/
theorem utf8_toString (n : Nat) : ∃ b bs, utf8 (toString n) = b :: bs ∧ isDigit b ∧
    (∀ x ∈ bs, isDigit x) ∧ numberOf 10 (b :: bs) = n := by
  have hdigits : ∀ c ∈ Nat.toDigits 10 n, c.isDigit := fun c hc =>
    Nat.isDigit_of_mem_toDigits (by decide) (by decide) hc
  have hbytes : utf8 (toString n) = (Nat.toDigits 10 n).map fun c => UInt8.ofNat c.toNat := by
    rw [Nat.toString_eq_ofList_toDigits, utf8_ascii] <;> rw [String.toList_ofList]
    exact fun c hc => (digitValue?_ofNat (hdigits c hc)).1
  have hvalue := numberOf_map hdigits
  rw [Nat.ofDigitChars_ten_toDigits, ← hbytes] at hvalue
  cases hcs : Nat.toDigits 10 n with
  | nil => exact absurd hcs Nat.toDigits_ne_nil
  | cons c cs =>
    rw [hcs] at hbytes hdigits
    rw [hbytes] at hvalue
    rw [List.forall_mem_cons] at hdigits
    refine ⟨_, _, hbytes, (digitValue?_ofNat hdigits.1).2.1, fun x hx => ?_, hvalue⟩
    obtain ⟨d, hd, rfl⟩ := List.mem_map.1 hx
    exact (digitValue?_ofNat (hdigits.2 d hd)).2.1

/-! ## Bytes of quoted texts -/

/-- Bytes in which every quote is written twice. -/
def doubleQuotes (bs : List UInt8) : List UInt8 :=
  bs.flatMap fun b => if b = 39 then [39, 39] else [b]

theorem doubleQuotes_eq_self {bs : List UInt8} (h : 39 ∉ bs) : doubleQuotes bs = bs := by
  induction bs with
  | nil => rfl
  | cons b bs ih =>
    rw [List.mem_cons, not_or] at h
    rw [doubleQuotes, List.flatMap_cons, if_neg (fun hb => h.1 hb.symm)]
    exact congrArg (b :: ·) (ih h.2)

/-- A quote is no byte of another character. -/
theorem not_mem_utf8EncodeChar {c : Char} (h : c ≠ '\'') : 39 ∉ String.utf8EncodeChar c := by
  intro hmem
  have hbyte : ∀ n < 256, 39 = UInt8.ofNat n → n = 39 := by
    intro n hn heq
    rw [← toNat_ofNat_of_lt hn, ← heq]
    rfl
  unfold String.utf8EncodeChar at hmem
  dsimp only at hmem
  split at hmem
  · have hval := hbyte _ (by omega) (List.mem_singleton.1 hmem)
    exact h (Char.ext (UInt32.toNat_inj.1 hval))
  · split at hmem
    · simp only [List.mem_cons, List.not_mem_nil, or_false] at hmem
      rcases hmem with hmem | hmem <;> have hval := hbyte _ (by omega) hmem <;> omega
    · split at hmem
      · simp only [List.mem_cons, List.not_mem_nil, or_false] at hmem
        rcases hmem with hmem | hmem | hmem <;> have hval := hbyte _ (by omega) hmem <;> omega
      · simp only [List.mem_cons, List.not_mem_nil, or_false] at hmem
        rcases hmem with hmem | hmem | hmem | hmem <;>
          have hval := hbyte _ (by omega) hmem <;> omega

theorem utf8_quote (s : String) : utf8 (quote s) = 39 :: doubleQuotes (utf8 s) ++ [39] := by
  have hchars : ∀ cs : List Char,
      (cs.flatMap fun c => if c = '\'' then ['\'', '\''] else [c]).flatMap String.utf8EncodeChar =
        doubleQuotes (cs.flatMap String.utf8EncodeChar) := by
    intro cs
    induction cs with
    | nil => rfl
    | cons c cs ih =>
      rw [List.flatMap_cons, List.flatMap_append, ih, List.flatMap_cons, doubleQuotes, doubleQuotes,
        List.flatMap_append]
      congr 1
      by_cases hc : c = '\''
      · subst hc
        rfl
      · rw [if_neg hc, List.flatMap_singleton]
        exact (doubleQuotes_eq_self (not_mem_utf8EncodeChar hc)).symm
  rw [quote, utf8_ofList, List.flatMap_append, List.flatMap_cons, hchars, utf8_eq_flatMap]
  rfl

/-! ## Reading one token -/

/-- A blank or nothing. -/
def Blank (rest : List UInt8) : Prop := rest = [] ∨ ∃ more, rest = 32 :: more

section Tokens

variable {rest : List UInt8} {line : Nat}

theorem span_of_blank {p : UInt8 → Bool} {bs : List UInt8} (h : ∀ x ∈ bs, p x) (hp : p 32 = false)
    (hrest : Blank rest) :
    (bs ++ rest).takeWhile p = bs ∧ (bs ++ rest).dropWhile p = rest := by
  rw [List.takeWhile_append_of_pos h, List.dropWhile_append_of_pos h]
  rcases hrest with rfl | ⟨more, rfl⟩
  · exact ⟨List.append_nil bs, rfl⟩
  · rw [List.takeWhile_cons_of_neg (by simp [hp]), List.dropWhile_cons_of_neg (by simp [hp])]
    exact ⟨List.append_nil bs, rfl⟩

theorem word_of_blank {b : UInt8} {bs : List UInt8} (h : ∀ x ∈ bs, isWordByte x)
    (hrest : Blank rest) :
    word b (bs ++ rest) line = (.identifier (decodeLossy (b :: bs)), ⟨rest, line⟩) := by
  obtain ⟨htake, hdrop⟩ := span_of_blank h (by decide) hrest
  rw [word, htake, hdrop]
  rcases hrest with rfl | ⟨more, rfl⟩ <;> rfl

theorem word_of_colon {b : UInt8} {bs : List UInt8} (h : ∀ x ∈ bs, isWordByte x)
    (hrest : Blank rest) :
    word b (bs ++ 58 :: rest) line =
      (.keyword (decodeLossy (b :: bs) ++ ":"), ⟨rest, line⟩) := by
  have htake : (bs ++ 58 :: rest).takeWhile isWordByte = bs := by
    rw [List.takeWhile_append_of_pos h, List.takeWhile_cons_of_neg (by decide), List.append_nil]
  have hdrop : (bs ++ 58 :: rest).dropWhile isWordByte = 58 :: rest := by
    rw [List.dropWhile_append_of_pos h, List.dropWhile_cons_of_neg (by decide)]
  rw [word, htake, hdrop]
  rcases hrest with rfl | ⟨more, rfl⟩ <;> rfl

theorem number_of_blank {b : UInt8} {bs : List UInt8} (h : ∀ x ∈ bs, isDigit x)
    (hrest : Blank rest) (hbound : numberOf 10 (b :: bs) < integerBound) :
    number b (bs ++ rest) line = (.integer (numberOf 10 (b :: bs)), ⟨rest, line⟩) := by
  obtain ⟨htake, hdrop⟩ := span_of_blank h (by decide) hrest
  rw [number, htake, hdrop]
  dsimp only
  rw [if_neg (Nat.not_le.2 hbound)]
  rcases hrest with rfl | ⟨more, rfl⟩ <;> rfl

theorem stringBody_quoted (line : Nat) (bs : List UInt8) (hrest : Blank rest) :
    ∃ line', stringBody (doubleQuotes bs ++ 39 :: rest) line = (some bs, ⟨rest, line'⟩) := by
  induction bs generalizing line with
  | nil =>
    refine ⟨line, ?_⟩
    rcases hrest with rfl | ⟨more, rfl⟩ <;> rfl
  | cons b bs ih =>
    by_cases hb : b = 39
    · subst hb
      obtain ⟨line', h⟩ := ih line
      refine ⟨line', ?_⟩
      change stringBody (39 :: 39 :: (doubleQuotes bs ++ 39 :: rest)) line = _
      rw [stringBody, if_pos (by decide), h]
      rfl
    · obtain ⟨line', h⟩ := ih (lineAfter b line)
      refine ⟨line', ?_⟩
      rw [doubleQuotes, List.flatMap_cons, if_neg hb, List.append_assoc, List.singleton_append]
      change stringBody (b :: (doubleQuotes bs ++ 39 :: rest)) line = _
      rw [stringBody.eq_def]
      dsimp only
      rw [if_neg (by simpa using hb), h]
      rfl

theorem stringToken_quoted (line : Nat) (make : String → TokenKind) (s : String)
    (hrest : Blank rest) :
    ∃ line', stringToken make (doubleQuotes (utf8 s) ++ 39 :: rest) line =
      (make s, ⟨rest, line'⟩) := by
  obtain ⟨line', h⟩ := stringBody_quoted line (utf8 s) hrest
  refine ⟨line', ?_⟩
  rw [stringToken, h]
  simp only [decodeLossy_utf8]

/-- What holds of the numbers of all bytes holds of a byte. -/
theorem byte_induction {P : UInt8 → Prop} (hall : ∀ n < 256, P (UInt8.ofNat n)) (b : UInt8) :
    P b := by
  have hb := hall b.toNat b.toNat_lt
  rwa [UInt8.ofNat_toNat] at hb

theorem utf8EncodeChar_ofNat {b : UInt8} :
    b < 128 → String.utf8EncodeChar (Char.ofNat b.toNat) = [b] :=
  byte_induction (P := fun b => b < 128 → String.utf8EncodeChar (Char.ofNat b.toNat) = [b])
    (by decide +kernel) b

/-- A byte with which a token may start: it is not skipped. -/
def starts (b : UInt8) : Bool := !isSpace b && b != 34

theorem starts_of_word {b : UInt8} : isLetter b || b == 95 → starts b :=
  byte_induction (P := fun b => isLetter b || b == 95 → starts b) (by decide +kernel) b

theorem starts_of_digit {b : UInt8} : isDigit b → starts b ∧ isLetter b = false ∧
    (b == 95) = false ∧ continuesOperator b = false :=
  byte_induction (P := fun b => isDigit b → starts b ∧ isLetter b = false ∧ (b == 95) = false ∧
    continuesOperator b = false) (by decide +kernel) b

theorem token_of_word {b : UInt8} {bs : List UInt8} (h : isLetter b || b == 95) :
    token b bs line = word b bs line := by
  rw [token, if_pos h]

theorem token_of_digit {b : UInt8} {bs : List UInt8} (h : isDigit b) :
    token b bs line = number b bs line := by
  obtain ⟨-, hletter, hunderscore, -⟩ := starts_of_digit h
  rw [token, if_neg (by simp [hletter, hunderscore]), if_pos h]

theorem token_of_operator (line : Nat) {b : UInt8} (bs : List UInt8) (h : isOperatorByte b) :
    starts b ∧ token b bs line = (.binary (decodeLossy (b :: bs.takeWhile continuesOperator)),
      ⟨bs.dropWhile continuesOperator, line⟩) := by
  have hb : starts b ∧ (isLetter b || b == 95) = false ∧ isDigit b = false ∧ (b == 39) = false ∧
      (b == 36) = false ∧ (b == 35) = false ∧ (b == 58) = false := by
    revert h
    exact byte_induction (P := fun b => isOperatorByte b → starts b ∧
      (isLetter b || b == 95) = false ∧ isDigit b = false ∧ (b == 39) = false ∧
        (b == 36) = false ∧ (b == 35) = false ∧ (b == 58) = false) (by decide +kernel) b
  obtain ⟨hstarts, hletter, hdigit, hquote, hdollar, hsign, hcolon⟩ := hb
  refine ⟨hstarts, ?_⟩
  rw [token, hletter, hdigit, hquote, hdollar, hsign, hcolon, h]
  rfl

/-- A token that was spelled is read as that token. -/
theorem token_spelling (line : Nat) {kind : TokenKind} (h : kind.Spellable)
    (hrest : Blank rest) :
    ∃ b bs line', utf8 kind.spelling = b :: bs ∧ starts b ∧
      token b (bs ++ rest) line = (kind, ⟨rest, line'⟩) := by
  cases kind with
  | identifier name =>
    obtain ⟨b, bs, hbytes, hb, hbs⟩ := utf8_word h
    refine ⟨b, bs, line, hbytes, starts_of_word hb, ?_⟩
    rw [token_of_word hb, word_of_blank hbs hrest, ← hbytes, decodeLossy_utf8]
  | keyword name =>
    obtain ⟨word, hword, rfl⟩ := h
    obtain ⟨b, bs, hbytes, hb, hbs⟩ := utf8_word hword
    refine ⟨b, bs ++ [58], line, ?_, starts_of_word hb, ?_⟩
    · rw [TokenKind.spelling, utf8_append, hbytes]
      rfl
    · rw [token_of_word hb, List.append_assoc, List.singleton_append, word_of_colon hbs hrest,
        ← hbytes, decodeLossy_utf8]
  | binary operator =>
    rcases utf8_operator h with rfl | ⟨b, bs, hbytes, hb, hbs⟩
    · exact ⟨124, [], line, rfl, rfl, rfl⟩
    · obtain ⟨hstarts, htoken⟩ := token_of_operator line (bs ++ rest) hb
      obtain ⟨htake, hdrop⟩ := span_of_blank hbs (by decide) hrest
      refine ⟨b, bs, line, hbytes, hstarts, ?_⟩
      rw [htoken, htake, hdrop, ← hbytes, decodeLossy_utf8]
  | integer n =>
    obtain ⟨b, bs, hbytes, hb, hbs, hvalue⟩ := utf8_toString n
    refine ⟨b, bs, line, hbytes, (starts_of_digit hb).1, ?_⟩
    rw [token_of_digit hb, number_of_blank hbs hrest (by rw [hvalue]; exact h), hvalue]
  | float x => exact h.elim
  | character b =>
    refine ⟨36, [b], lineAfter b line, ?_, rfl, rfl⟩
    rw [TokenKind.spelling, utf8_ofList, List.flatMap_cons, List.flatMap_singleton,
      utf8EncodeChar_ofNat h]
    rfl
  | string s =>
    obtain ⟨line', hstring⟩ := stringToken_quoted line .string s hrest
    refine ⟨39, doubleQuotes (utf8 s) ++ [39], line', ?_, rfl, ?_⟩
    · rw [TokenKind.spelling, utf8_quote, List.cons_append]
    · rw [List.append_assoc, List.singleton_append]
      exact hstring
  | symbol s =>
    obtain ⟨line', hsymbol⟩ := stringToken_quoted line .symbol s hrest
    refine ⟨35, utf8 (quote s), line', ?_, rfl, ?_⟩
    · rw [TokenKind.spelling, utf8_append]
      rfl
    · rw [utf8_quote, List.append_assoc, List.singleton_append]
      exact hsymbol
  | arrayStart => exact ⟨35, [40], line, rfl, rfl, rfl⟩
  | assign => exact ⟨58, [61], line, rfl, rfl, rfl⟩
  | caret => exact ⟨94, [], line, rfl, rfl, rfl⟩
  | colon =>
    refine ⟨58, [], line, rfl, rfl, ?_⟩
    rcases hrest with rfl | ⟨more, rfl⟩ <;> rfl
  | period => exact ⟨46, [], line, rfl, rfl, rfl⟩
  | semicolon => exact ⟨59, [], line, rfl, rfl, rfl⟩
  | leftParen => exact ⟨40, [], line, rfl, rfl, rfl⟩
  | rightParen => exact ⟨41, [], line, rfl, rfl, rfl⟩
  | leftBracket => exact ⟨91, [], line, rfl, rfl, rfl⟩
  | rightBracket => exact ⟨93, [], line, rfl, rfl, rfl⟩
  | endOfInput => exact h.elim
  | error e => exact h.elim

end Tokens

/-! ## Reading all tokens -/

section Spell

variable {rest : List UInt8} {line : Nat}

theorem tokens_eq (c : Cursor) : tokens c =
    if c.next.1.kind = .endOfInput then [c.next.1] else c.next.1 :: tokens c.next.2 := by
  rw [tokens]
  split
  rename_i t after h
  simp only [h]
  split <;> rfl

/-- A blank in front of a token is skipped. -/
theorem tokens_blank : tokens ⟨32 :: rest, line⟩ = tokens ⟨rest, line⟩ := by
  have hnext : Cursor.next ⟨32 :: rest, line⟩ = Cursor.next ⟨rest, line⟩ := by
    rfl
  rw [tokens_eq, hnext, ← tokens_eq]

theorem tokens_nil : (tokens ⟨[], line⟩).map Token.kind = [.endOfInput] := by
  rw [tokens_eq]
  rfl

theorem tokens_of_token {b : UInt8} {bs : List UInt8} {kind : TokenKind} {c : Cursor}
    (hb : starts b) (h : token b bs line = (kind, c)) (hkind : kind ≠ .endOfInput) :
    (tokens ⟨b :: bs, line⟩).map Token.kind = kind :: (tokens c).map Token.kind := by
  obtain ⟨hspace, hquote⟩ := Bool.and_eq_true_iff.1 hb
  have htrivia : skipTrivia false (b :: bs) line = (true, ⟨b :: bs, line⟩) := by
    rw [skipTrivia, if_neg (by simpa using hspace), if_neg (by simpa using hquote)]
  have hnext : Cursor.next ⟨b :: bs, line⟩ = (⟨kind, line⟩, c) := by
    rw [Cursor.next, htrivia]
    simp only [h]
  rw [tokens_eq, hnext, if_neg hkind]
  rfl

theorem TokenKind.Spellable.ne_endOfInput {kind : TokenKind} (h : kind.Spellable) :
    kind ≠ .endOfInput := by
  rintro rfl
  exact h

/-- The tokens of a piece of source are read, and then those of the rest. -/
theorem tokens_lexeme (line : Nat) {l : Lexeme} (h : l.Spellable) (hrest : Blank rest) :
    ∃ line', (tokens ⟨utf8 l.text ++ rest, line⟩).map Token.kind =
      l.kinds ++ (tokens ⟨rest, line'⟩).map Token.kind := by
  cases l with
  | token kind =>
    obtain ⟨b, bs, line', hbytes, hb, htoken⟩ := token_spelling line h hrest
    refine ⟨line', ?_⟩
    rw [Lexeme.text, hbytes, List.cons_append, tokens_of_token hb htoken h.ne_endOfInput]
    rfl
  | negative n =>
    obtain ⟨b, bs, hbytes, hb, hbs, hvalue⟩ := utf8_toString n
    obtain ⟨hstarts, -, -, hcontinues⟩ := starts_of_digit hb
    have hminus : token 45 (b :: bs ++ rest) line = (.binary "-", ⟨b :: bs ++ rest, line⟩) := by
      rw [(token_of_operator _ _ (by decide)).2, List.cons_append,
        List.takeWhile_cons_of_neg (by simp [hcontinues]),
        List.dropWhile_cons_of_neg (by simp [hcontinues])]
      rfl
    have hnumber : token b (bs ++ rest) line = (.integer n, ⟨rest, line⟩) := by
      rw [token_of_digit hb, number_of_blank hbs hrest (by rw [hvalue]; exact h), hvalue]
    have htext : utf8 (Lexeme.negative n).text = 45 :: b :: bs := by
      rw [Lexeme.text, utf8_append, hbytes]
      rfl
    refine ⟨line, ?_⟩
    rw [htext, List.cons_append, tokens_of_token rfl hminus nofun, List.cons_append,
      tokens_of_token hstarts hnumber nofun]
    rfl

theorem tokens_spell {ls : List Lexeme} (h : ∀ l ∈ ls, l.Spellable) :
    (tokens ⟨utf8 (spell ls), line⟩).map Token.kind =
      ls.flatMap Lexeme.kinds ++ [.endOfInput] := by
  induction ls generalizing line with
  | nil => exact tokens_nil
  | cons l ls ih =>
    rw [List.forall_mem_cons] at h
    cases ls with
    | nil =>
      obtain ⟨line', htokens⟩ := tokens_lexeme line h.1 (.inl rfl)
      have htext : spell [l] = l.text := String.intercalate_singleton
      rw [htext, ← List.append_nil (utf8 l.text), htokens, tokens_nil, List.flatMap_singleton]
    | cons l' ls =>
      have htext : spell (l :: l' :: ls) = l.text ++ " " ++ spell (l' :: ls) :=
        String.intercalate_cons_cons
      obtain ⟨line', htokens⟩ :=
        tokens_lexeme line h.1 (.inr ⟨utf8 (spell (l' :: ls)), rfl⟩)
      have hbytes : utf8 (spell (l :: l' :: ls)) = utf8 l.text ++
          32 :: utf8 (spell (l' :: ls)) := by
        rw [htext, utf8_append, utf8_append, List.append_assoc]
        rfl
      rw [hbytes, htokens, tokens_blank, ih h.2, ← List.append_assoc]
      rfl

end Spell

/-- **Source that was spelled is read as the tokens that were spelled.** -/
theorem tokenize_spell {ls : List Lexeme} (h : ∀ l ∈ ls, l.Spellable) :
    (tokenize (utf8 (spell ls))).map Token.kind = ls.flatMap Lexeme.kinds ++ [.endOfInput] :=
  tokens_spell h

end Smalltalk
