import Smalltalk.Source.Lexer
import Mathlib.Data.List.TakeWhile

/-!
# Where tokens stand

The lexer keeps the source that is left and the number of a line, but not how much of the source it
has taken, and it counts lines in three places only: in blanks and comments, in strings, and in a
character literal. All else it takes byte by byte without looking for newlines, since none of those
bytes can be one.

A source is cut into *pieces*, one for each token: the blanks and comments in front of it and the
bytes of the token itself. The pieces of all tokens together are the source, and so every token has
a first byte, before which newlines can be counted.

## Main definitions

* `Cursor.Takes`: between two cursors lie the given bytes
* `Lexer.Trivia`: blanks and comments
* `Piece`, `Cursor.Cuts`: a token in its place

## Main results

* `Cursor.exists_piece`: what one call of the lexer takes
* `exists_pieces`: how a source is cut
* `lexer_advances_and_numbers_lines`
-/

namespace Smalltalk

open Lexer

/-- The number of newlines among bytes. -/
def newlines (bs : List UInt8) : Nat := bs.count 10

@[simp] theorem newlines_append (bs cs : List UInt8) :
    newlines (bs ++ cs) = newlines bs + newlines cs := List.count_append

theorem newlines_eq_zero {bs : List UInt8} (h : 10 ∉ bs) : newlines bs = 0 := List.count_eq_zero.2 h

/-! ## Between two cursors -/

/-- Between the cursors lie the bytes `taken`, and their lines are counted. -/
structure Cursor.Takes (c : Cursor) (taken : List UInt8) (c' : Cursor) : Prop where
  rest : c.rest = taken ++ c'.rest
  line : c'.line = c.line + newlines taken

/-- The second cursor is the first one some bytes later. -/
def Cursor.Precedes (c c' : Cursor) : Prop := ∃ taken, c.Takes taken c'

namespace Cursor

variable {c c' c'' : Cursor} {bs taken : List UInt8} {line : Nat}

theorem Takes.refl (c : Cursor) : c.Takes [] c := ⟨rfl, rfl⟩

theorem Takes.trans {more : List UInt8} (h : c.Takes taken c') (h' : c'.Takes more c'') :
    c.Takes (taken ++ more) c'' := by
  refine ⟨?_, ?_⟩
  · rw [h.rest, h'.rest, List.append_assoc]
  · rw [h'.line, h.line, newlines_append, Nat.add_assoc]

/-- Bytes other than newlines. -/
theorem takes_of_not_mem (h : 10 ∉ taken) : Takes ⟨taken ++ bs, line⟩ taken ⟨bs, line⟩ :=
  ⟨rfl, by rw [newlines_eq_zero h]; rfl⟩

/-- One byte, whatever it is. -/
theorem takes_byte (b : UInt8) : Takes ⟨b :: bs, line⟩ [b] ⟨bs, lineAfter b line⟩ := by
  refine ⟨rfl, ?_⟩
  by_cases hb : b = 10
  · subst hb
    rfl
  · have hline : lineAfter b line = line := if_neg (by simpa using hb)
    rw [newlines_eq_zero (by simpa using Ne.symm hb), hline]
    rfl

theorem Precedes.refl (c : Cursor) : c.Precedes c := ⟨[], .refl c⟩

theorem Takes.precedes (h : c.Takes taken c') (h' : c'.Precedes c'') : c.Precedes c'' := by
  obtain ⟨more, h'⟩ := h'
  exact ⟨taken ++ more, h.trans h'⟩

/-- A byte that is no newline. -/
theorem Precedes.cons {b : UInt8} (hb : b ≠ 10) (h : Precedes ⟨bs, line⟩ c) :
    Precedes ⟨b :: bs, line⟩ c :=
  have hmem : 10 ∉ [b] := by simpa using hb.symm
  (takes_of_not_mem hmem).precedes h

/-- As many bytes as there are of a class without the newline. -/
theorem Precedes.span {p : UInt8 → Bool} (hp : p 10 = false)
    (h : Precedes ⟨bs.dropWhile p, line⟩ c) : Precedes ⟨bs, line⟩ c := by
  have hfront : 10 ∉ bs.takeWhile p := fun hmem => by
    rw [List.mem_takeWhile_imp hmem] at hp
    cases hp
  have htakes : Takes ⟨bs.takeWhile p ++ bs.dropWhile p, line⟩ (bs.takeWhile p)
      ⟨bs.dropWhile p, line⟩ := takes_of_not_mem hfront
  rw [List.takeWhile_append_dropWhile] at htakes
  exact htakes.precedes h

end Cursor

/-! ## The bytes of a token -/

namespace Lexer

open Cursor

/-- What readers of tokens do: they take some bytes, and what they answer is not the end of
input. -/
structure Reads (c : Cursor) (r : TokenKind × Cursor) : Prop where
  precedes : c.Precedes r.2
  kind : r.1 ≠ .endOfInput

section Combinators

variable {c : Cursor} {bs : List UInt8} {line : Nat} {kind : TokenKind} {r : TokenKind × Cursor}

theorem Reads.here (h : kind ≠ .endOfInput) : Reads c (kind, c) := ⟨.refl _, h⟩

theorem Reads.cons {b : UInt8} (hb : b ≠ 10) (h : Reads ⟨bs, line⟩ r) : Reads ⟨b :: bs, line⟩ r :=
  ⟨.cons hb h.precedes, h.kind⟩

theorem Reads.span {p : UInt8 → Bool} (hp : p 10 = false) (h : Reads ⟨bs.dropWhile p, line⟩ r) :
    Reads ⟨bs, line⟩ r :=
  ⟨.span hp h.precedes, h.kind⟩

end Combinators

variable (b : UInt8) (bs : List UInt8) (line : Nat)

theorem reads_word : Reads ⟨bs, line⟩ (word b bs line) := by
  refine .span (p := isWordByte) rfl ?_
  unfold word
  dsimp only
  generalize bs.dropWhile isWordByte = rest
  split
  · split
    · exact .here (by simp)
    · exact .cons (by decide) (.here (by simp))
  · exact .here (by simp)

theorem reads_number : Reads ⟨bs, line⟩ (number b bs line) := by
  refine .span (p := isDigit) rfl ?_
  unfold number
  dsimp only
  generalize bs.dropWhile isDigit = rest
  split
  · exact .here (by simp)
  · split
    · split
      · split
        · exact .here (by simp)
        · refine .cons (by decide) (.span rfl (.here ?_))
          unfold radixInteger
          split <;> simp
      · exact .here (by simp)
    · rename_i d more
      split
      · rename_i hd
        have hd' : d ≠ 10 := by
          rintro rfl
          cases hd
        exact .cons (by decide) (.cons hd' (.span rfl (.here (by simp))))
      · exact .here (by simp)
    · exact .here (by simp)

/-- In strings, lines are counted. -/
theorem precedes_stringBody : Precedes ⟨bs, line⟩ (stringBody bs line).2 := by
  fun_induction stringBody bs line with
  | case1 line => exact .refl _
  | case2 b line hb bs body c h ih =>
    obtain rfl := eq_of_beq hb
    rw [h] at ih
    exact .cons (by decide) (.cons (by decide) ih)
  | case3 b line hb bs =>
    obtain rfl := eq_of_beq hb
    exact .cons (by decide) (.refl _)
  | case4 b bs line hb body c h ih =>
    rw [h] at ih
    exact (takes_byte b).precedes ih

theorem reads_stringToken {make : String → TokenKind} (hmake : ∀ s, make s ≠ .endOfInput) :
    Reads ⟨bs, line⟩ (stringToken make bs line) := by
  have h := precedes_stringBody bs line
  unfold stringToken
  split
  · rename_i heq
    rw [heq] at h
    exact ⟨h, hmake _⟩
  · rename_i heq
    rw [heq] at h
    exact ⟨h, by simp⟩

theorem precedes_symbolTail (afterColon : Bool) :
    Precedes ⟨bs, line⟩ ⟨(symbolTail afterColon bs).2, line⟩ := by
  fun_induction symbolTail afterColon bs with
  | case1 => exact .refl _
  | case2 afterColon b bs hb name rest h ih =>
    obtain rfl := eq_of_beq hb
    rw [h] at ih
    exact .cons (by decide) ih
  | case3 afterColon b bs hb hletter name rest h ih =>
    rw [h] at ih
    refine .cons ?_ ih
    rintro rfl
    cases afterColon <;> cases hletter
  | case4 => exact .refl _

theorem reads_symbol : Reads ⟨bs, line⟩ (symbol bs line) := by
  unfold symbol
  split
  · exact .here (by simp)
  · rename_i b tail
    split
    · rename_i hb
      obtain rfl := eq_of_beq hb
      exact .cons (by decide) (.here (by simp))
    split
    · rename_i hb
      obtain rfl := eq_of_beq hb
      exact .cons (by decide) (reads_stringToken tail line (by simp))
    split
    · rename_i hb
      refine .cons ?_ ⟨precedes_symbolTail tail line false, by simp⟩
      rintro rfl
      cases hb
    split
    · rename_i hb
      refine .cons ?_ (.span rfl (.here (by simp)))
      rintro rfl
      cases hb
    · exact .here (by simp)

/-- A character literal may be a newline. -/
theorem reads_character : Reads ⟨bs, line⟩ (character bs line) := by
  unfold character
  split
  · exact .here (by simp)
  · exact ⟨(takes_byte _).precedes (.refl _), by simp⟩

theorem reads_colon : Reads ⟨bs, line⟩ (colon bs line) := by
  unfold colon
  split
  · exact .cons (by decide) (.here (by simp))
  · exact .here (by simp)

theorem punctuation?_ne : punctuation? b ≠ some .endOfInput := by
  unfold punctuation?
  repeat' split
  all_goals simp

/-- What a token takes behind its first byte. -/
theorem reads_token : Reads ⟨bs, line⟩ (token b bs line) := by
  unfold token
  split
  · exact reads_word b bs line
  split
  · exact reads_number b bs line
  split
  · exact reads_stringToken bs line (by simp)
  split
  · exact reads_character bs line
  split
  · exact reads_symbol bs line
  split
  · exact reads_colon bs line
  split
  · exact .span rfl (.here (by simp))
  · have hne := punctuation?_ne b
    refine .here ?_
    cases hkind : punctuation? b with
    | none => simp
    | some kind => exact fun h => hne (hkind.trans (congrArg some h))

end Lexer

/-! ## Blanks and comments -/

namespace Lexer

open Cursor

/-- Blanks and comments. -/
inductive Trivia : List UInt8 → Prop
  | nil : Trivia []
  | blank {b : UInt8} {bs : List UInt8} (hb : isSpace b = true) (h : Trivia bs) : Trivia (b :: bs)
  | comment {body bs : List UInt8} (hbody : 34 ∉ body) (h : Trivia bs) :
      Trivia (34 :: body ++ 34 :: bs)

/-- Blanks and comments, and the beginning of another comment if one is open. -/
def Within : Bool → List UInt8 → Prop
  | false, bs => Trivia bs
  | true, bs => ∃ gap body, Trivia gap ∧ 34 ∉ body ∧ bs = gap ++ 34 :: body

theorem Trivia.append {bs cs : List UInt8} (h : Trivia bs) (h' : Trivia cs) :
    Trivia (bs ++ cs) := by
  induction h with
  | nil => exact h'
  | blank hb _ ih => exact .blank hb ih
  | @comment body bs hbody _ ih =>
    rw [List.append_assoc]
    exact .comment hbody ih

variable {front : List UInt8} {b : UInt8}

theorem Within.blank (h : Within false front) (hb : isSpace b = true) :
    Within false (front ++ [b]) :=
  Trivia.append h (.blank hb .nil)

theorem Within.openComment (h : Within false front) : Within true (front ++ [34]) :=
  ⟨front, [], h, List.not_mem_nil, rfl⟩

theorem Within.inside (h : Within true front) (hb : b ≠ 34) : Within true (front ++ [b]) := by
  obtain ⟨gap, body, hgap, hbody, rfl⟩ := h
  refine ⟨gap, body ++ [b], hgap, ?_, List.append_assoc _ _ _⟩
  simp [hbody, hb.symm]

theorem Within.closeComment (h : Within true front) : Within false (front ++ [34]) := by
  obtain ⟨gap, body, hgap, hbody, rfl⟩ := h
  rw [List.append_assoc]
  exact Trivia.append hgap (.comment hbody .nil)

/-- **What is skipped** are blanks and comments, with all of their lines counted. Either all
comments are closed and what follows is neither a blank nor a comment, or the source ends within
one. -/
theorem takes_skipTrivia (inComment : Bool) (bs : List UInt8) (line : Nat)
    (h : Within inComment front) :
    ∃ taken, Takes ⟨bs, line⟩ taken (skipTrivia inComment bs line).2 ∧
      Within (!(skipTrivia inComment bs line).1) (front ++ taken) ∧
      ((skipTrivia inComment bs line).1 = false → (skipTrivia inComment bs line).2.rest = []) ∧
      ∀ b, (skipTrivia inComment bs line).2.rest.head? = some b → isSpace b = false ∧ b ≠ 34 := by
  -- the induction is on the source; what has been skipped so far is in front
  fun_induction skipTrivia inComment bs line generalizing front with
  | case1 inComment line => exact ⟨[], .refl _, by simpa using h, fun _ => rfl, by simp⟩
  | case2 b bs line hb ih =>
    obtain ⟨taken, htakes, hwithin, hrest⟩ := ih (h.blank hb)
    exact ⟨b :: taken, (takes_byte b).trans htakes, by simpa using hwithin, hrest⟩
  | case3 b bs line hb hquote ih =>
    obtain rfl := eq_of_beq hquote
    obtain ⟨taken, htakes, hwithin, hrest⟩ := ih h.openComment
    exact ⟨34 :: taken, (takes_byte 34).trans htakes, by simpa using hwithin, hrest⟩
  | case4 b bs line hb hquote =>
    refine ⟨[], .refl _, by simpa using h, by simp, ?_⟩
    rintro _ ⟨⟩
    exact ⟨by simpa using hb, by simpa using hquote⟩
  | case5 b bs line hquote ih =>
    obtain rfl := eq_of_beq hquote
    obtain ⟨taken, htakes, hwithin, hrest⟩ := ih h.closeComment
    exact ⟨34 :: taken, (takes_byte 34).trans htakes, by simpa using hwithin, hrest⟩
  | case6 b bs line hquote ih =>
    obtain ⟨taken, htakes, hwithin, hrest⟩ := ih (h.inside (by simpa using hquote))
    exact ⟨b :: taken, (takes_byte b).trans htakes, by simpa using hwithin, hrest⟩

end Lexer

/-! ## Pieces -/

/-- A token in its place: what is skipped in front of it, and the bytes that it is read from. -/
structure Piece where
  gap : List UInt8
  lexeme : List UInt8
  token : Token

/-- All bytes of a piece. -/
def Piece.bytes (p : Piece) : List UInt8 := p.gap ++ p.lexeme

/-- How the bytes of a token begin. Only the end of input has none, and only a comment that is not
closed begins like a comment. -/
inductive Opens : TokenKind → List UInt8 → Prop
  | endOfInput : Opens .endOfInput []
  | openComment {body : List UInt8} (h : 34 ∉ body) :
      Opens (.error .unterminatedComment) (34 :: body)
  | token {kind : TokenKind} {b : UInt8} {bs : List UInt8} (hkind : kind ≠ .endOfInput)
      (hspace : isSpace b = false) (hquote : b ≠ 34) : Opens kind (b :: bs)

theorem Opens.eq_endOfInput {kind : TokenKind} (h : Opens kind []) : kind = .endOfInput := by
  cases h
  rfl

/-- The piece is what is read from one cursor to the other. -/
structure Cursor.Cuts (c : Cursor) (p : Piece) (c' : Cursor) : Prop where
  next : c.next = (p.token, c')
  takes : c.Takes p.bytes c'
  gap : Trivia p.gap
  opens : Opens p.token.kind p.lexeme
  /-- The line on which the token begins, unless it is a comment that is not closed. -/
  line : p.token.kind ≠ .error .unterminatedComment → p.token.line = c.line + newlines p.gap
  atEnd : p.token.kind = .endOfInput → c'.rest = []

/-- **What one call of the lexer takes.** -/
theorem Cursor.exists_piece (c : Cursor) : ∃ p, c.Cuts p c.next.2 := by
  obtain ⟨gap, htakes, hwithin, hopen, hhead⟩ :=
    takes_skipTrivia false c.rest c.line (show Within false [] from Trivia.nil)
  unfold Cursor.next
  split
  · -- the source ends within a comment
    rename_i c₁ heq
    rw [heq] at htakes hwithin hopen
    obtain ⟨gap', body, hgap, hbody, rfl⟩ := hwithin
    refine ⟨⟨gap', 34 :: body, ⟨.error .unterminatedComment, c₁.line⟩⟩, ?_, htakes, hgap,
      .openComment hbody, fun h => absurd rfl h, fun h => ?_⟩
    · rw [Cursor.next, heq]
    · cases h
  · rename_i line heq
    rw [heq] at htakes hwithin
    refine ⟨⟨gap, [], ⟨.endOfInput, line⟩⟩, ?_, ?_, hwithin, .endOfInput, fun _ => htakes.line,
      fun _ => rfl⟩
    · rw [Cursor.next, heq]
    · rw [Piece.bytes, List.append_nil]
      exact htakes
  · rename_i b bs line heq
    rw [heq] at htakes hwithin hhead
    obtain ⟨hspace, hquote⟩ := hhead b rfl
    obtain ⟨⟨taken, htoken⟩, hkind⟩ := reads_token b bs line
    have hb : lineAfter b line = line := if_neg fun h => by
      obtain rfl := eq_of_beq h
      cases hspace
    refine ⟨⟨gap, b :: taken, ⟨(token b bs line).1, line⟩⟩, ?_, ?_, hwithin,
      .token hkind hspace hquote, fun _ => htakes.line, fun h => absurd h hkind⟩
    · rw [Cursor.next, heq]
    · have hfirst : Takes ⟨b :: bs, line⟩ [b] ⟨bs, lineAfter b line⟩ := takes_byte b
      rw [hb] at hfirst
      exact htakes.trans (hfirst.trans htoken)

theorem Cursor.Cuts.spelledOut {c c' : Cursor} {p : Piece} (h : c.Cuts p c') :
    Cuts ⟨p.bytes ++ c'.rest, c.line⟩ p ⟨c'.rest, c.line + newlines p.bytes⟩ := by
  rw [← h.takes.rest, ← h.takes.line]
  exact h

/-- **A source is cut into pieces**, one for each token, that are put together again as the
source. -/
theorem exists_pieces (c : Cursor) : ∃ pieces : List Piece, pieces.map Piece.token = tokens c ∧
    pieces.flatMap Piece.bytes = c.rest ∧ ∀ before p after, pieces = before ++ p :: after →
      Cursor.Cuts
        ⟨p.bytes ++ after.flatMap Piece.bytes, c.line + newlines (before.flatMap Piece.bytes)⟩ p
        ⟨after.flatMap Piece.bytes,
          c.line + newlines (before.flatMap Piece.bytes) + newlines p.bytes⟩ := by
  fun_induction tokens c with
  | case1 c t c' h e =>
    obtain ⟨p, hp⟩ := c.exists_piece
    rw [h] at hp
    obtain rfl : t = p.token := (Prod.ext_iff.1 (h.symm.trans hp.next)).1
    have hend := hp.atEnd e
    refine ⟨[p], rfl, ?_, fun before q after hsplit => ?_⟩
    · rw [hp.takes.rest, hend]
      rfl
    cases before with
    | nil =>
      obtain ⟨rfl, rfl⟩ := List.cons.inj hsplit
      have hcut := hp.spelledOut
      rw [hend] at hcut
      exact hcut
    | cons p' before => exact absurd (List.cons.inj hsplit).2 (by simp)
  | case2 c t c' h e _ ih =>
    obtain ⟨ps, htokens, hbytes, hcuts⟩ := ih
    obtain ⟨p, hp⟩ := c.exists_piece
    rw [h] at hp
    obtain rfl : t = p.token := (Prod.ext_iff.1 (h.symm.trans hp.next)).1
    refine ⟨p :: ps, congrArg _ htokens, ?_, fun before q after hsplit => ?_⟩
    · rw [List.flatMap_cons, hbytes, hp.takes.rest]
    cases before with
    | nil =>
      obtain ⟨rfl, rfl⟩ := List.cons.inj hsplit
      have hcut := hp.spelledOut
      rw [← hbytes] at hcut
      exact hcut
    | cons p' before =>
      obtain ⟨rfl, rfl⟩ := List.cons.inj hsplit
      have hcut := hcuts before q after rfl
      rw [hp.takes.line, Nat.add_assoc c.line, ← newlines_append] at hcut
      exact hcut

/-- The end of input is the last token and no other. -/
theorem tokens_eq_append (c : Cursor) :
    ∃ ts last, tokens c = ts ++ [last] ∧ last.kind = .endOfInput ∧ ∀ t ∈ ts,
      t.kind ≠ .endOfInput := by
  fun_induction tokens c with
  | case1 c t after h e => exact ⟨[], t, rfl, e, List.forall_mem_nil _⟩
  | case2 c t after h e _ ih =>
    obtain ⟨ts, last, htokens, hlast, hts⟩ := ih
    exact ⟨t :: ts, last, congrArg (t :: ·) htokens, hlast, List.forall_mem_cons.2 ⟨e, hts⟩⟩

/-- **The lexer advances and numbers lines.** Wherever it stands, it either answers the end of input
and has nothing left, or takes at least one byte. So the tokens of a source come to an end, with the
only end of input as the last of them. And a source is cut into the pieces of its tokens: where a
piece begins its token is read, and the lexer stands behind the piece afterwards, with its newlines
counted. Unless the token is a comment that is not closed, its line is one more than the newlines
before its first byte. -/
theorem lexer_advances_and_numbers_lines :
    (∀ c : Cursor, (c.next.1.kind = .endOfInput ∧ c.next.2.rest = []) ∨
      ∃ taken, taken ≠ [] ∧ c.rest = taken ++ c.next.2.rest) ∧
    ∀ source : List UInt8,
      (∃ ts last, tokenize source = ts ++ [last] ∧ last.kind = .endOfInput ∧
        ∀ t ∈ ts, t.kind ≠ .endOfInput) ∧
      ∃ pieces : List Piece, pieces.map Piece.token = tokenize source ∧
        pieces.flatMap Piece.bytes = source ∧ ∀ before p after, pieces = before ++ p :: after →
          Cursor.next ⟨p.bytes ++ after.flatMap Piece.bytes,
              1 + newlines (before.flatMap Piece.bytes)⟩ =
            (p.token, ⟨after.flatMap Piece.bytes,
              1 + newlines (before.flatMap Piece.bytes ++ p.bytes)⟩) ∧
          Trivia p.gap ∧ Opens p.token.kind p.lexeme ∧
          (p.token.kind ≠ .error .unterminatedComment →
            p.token.line = 1 + newlines (before.flatMap Piece.bytes ++ p.gap)) := by
  refine ⟨fun c => ?_, fun source => ⟨tokens_eq_append _, ?_⟩⟩
  · obtain ⟨p, hp⟩ := c.exists_piece
    rw [hp.next]
    by_cases hkind : p.token.kind = .endOfInput
    · exact .inl ⟨hkind, hp.atEnd hkind⟩
    · refine .inr ⟨p.bytes, fun hnil => hkind ?_, hp.takes.rest⟩
      have hopens := hp.opens
      rw [(List.append_eq_nil_iff.1 hnil).2] at hopens
      exact hopens.eq_endOfInput
  · obtain ⟨pieces, htokens, hbytes, hcuts⟩ := exists_pieces ⟨source, 1⟩
    refine ⟨pieces, htokens, hbytes, fun before p after hsplit => ?_⟩
    have hcut := hcuts before p after hsplit
    refine ⟨?_, hcut.gap, hcut.opens, fun hkind => ?_⟩
    · rw [hcut.next, newlines_append, Nat.add_assoc]
    · rw [hcut.line hkind, newlines_append, Nat.add_assoc]

end Smalltalk
