import Mathlib
import Smalltalk.Proofs.Grammar.Printing
import Smalltalk.Source.Parser

/-!
# Reading source that was written from a tree

A tree that is written as source is read back, up to the numbers of lines. The tokens come back by
`tokenize_spell`; this file is about the parser.

A parser is followed along the tokens of a tree with whatever may stand behind them: `Reads` says
what it answers and what it leaves. Parts of an expression are written as primaries, so a part is
read whatever follows. A whole expression needs a token behind it that goes on with no message, and
`level` orders the tokens by how much they go on with. So there are two judgements about an
expression, `ReadsAsOperand` and `ReadsAsExpression`, and an expression in parentheses takes the
one to the other.

## Main definitions

* `Parser.Reads`: what a parser answers and what it leaves
* `Parser.level`: how strongly a token binds what stands in front of it
* `Parser.ReadsBack`: the expression is read wherever it may stand

## Main results

* `Parser.Expr.readsBack`: a grammatical expression is read back
* `Parser.method_lexemes`: a grammatical method is read back from its tokens
* `parsing_inverts_printing`: a grammatical method is read back from its source
-/

namespace Smalltalk

namespace Parser

/-! ## Tokens of pieces of source -/

/-- The tokens are those of these pieces of source, on whatever lines. -/
def Spells (ts : List Token) (ls : List Lexeme) : Prop :=
  ts.map Token.kind = ls.flatMap Lexeme.kinds

section Spells

variable {ts : List Token} {ls ls' : List Lexeme}

theorem spells_nil : Spells ts [] ↔ ts = [] := List.map_eq_nil_iff

theorem spells_token {kind : TokenKind} :
    Spells ts (.token kind :: ls) ↔ ∃ line ts', ts = ⟨kind, line⟩ :: ts' ∧ Spells ts' ls := by
  constructor
  · intro h
    obtain ⟨⟨k, line⟩, ts', rfl, rfl, hts'⟩ := List.map_eq_cons_iff.1 h
    exact ⟨line, ts', rfl, hts'⟩
  · rintro ⟨line, ts', rfl, hts'⟩
    exact congrArg (kind :: ·) hts'

theorem spells_negative {n : Nat} : Spells ts (.negative n :: ls) ↔
    ∃ line line' ts', ts = ⟨.binary "-", line⟩ :: ⟨.integer n, line'⟩ :: ts' ∧ Spells ts' ls := by
  constructor
  · intro h
    obtain ⟨⟨k, line⟩, ts₁, rfl, rfl, hts₁⟩ := List.map_eq_cons_iff.1 h
    obtain ⟨⟨k, line'⟩, ts', rfl, rfl, hts'⟩ := List.map_eq_cons_iff.1 hts₁
    exact ⟨line, line', ts', rfl, hts'⟩
  · rintro ⟨line, line', ts', rfl, hts'⟩
    exact congrArg (fun l => .binary "-" :: .integer n :: l) hts'

theorem spells_single {kind : TokenKind} :
    Spells ts [.token kind] ↔ ∃ line, ts = [⟨kind, line⟩] := by
  simp only [spells_token, spells_nil, exists_eq_right]

theorem spells_append : Spells ts (ls ++ ls') ↔
    ∃ ts₁ ts₂, ts = ts₁ ++ ts₂ ∧ Spells ts₁ ls ∧ Spells ts₂ ls' := by
  unfold Spells
  rw [List.flatMap_append, List.map_eq_append_iff]

end Spells

/-! ## What a parser reads -/

/-- The parser reads a value with this property and leaves these tokens. -/
def Reads {α : Type} {n : Nat} (P : α → Prop) (rest : List Token)
    (x : Except SyntaxError (Parsed α n)) : Prop :=
  ∃ r : Parsed α n, x = .ok r ∧ P r.value ∧ r.rest = rest

section Rules

variable {α β : Type} {n k : Nat} {P : α → Prop} {Q : β → Prop} {rest rest' : List Token}

theorem Reads.pure {a : α} {hlt : rest.length < n} (h : P a) :
    Reads P rest (Pure.pure ⟨a, rest, hlt⟩ : Except SyntaxError (Parsed α n)) :=
  ⟨_, rfl, h, rfl⟩

/-- What is shown of the rest of a parser is shown of all of it. -/
theorem Reads.then {γ : Type} {x : Except SyntaxError (Parsed α n)}
    {f : Parsed α n → Except SyntaxError γ} {R : Except SyntaxError γ → Prop} (hx : Reads P rest x)
    (hf : ∀ (a : α) (hlt : rest.length < n), P a → R (f ⟨a, rest, hlt⟩)) : R (x >>= f) := by
  obtain ⟨⟨a, _, hlt⟩, rfl, ha, rfl⟩ := hx
  exact hf a hlt ha

theorem Reads.bind {x : Except SyntaxError (Parsed α n)}
    {f : Parsed α n → Except SyntaxError (Parsed β k)} (hx : Reads P rest x)
    (hf : ∀ (a : α) (hlt : rest.length < n), P a → Reads Q rest' (f ⟨a, rest, hlt⟩)) :
    Reads Q rest' (x >>= f) :=
  hx.then hf

theorem Reads.imp {Q : α → Prop} {x : Except SyntaxError (Parsed α n)} (hx : Reads P rest x)
    (h : ∀ a, P a → Q a) : Reads Q rest x := by
  obtain ⟨r, hr, hP, hrest⟩ := hx
  exact ⟨r, hr, h _ hP, hrest⟩

end Rules

/-! ## Where messages end -/

/-- How strongly a token binds what stands in front of it: as a unary message, an operator, a
keyword, a semicolon, or not at all. The sign of assignment is above all. -/
def level : TokenKind → Nat
  | .assign => 5
  | .identifier _ => 4
  | .binary _ => 3
  | .keyword _ => 2
  | .semicolon => 1
  | _ => 0

section Tails

variable (endLine : Nat) {α : Type} {P : Expr → Prop} {ts rest : List Token}

theorem unaryTail_of_level {receiver : Expr} (h : level (nextKind rest) < 4) :
    unaryTail receiver rest = ⟨receiver, rest, Nat.lt_succ_self _⟩ := by
  unfold unaryTail
  split
  · simp [nextKind, level] at h
  · rfl

theorem unaryTail_message {receiver : Expr} {selector : String} {line : Nat}
    (h : level (nextKind rest) < 4) :
    unaryTail receiver (⟨.identifier selector, line⟩ :: rest) =
      ⟨.send receiver (.mk selector [] line), rest, Nat.lt_succ_of_lt (Nat.lt_succ_self _)⟩ := by
  have hassign : nextKind rest ≠ .assign := fun hassign => by simp [hassign, level] at h
  rw [unaryTail, if_neg hassign]
  simp only [unaryTail_of_level h]

theorem binaryTail_of_level {receiver : Expr} (h : level (nextKind rest) < 3) :
    binaryTail endLine receiver rest = .ok ⟨receiver, rest, Nat.lt_succ_self _⟩ := by
  unfold binaryTail
  split
  · simp [nextKind, level] at h
  · rfl

theorem keywordTail_of_level (h : level (nextKind rest) < 2) :
    keywordTail endLine rest = .ok ⟨("", []), rest, Nat.lt_succ_self _⟩ := by
  unfold keywordTail
  split
  · simp [nextKind, level] at h
  · rfl

theorem cascadeTail_of_level (h : level (nextKind rest) < 1) :
    cascadeTail endLine rest = .ok ⟨[], rest, Nat.lt_succ_self _⟩ := by
  unfold cascadeTail
  split
  · simp [nextKind, level] at h
  · rfl

variable {endLine}

theorem Reads.asUnary (h : Reads P rest (primary endLine ts))
    (hlevel : level (nextKind rest) < 4) : Reads P rest (unaryExpression endLine ts) := by
  unfold unaryExpression
  refine h.bind fun receiver hlt hreceiver => ?_
  dsimp only
  rw [unaryTail_of_level hlevel]
  exact .pure hreceiver

theorem Reads.asBinary (h : Reads P rest (unaryExpression endLine ts))
    (hlevel : level (nextKind rest) < 3) : Reads P rest (binaryExpression endLine ts) := by
  unfold binaryExpression
  refine h.bind fun receiver hlt hreceiver => ?_
  dsimp only
  rw [binaryTail_of_level endLine hlevel]
  exact .pure hreceiver

theorem Reads.asKeyword (h : Reads P rest (binaryExpression endLine ts))
    (hlevel : level (nextKind rest) < 2) : Reads P rest (keywordExpression endLine ts) := by
  unfold keywordExpression
  refine h.bind fun receiver hlt hreceiver => ?_
  dsimp only
  rw [keywordTail_of_level endLine hlevel]
  exact .pure hreceiver

theorem Reads.asCascade (h : Reads P rest (keywordExpression endLine ts))
    (hlevel : level (nextKind rest) < 1) : Reads P rest (cascade endLine ts) := by
  unfold cascade
  refine h.bind fun receiver hlt hreceiver => ?_
  dsimp only
  rw [if_neg (fun hsemicolon => by simp [hsemicolon, level] at hlevel)]
  exact .pure hreceiver

/-- An expression that starts with a primary is no assignment unless the sign of one follows. -/
theorem Reads.eq_cascade (h : Reads P rest (primary endLine ts))
    (hassign : nextKind rest ≠ .assign) : expression endLine ts = cascade endLine ts := by
  unfold expression
  split
  · rename_i name line line' ts'
    obtain ⟨r, hr, -, rfl⟩ := h
    unfold primary at hr
    cases hr
    exact absurd rfl hassign
  · rfl

/-- A primary where an expression may stand. -/
theorem Reads.asExpression (h : Reads P rest (primary endLine ts))
    (hlevel : level (nextKind rest) < 1) : Reads P rest (expression endLine ts) := by
  rw [h.eq_cascade (fun hassign => by simp [hassign, level] at hlevel)]
  exact (((h.asUnary (by omega)).asBinary (by omega)).asKeyword (by omega)).asCascade hlevel

end Tails

/-! ## Literals -/

section Literals

variable {endLine : Nat}

section Items

variable {ts rest : List Token} {Q : List Literal → Prop}

theorem arrayItems_scalar {kind : TokenKind} {value : Literal} {line : Nat}
    (hkind : scalar? kind = some value) (h : Reads Q rest (arrayItems endLine ts)) :
    Reads (fun items => ∃ more, items = value :: more ∧ Q more) rest
      (arrayItems endLine (⟨kind, line⟩ :: ts)) := by
  unfold arrayItems
  simp only [hkind]
  exact h.bind fun items hlt hitems => .pure ⟨items, rfl, hitems⟩

theorem arrayItems_word {name : String} {line : Nat} (h : Reads Q rest (arrayItems endLine ts)) :
    Reads (fun items => ∃ more, items = wordLiteral name :: more ∧ Q more) rest
      (arrayItems endLine (⟨.identifier name, line⟩ :: ts)) := by
  rw [arrayItems]
  exact h.bind fun items hlt hitems => .pure ⟨items, rfl, hitems⟩

theorem arrayItems_negative {n : Nat} {line line' : Nat}
    (h : Reads Q rest (arrayItems endLine ts)) :
    Reads (fun items => ∃ more, items = .integer (-n) :: more ∧ Q more) rest
      (arrayItems endLine (⟨.binary "-", line⟩ :: ⟨.integer n, line'⟩ :: ts)) := by
  rw [arrayItems]
  simp only [scalar?, if_pos, negated?]
  exact h.bind fun items hlt hitems => .pure ⟨items, rfl, hitems⟩

theorem arrayItems_array {inner : List Literal} {line : Nat} {ts' : List Token}
    (hinner : Reads (· = inner) ts (arrayItems endLine ts'))
    (h : Reads Q rest (arrayItems endLine ts)) :
    Reads (fun items => ∃ more, items = .array inner :: more ∧ Q more) rest
      (arrayItems endLine (⟨.arrayStart, line⟩ :: ts')) := by
  rw [arrayItems]
  refine hinner.bind fun items hlt hitems => ?_
  subst hitems
  exact h.bind fun items hlt hitems => .pure ⟨items, rfl, hitems⟩

theorem arrayItems_end {line : Nat} :
    Reads (· = []) rest (arrayItems endLine (⟨.rightParen, line⟩ :: rest)) := by
  unfold arrayItems
  exact .pure rfl

end Items

mutual

/-- An element of a literal array, in front of the others. -/
theorem arrayItems_item {Q : List Literal → Prop} {rest : List Token} :
    ∀ (item : Literal) {ts : List Token}, item.Grammatical true → Spells ts item.lexemes →
    ∀ {ts' : List Token}, Reads Q rest (arrayItems endLine ts') →
    Reads (fun items => ∃ more, items = item :: more ∧ Q more) rest
      (arrayItems endLine (ts ++ ts'))
  | .integer n, ts, hitem, hts, ts', h => by
    unfold Literal.lexemes at hts
    split at hts
    · rename_i hn
      obtain ⟨line, line', ts₁, rfl, hts₁⟩ := spells_negative.1 hts
      rw [spells_nil.1 hts₁]
      have hvalue : (-(n.natAbs : Int)) = n := by omega
      refine (arrayItems_negative h).imp ?_
      rintro _ ⟨more, rfl, hmore⟩
      exact ⟨more, by rw [hvalue], hmore⟩
    · rename_i hn
      obtain ⟨line, rfl⟩ := spells_single.1 hts
      have hvalue : (n.natAbs : Int) = n := by omega
      exact arrayItems_scalar (by rw [scalar?, hvalue]) h
  | .float _, _, hitem, _, _, _ => hitem.elim
  | .character b, ts, _, hts, ts', h => by
    obtain ⟨line, rfl⟩ := spells_single.1 hts
    exact arrayItems_scalar rfl h
  | .string s, ts, _, hts, ts', h => by
    obtain ⟨line, rfl⟩ := spells_single.1 hts
    exact arrayItems_scalar rfl h
  | .symbol s, ts, _, hts, ts', h => by
    obtain ⟨line, rfl⟩ := spells_single.1 hts
    exact arrayItems_scalar rfl h
  | .nil, ts, _, hts, ts', h => by
    obtain ⟨line, rfl⟩ := spells_single.1 hts
    exact arrayItems_word h
  | .true, ts, _, hts, ts', h => by
    obtain ⟨line, rfl⟩ := spells_single.1 hts
    exact arrayItems_word h
  | .false, ts, _, hts, ts', h => by
    obtain ⟨line, rfl⟩ := spells_single.1 hts
    exact arrayItems_word h
  | .array inner, ts, hitem, hts, ts', h => by
    unfold Literal.lexemes at hts
    obtain ⟨line, ts₁, rfl, hts₁⟩ := spells_token.1 hts
    rw [List.cons_append]
    exact arrayItems_array (arrayItems_items inner hitem hts₁ ts') h

/-- The elements of a literal array through the closing parenthesis. -/
theorem arrayItems_items : ∀ (items : List Literal) {ts : List Token}, GrammaticalItems items →
    Spells ts (itemLexemes items ++ [.token .rightParen]) → ∀ rest : List Token,
    Reads (· = items) rest (arrayItems endLine (ts ++ rest))
  | [], ts, _, hts, rest => by
    obtain ⟨line, rfl⟩ := spells_single.1 hts
    exact arrayItems_end
  | item :: items, ts, hitems, hts, rest => by
    unfold itemLexemes at hts
    rw [List.append_assoc] at hts
    obtain ⟨ts₁, ts₂, rfl, hts₁, hts₂⟩ := spells_append.1 hts
    rw [List.append_assoc]
    refine (arrayItems_item item hitems.1 hts₁ (arrayItems_items items hitems.2 hts₂ rest)).imp ?_
    rintro _ ⟨more, rfl, rfl⟩
    rfl

end

theorem primary_scalar {rest : List Token} {kind : TokenKind} {value : Literal} {line : Nat}
    (hkind : scalar? kind = some value) :
    Reads (fun e => e = .literal value line) rest (primary endLine (⟨kind, line⟩ :: rest)) := by
  unfold primary
  cases kind with
  | integer | float | character | string | symbol =>
    simp only [hkind]
    exact .pure rfl
  | _ => cases hkind

/-- A literal. -/
theorem primary_literal {value : Literal} {ts : List Token} (hvalue : value.Grammatical false)
    (hts : Spells ts value.lexemes) (rest : List Token) :
    Reads (fun e => e.unlined = .literal value 0) rest (primary endLine (ts ++ rest)) := by
  cases value with
  | integer n =>
    unfold Literal.lexemes at hts
    split at hts
    · rename_i hn
      obtain ⟨line, line', ts₁, rfl, hts₁⟩ := spells_negative.1 hts
      rw [spells_nil.1 hts₁]
      have hn : (-(n.natAbs : Int)) = n := by omega
      unfold primary
      simp only [List.cons_append, List.nil_append, negated?]
      exact .pure (by rw [hn]; rfl)
    · rename_i hn
      obtain ⟨line, rfl⟩ := spells_single.1 hts
      have hn : (n.natAbs : Int) = n := by omega
      refine (primary_scalar rfl).imp ?_
      rintro _ rfl
      rw [hn]
      rfl
  | float x => exact hvalue.elim
  | character | string | symbol =>
    obtain ⟨line, rfl⟩ := spells_single.1 hts
    refine (primary_scalar rfl).imp ?_
    rintro _ rfl
    rfl
  | nil | true | false => cases hvalue
  | array items =>
    unfold Literal.lexemes at hts
    obtain ⟨line, ts₁, rfl, hts₁⟩ := spells_token.1 hts
    unfold primary
    rw [List.cons_append]
    refine (arrayItems_items items hvalue hts₁ rest).bind fun items' hlt hitems => ?_
    subst hitems
    exact .pure rfl

end Literals

/-! ## Messages -/

section Messages

variable {wrap : Bool} {endLine : Nat}

/-- The expression is read where a primary may stand, whatever follows. -/
def ReadsAsOperand (wrap : Bool) (endLine : Nat) (e : Expr) : Prop :=
  ∀ ts rest, Spells ts (e.lexemes wrap true) →
    Reads (fun e' => e'.unlined = e.unlined) rest (primary endLine (ts ++ rest))

/-- Keywords and their arguments. -/
theorem keywordTail_keywords {args : List Expr} {parts : List String} {ts rest : List Token}
    (hargs : ∀ a ∈ args, ReadsAsOperand wrap endLine a) (hlength : parts.length = args.length)
    (hts : Spells ts (keywordLexemes wrap parts args)) (hlevel : level (nextKind rest) < 2) :
    Reads (fun p => p.1 = String.join parts ∧ unlinedExprs p.2 = unlinedExprs args) rest
      (keywordTail endLine (ts ++ rest)) := by
  induction args generalizing parts ts with
  | nil =>
    rw [List.length_eq_zero_iff.1 hlength, spells_nil.1 hts, List.nil_append,
      keywordTail_of_level endLine hlevel]
    exact .pure ⟨rfl, rfl⟩
  | cons arg args ih =>
    cases parts with
    | nil => cases hlength
    | cons part parts =>
      rw [List.forall_mem_cons] at hargs
      unfold keywordLexemes at hts
      obtain ⟨line, ts₁, rfl, hts₁⟩ := spells_token.1 hts
      obtain ⟨ts₂, ts₃, rfl, hts₂, hts₃⟩ := spells_append.1 hts₁
      have hnext : level (nextKind (ts₃ ++ rest)) < 3 := by
        cases args with
        | nil =>
          rw [spells_nil.1 hts₃]
          exact Nat.lt_succ_of_lt hlevel
        | cons arg' args =>
          unfold keywordLexemes at hts₃
          obtain ⟨line', ts₄, rfl, -⟩ := spells_token.1 hts₃
          exact (by decide : 2 < 3)
      have harg := ((hargs.1 _ (ts₃ ++ rest) hts₂).asUnary (Nat.lt_succ_of_lt hnext)).asBinary hnext
      have hmore := ih hargs.2 (Nat.succ.inj hlength) hts₃
      rw [List.cons_append, List.append_assoc, keywordTail]
      refine harg.bind fun arg' hlt harg' => ?_
      refine hmore.bind fun more hlt' hargs' => ?_
      obtain ⟨parts', args'⟩ := more
      obtain ⟨rfl, hargs'⟩ := hargs'
      refine .pure ⟨?_, ?_⟩
      · exact String.join_cons.symm
      · rw [unlinedExprs, unlinedExprs, harg', hargs']

/-- The expression is this message to an expression with a property. -/
def IsSend (P : Expr → Prop) (message : Message) (e : Expr) : Prop :=
  ∃ receiver message', e = .send receiver message' ∧ P receiver ∧
    message'.unlined = message.unlined

variable {P : Expr → Prop} {ts ts' rest : List Token}

/-- The three forms of a message. -/
theorem lexemes_message (wrap : Bool) {selector : String} {args : List Expr} {line : Nat}
    (h : (Message.mk selector args line).Grammatical) :
    (args = [] ∧ (Message.mk selector args line).lexemes wrap = [.token (.identifier selector)]) ∨
    (∃ arg, args = [arg] ∧ (Message.mk selector args line).lexemes wrap =
      .token (.binary selector) :: arg.lexemes wrap true) ∨
    args ≠ [] ∧ ∃ parts : List String, parts.length = args.length ∧
      selector = String.join parts ∧
      (Message.mk selector args line).lexemes wrap = keywordLexemes wrap parts args := by
  unfold Message.lexemes
  rcases h.1.cases with ⟨hcount, -⟩ | ⟨hcount, hoperator⟩ |
    ⟨hcount, hoperator, words, hlength, -, rfl, hparts⟩
  · rw [List.length_eq_zero_iff.1 hcount]
    exact .inl ⟨rfl, rfl⟩
  · obtain ⟨arg, rfl⟩ := List.length_eq_one_iff.1 hcount
    refine .inr (.inl ⟨arg, rfl, ?_⟩)
    rw [if_neg (by simp), if_pos hoperator, operandLexemes, operandLexemes, List.append_nil]
  · have hne : args ≠ [] := List.ne_nil_of_length_pos hcount
    refine .inr (.inr ⟨hne, _, ?_, rfl, ?_⟩)
    · rw [List.length_map, hlength]
    · rw [if_neg (by simpa using hne), if_neg (by simp [hoperator]), hparts]

/-- A message behind its receiver. -/
theorem keywordExpression_send {message : Message} (hmessage : message.Grammatical)
    (hargs : ∀ a ∈ message.args, ReadsAsOperand wrap endLine a)
    (hts : Spells ts (message.lexemes wrap)) (hlevel : level (nextKind rest) < 2)
    (hreceiver : Reads P (ts ++ rest) (primary endLine ts')) :
    Reads (IsSend P message) rest (keywordExpression endLine ts') ∧
      nextKind (ts ++ rest) ≠ .assign := by
  obtain ⟨selector, args, line⟩ := message
  rcases lexemes_message wrap hmessage with ⟨rfl, hlexemes⟩ | ⟨arg, rfl, hlexemes⟩ |
    ⟨hne, parts, hlength, rfl, hlexemes⟩
  · rw [hlexemes] at hts
    obtain ⟨line', ts₁, rfl, hts₁⟩ := spells_token.1 hts
    rw [spells_nil.1 hts₁] at hreceiver ⊢
    refine ⟨?_, by simp [nextKind]⟩
    have hunary : Reads (IsSend P (.mk selector [] line)) rest (unaryExpression endLine ts') := by
      unfold unaryExpression
      refine hreceiver.bind fun receiver hlt hP => ?_
      dsimp only [List.cons_append, List.nil_append]
      rw [unaryTail_message (by omega)]
      exact .pure ⟨receiver, _, rfl, hP, rfl⟩
    exact (hunary.asBinary (by omega)).asKeyword hlevel
  · rw [hlexemes] at hts
    obtain ⟨line', ts₁, rfl, hts₁⟩ := spells_token.1 hts
    refine ⟨?_, by simp [nextKind]⟩
    have harg := (hargs arg List.mem_cons_self _ rest hts₁).asUnary (by omega)
    have hbinary : Reads (IsSend P (.mk selector [arg] line)) rest
        (binaryExpression endLine ts') := by
      unfold binaryExpression
      refine (hreceiver.asUnary (by simp [nextKind, level])).bind fun receiver hlt hP => ?_
      dsimp only [List.cons_append]
      rw [binaryTail, bind_assoc]
      refine harg.bind fun arg' hlt' harg' => ?_
      dsimp only
      rw [binaryTail_of_level endLine (by omega)]
      refine .pure ⟨receiver, _, rfl, hP, ?_⟩
      simp only [Message.unlined, unlinedExprs, harg']
    exact hbinary.asKeyword hlevel
  · rw [hlexemes] at hts
    have hkeywords := keywordTail_keywords hargs hlength hts hlevel
    have hnext : ∃ part, nextKind (ts ++ rest) = .keyword part := by
      cases args with
      | nil => exact absurd rfl hne
      | cons arg args =>
        unfold keywordLexemes at hts
        obtain ⟨line', ts₁, rfl, -⟩ := spells_token.1 hts
        exact ⟨_, rfl⟩
    obtain ⟨part, hnext⟩ := hnext
    refine ⟨?_, by simp [hnext]⟩
    have hlevel' : level (nextKind (ts ++ rest)) = 2 := by rw [hnext, level]
    unfold keywordExpression
    refine ((hreceiver.asUnary (by omega)).asBinary (by omega)).bind fun receiver hlt hP => ?_
    refine hkeywords.bind fun keywords hlt' hkeywords => ?_
    obtain ⟨selector, args'⟩ := keywords
    obtain ⟨rfl, hargs'⟩ := hkeywords
    have hne' : args' ≠ [] := by
      rintro rfl
      cases args with
      | nil => exact hne rfl
      | cons arg args => cases hargs'
    dsimp only
    rw [if_neg (by simpa using hne')]
    exact .pure ⟨receiver, _, rfl, hP, congrArg (Message.mk _ · 0) hargs'⟩

/-- A message without its receiver. -/
theorem cascadeMessage_message {message : Message} (hmessage : message.Grammatical)
    (hargs : ∀ a ∈ message.args, ReadsAsOperand wrap endLine a)
    (hts : Spells ts (message.lexemes wrap)) (hlevel : level (nextKind rest) < 2) :
    Reads (fun message' => message'.unlined = message.unlined) rest
      (cascadeMessage endLine (ts ++ rest)) := by
  obtain ⟨selector, args, line⟩ := message
  rcases lexemes_message wrap hmessage with ⟨rfl, hlexemes⟩ | ⟨arg, rfl, hlexemes⟩ |
    ⟨hne, parts, hlength, rfl, hlexemes⟩
  · rw [hlexemes] at hts
    obtain ⟨line', ts₁, rfl, hts₁⟩ := spells_token.1 hts
    rw [spells_nil.1 hts₁, cascadeMessage.eq_def]
    exact .pure rfl
  · rw [hlexemes] at hts
    obtain ⟨line', ts₁, rfl, hts₁⟩ := spells_token.1 hts
    rw [List.cons_append, cascadeMessage]
    have harg := (hargs arg List.mem_cons_self _ rest hts₁).asUnary (by omega)
    refine harg.bind fun arg' hlt harg' => .pure ?_
    simp only [Message.unlined, unlinedExprs, harg']
  · rw [hlexemes] at hts
    have hkeywords := keywordTail_keywords hargs hlength hts hlevel
    cases args with
    | nil => exact absurd rfl hne
    | cons arg args =>
      unfold keywordLexemes at hts
      obtain ⟨line', ts₁, rfl, -⟩ := spells_token.1 hts
      rw [List.cons_append] at hkeywords ⊢
      rw [cascadeMessage]
      refine hkeywords.bind fun keywords hlt hkeywords => ?_
      obtain ⟨selector, args'⟩ := keywords
      obtain ⟨rfl, hargs'⟩ := hkeywords
      exact .pure (congrArg (Message.mk _ · 0) hargs')

/-- Messages behind semicolons. -/
theorem cascadeTail_messages {messages : List Message} (hmessages : GrammaticalMessages messages)
    (hargs : ∀ message ∈ messages, ∀ a ∈ message.args, ReadsAsOperand wrap endLine a)
    (hts : Spells ts (cascadeLexemes wrap messages)) (hlevel : level (nextKind rest) < 1) :
    Reads (fun messages' => unlinedMessages messages' = unlinedMessages messages) rest
        (cascadeTail endLine (ts ++ rest)) ∧
      level (nextKind (ts ++ rest)) < 2 := by
  induction messages generalizing ts with
  | nil =>
    rw [spells_nil.1 hts, List.nil_append, cascadeTail_of_level endLine hlevel]
    exact ⟨.pure rfl, by omega⟩
  | cons message messages ih =>
    rw [List.forall_mem_cons] at hargs
    unfold cascadeLexemes at hts
    obtain ⟨line, ts₁, rfl, hts₁⟩ := spells_token.1 hts
    obtain ⟨ts₂, ts₃, rfl, hts₂, hts₃⟩ := spells_append.1 hts₁
    obtain ⟨hmore, hlevel'⟩ := ih hmessages.2 hargs.2 hts₃
    refine ⟨?_, by simp [nextKind, level]⟩
    rw [List.cons_append, List.append_assoc, cascadeTail]
    refine (cascadeMessage_message hmessages.1 hargs.1 hts₂ hlevel').bind
      fun message' hlt hmessage' => ?_
    refine hmore.bind fun messages' hlt' hmessages' => .pure ?_
    rw [unlinedMessages, unlinedMessages, hmessage', hmessages']

end Messages

/-! ## Names -/

section Names

variable {endLine : Nat} {ts rest : List Token}

theorem names_identifiers {temps : List String}
    (hts : Spells ts (temps.map (.token <| .identifier ·)))
    (hrest : ∀ name, nextKind rest ≠ .identifier name) :
    ∃ hlt, names (ts ++ rest) = ⟨temps, rest, hlt⟩ := by
  induction temps generalizing ts with
  | nil =>
    rw [spells_nil.1 hts, List.nil_append]
    unfold names
    split
    · exact absurd rfl (hrest _)
    · exact ⟨Nat.lt_succ_self _, rfl⟩
  | cons t temps ih =>
    obtain ⟨line, ts₁, rfl, hts₁⟩ := spells_token.1 hts
    obtain ⟨hlt, hnames⟩ := ih hts₁
    rw [List.cons_append, names]
    simp only [hnames]
    exact ⟨Nat.lt_succ_of_lt hlt, trivial⟩

theorem expect_kind {kind : TokenKind} {wanted : Expectation} {line : Nat} :
    Reads (fun _ => True) rest (expect endLine kind wanted (⟨kind, line⟩ :: rest)) := by
  rw [expect, if_pos rfl]
  exact .pure trivial

/-- Temporaries, in front of something that is no bar. -/
theorem temporaries_temporaryLexemes (endLine : Nat) {temps : List String}
    (hts : Spells ts (temporaryLexemes temps)) (hrest : nextKind rest ≠ .binary "|") :
    Reads (· = temps) rest (temporaries endLine (ts ++ rest)) := by
  unfold temporaryLexemes at hts
  split at hts
  · rename_i hempty
    rw [List.isEmpty_iff.1 hempty, spells_nil.1 hts, List.nil_append]
    unfold temporaries
    split
    · exact absurd rfl hrest
    · exact .pure rfl
  · obtain ⟨line, ts₁, rfl, hts₁⟩ := spells_token.1 hts
    obtain ⟨ts₂, ts₃, rfl, hts₂, hts₃⟩ := spells_append.1 hts₁
    obtain ⟨line', ts₄, rfl, hts₄⟩ := spells_token.1 hts₃
    rw [spells_nil.1 hts₄, List.cons_append, List.append_assoc]
    have hbar : ∀ name, nextKind ([⟨.binary "|", line'⟩] ++ rest) ≠ .identifier name :=
      fun name => by simp [nextKind]
    obtain ⟨hlt, hnames⟩ := names_identifiers hts₂ hbar
    rw [temporaries, hnames]
    exact expect_kind.bind fun _ hlt' _ => .pure rfl

theorem identifier_name {name : String} {line : Nat} :
    Reads (· = name) rest (identifier endLine (⟨.identifier name, line⟩ :: rest)) := .pure rfl

/-- Parameters, each behind its colon. -/
theorem parameters_names {params : List String}
    (hts : Spells ts (params.flatMap fun p => [.token .colon, .token (.identifier p)]))
    (hrest : nextKind rest ≠ .colon) :
    Reads (· = params) rest (parameters endLine (ts ++ rest)) := by
  induction params generalizing ts with
  | nil =>
    rw [spells_nil.1 hts, List.nil_append]
    unfold parameters
    split
    · exact absurd rfl hrest
    · exact .pure rfl
  | cons p params ih =>
    obtain ⟨line, ts₁, rfl, hts₁⟩ := spells_token.1 hts
    obtain ⟨line', ts₂, rfl, hts₂⟩ := spells_token.1 hts₁
    rw [List.cons_append, List.cons_append, parameters]
    refine identifier_name.bind fun name hlt hname => ?_
    refine (ih hts₂).bind fun params' hlt' hparams => .pure ?_
    rw [hname, hparams]

/-- Parameters and the bar behind them, in front of something that is no colon. -/
theorem parameters_parameterLexemes (endLine : Nat) {params : List String}
    (hts : Spells ts (parameterLexemes params)) (hrest : nextKind rest ≠ .colon) :
    ∃ rest', Reads (· = params) rest' (parameters endLine (ts ++ rest)) ∧
      Reads (fun _ => True) rest (parameterBar endLine params rest') := by
  unfold parameterLexemes at hts
  split at hts
  · rename_i hempty
    obtain rfl := List.isEmpty_iff.1 hempty
    rw [spells_nil.1 hts]
    refine ⟨rest, parameters_names (spells_nil.2 rfl : Spells [] _) hrest, ?_⟩
    unfold parameterBar
    rw [if_pos (by rfl)]
    exact .pure trivial
  · rename_i hempty
    obtain ⟨ts₁, ts₂, rfl, hts₁, hts₂⟩ := spells_append.1 hts
    obtain ⟨line, ts₃, rfl, hts₃⟩ := spells_token.1 hts₂
    rw [spells_nil.1 hts₃, List.append_assoc]
    refine ⟨_, parameters_names hts₁ (by simp [nextKind]), ?_⟩
    unfold parameterBar
    rw [if_neg hempty]
    exact Reads.pure (P := fun _ => True) trivial

end Names

/-! ## Statements -/

section Statements

variable {endLine : Nat} {ts ts₁ ts₂ rest : List Token} {P : Expr → Prop}
  {Q : List Statement → Prop}

/-- With such a token no expression starts. -/
def opens : TokenKind → Bool
  | .period => false
  | .endOfInput => false
  | .rightBracket => false
  | .caret => false
  | .colon => false
  | .keyword _ => false
  | .binary operator => operator != "|"
  | _ => true

theorem Reads.exists_of_bind {α β : Type} {n k : Nat} {R : β → Prop}
    {x : Except SyntaxError (Parsed α n)} {f : Parsed α n → Except SyntaxError (Parsed β k)}
    (h : Reads R rest (x >>= f)) : ∃ r, x = .ok r := by
  obtain ⟨r, hr, -⟩ := h
  cases x with
  | error e => cases hr
  | ok a => exact ⟨a, rfl⟩

theorem opens_of_primary {r : Parsed Expr ts.length} (h : primary endLine ts = .ok r) :
    opens (nextKind ts) := by
  unfold primary at h
  cases ts with
  | nil => cases h
  | cons t ts =>
    obtain ⟨kind, line⟩ := t
    cases kind with
    | period | endOfInput | rightBracket | caret | colon | keyword => cases h
    | binary operator =>
      by_cases hbar : operator = "|"
      · subst hbar
        cases h
      · simpa [nextKind, opens] using hbar
    | _ => rfl

/-- What is read as an expression starts as one. -/
theorem Reads.opens (h : Reads P rest (expression endLine ts)) : opens (nextKind ts) := by
  unfold expression at h
  split at h
  · rfl
  unfold cascade at h
  obtain ⟨_, h⟩ := h.exists_of_bind
  unfold keywordExpression at h
  cases hprimary : primary endLine ts with
  | ok r => exact opens_of_primary hprimary
  | error e =>
    unfold binaryExpression unaryExpression at h
    rw [hprimary] at h
    cases h

theorem dropPeriods_of_ne (h : nextKind ts ≠ .period) :
    dropPeriods ts = ⟨(), ts, Nat.lt_succ_self _⟩ := by
  unfold dropPeriods
  split
  · exact absurd rfl h
  · rfl

theorem statements_stop {hlt : ts₁.length < ts.length + 1} (hdrop : dropPeriods ts = ⟨(), ts₁, hlt⟩)
    (hnext : nextKind ts₁ = .endOfInput ∨ nextKind ts₁ = .rightBracket) :
    Reads (· = []) ts₁ (statements endLine ts) := by
  unfold statements
  rw [hdrop]
  dsimp only
  rcases hnext with hnext | hnext
  · rw [hnext]
    exact .pure rfl
  · rw [hnext]
    exact .pure rfl

theorem statements_evaluate {hlt : ts₁.length < ts.length + 1}
    (hdrop : dropPeriods ts = ⟨(), ts₁, hlt⟩) (hexpr : Reads P ts₂ (expression endLine ts₁))
    (hnext : nextKind ts₂ = .period ∨ nextKind ts₂ = .endOfInput ∨ nextKind ts₂ = .rightBracket)
    (hmore : Reads Q rest (statements endLine ts₂)) :
    Reads (fun body => ∃ e more, body = .evaluate e :: more ∧ P e ∧ Q more) rest
      (statements endLine ts) := by
  have hopens := hexpr.opens
  unfold statements
  rw [hdrop]
  dsimp only
  split
  · rename_i h
    rw [h] at hopens
    cases hopens
  · rename_i h
    rw [h] at hopens
    cases hopens
  · rename_i h
    rw [h] at hopens
    cases hopens
  · refine hexpr.bind fun e hlt' he => ?_
    dsimp only
    rcases hnext with hnext | hnext | hnext
    · rw [hnext]
      exact hmore.bind fun more hlt'' hQ => .pure ⟨e, more, rfl, he, hQ⟩
    · rw [hnext]
      exact hmore.bind fun more hlt'' hQ => .pure ⟨e, more, rfl, he, hQ⟩
    · rw [hnext]
      exact hmore.bind fun more hlt'' hQ => .pure ⟨e, more, rfl, he, hQ⟩

theorem statements_answer {hlt : ts₁.length < ts.length + 1}
    (hdrop : dropPeriods ts = ⟨(), ts₁, hlt⟩) (hcaret : nextKind ts₁ = .caret)
    (hexpr : Reads P rest (expression endLine ts₁.tail))
    (hnext : nextKind rest = .endOfInput ∨ nextKind rest = .rightBracket) :
    Reads (fun body => ∃ e, body = [.answer e] ∧ P e) rest (statements endLine ts) := by
  have hperiod : nextKind rest ≠ .period := by
    rcases hnext with h | h <;> simp [h]
  unfold statements
  rw [hdrop]
  dsimp only
  rw [hcaret]
  refine hexpr.bind fun e hlt' he => ?_
  dsimp only
  rw [dropPeriods_of_ne hperiod]
  dsimp only
  rcases hnext with hnext | hnext
  · rw [hnext]
    exact .pure ⟨e, rfl, he⟩
  · rw [hnext]
    exact .pure ⟨e, rfl, he⟩

/-- The expression is read where an expression may stand, in parentheses or not. -/
def ReadsAsExpression (wrap : Bool) (endLine : Nat) (e : Expr) : Prop :=
  ∀ operand ts rest, Spells ts (e.lexemes wrap operand) → level (nextKind rest) < 1 →
    Reads (fun e' => e'.unlined = e.unlined) rest (expression endLine (ts ++ rest))

variable {wrap : Bool} {body : List Statement}

/-- Something ends a body. -/
def EndsBody (rest : List Token) : Prop :=
  nextKind rest = .endOfInput ∨ nextKind rest = .rightBracket

theorem EndsBody.level (h : EndsBody rest) : level (nextKind rest) < 1 := by
  rcases h with h | h <;> simp [h, Parser.level]

theorem EndsBody.ne_period (h : EndsBody rest) : nextKind rest ≠ .period := by
  rcases h with h | h <;> simp [h]

theorem dropPeriods_period {line : Nat} (h : nextKind ts ≠ .period) :
    dropPeriods (⟨.period, line⟩ :: ts) = ⟨(), ts, Nat.lt_succ_of_lt (Nat.lt_succ_self _)⟩ := by
  rw [dropPeriods]
  simp only [dropPeriods_of_ne h]

/-- What follows a statement. -/
theorem next_moreLexemes {ss : List Statement} (hts : Spells ts (moreLexemes wrap ss))
    (hrest : EndsBody rest) :
    nextKind (ts ++ rest) = .period ∨ nextKind (ts ++ rest) = .endOfInput ∨
      nextKind (ts ++ rest) = .rightBracket := by
  cases ss with
  | nil =>
    rw [spells_nil.1 hts]
    exact .inr hrest
  | cons s ss =>
    obtain ⟨line, ts₁, rfl, -⟩ := spells_token.1 hts
    exact .inl rfl

/-- A statement and those after it. Periods in front are dropped. -/
theorem statements_statement {s : Statement} {ss : List Statement} {ts₀ : List Token}
    (hbody : GrammaticalBody (s :: ss)) (hexpr : ReadsAsExpression wrap endLine s.expr)
    (hdrop : nextKind (ts ++ (ts₁ ++ rest)) ≠ .period →
      ∃ hlt, dropPeriods ts₀ = ⟨(), ts ++ (ts₁ ++ rest), hlt⟩)
    (hts : Spells ts (s.lexemes wrap)) (hts₁ : Spells ts₁ (moreLexemes wrap ss))
    (hrest : EndsBody rest)
    (hmore : Reads (fun ss' => unlinedBody ss' = unlinedBody ss) rest
      (statements endLine (ts₁ ++ rest))) :
    Reads (fun ss' => unlinedBody ss' = unlinedBody (s :: ss)) rest (statements endLine ts₀) := by
  have hnext := next_moreLexemes hts₁ hrest
  have hlevel : level (nextKind (ts₁ ++ rest)) < 1 := by
    rcases hnext with h | h | h <;> simp [h, level]
  cases s with
  | evaluate e =>
    have hread := hexpr wrap ts (ts₁ ++ rest) hts hlevel
    have hperiod : nextKind (ts ++ (ts₁ ++ rest)) ≠ .period := by
      intro h
      have hopens := hread.opens
      rw [h] at hopens
      cases hopens
    obtain ⟨hlt, hdrop⟩ := hdrop hperiod
    refine (statements_evaluate hdrop hread hnext hmore).imp ?_
    rintro _ ⟨e', more, rfl, he, hmore⟩
    rw [unlinedBody, unlinedBody, Statement.unlined, Statement.unlined, he, hmore]
    rfl
  | answer e =>
    obtain ⟨he, rfl⟩ := hbody
    obtain rfl := spells_nil.1 hts₁
    obtain ⟨line, ts₂, rfl, hts₂⟩ := spells_token.1 hts
    obtain ⟨hlt, hdrop⟩ := hdrop (by simp [nextKind])
    have hread := hexpr wrap ts₂ ([] ++ rest) hts₂ hlevel
    refine (statements_answer hdrop rfl hread hrest).imp ?_
    rintro _ ⟨e', rfl, he⟩
    rw [unlinedBody, Statement.unlined, he]
    rfl

theorem statements_more {ss : List Statement} (hbody : GrammaticalBody ss)
    (hexprs : ∀ s ∈ ss, ReadsAsExpression wrap endLine s.expr)
    (hts : Spells ts (moreLexemes wrap ss)) (hrest : EndsBody rest) :
    Reads (fun ss' => unlinedBody ss' = unlinedBody ss) rest
      (statements endLine (ts ++ rest)) := by
  induction ss generalizing ts with
  | nil =>
    rw [spells_nil.1 hts, List.nil_append]
    refine (statements_stop (dropPeriods_of_ne hrest.ne_period) hrest).imp ?_
    rintro _ rfl
    rfl
  | cons s ss ih =>
    rw [List.forall_mem_cons] at hexprs
    unfold moreLexemes at hts
    obtain ⟨line, ts₁, rfl, hts₁⟩ := spells_token.1 hts
    obtain ⟨ts₂, ts₃, rfl, hts₂, hts₃⟩ := spells_append.1 hts₁
    rw [List.cons_append, List.append_assoc]
    exact statements_statement hbody hexprs.1 (fun h => ⟨_, dropPeriods_period h⟩) hts₂ hts₃ hrest
      (ih hbody.tail hexprs.2 hts₃)

/-- The statements of a body. -/
theorem statements_body (hbody : GrammaticalBody body)
    (hexprs : ∀ s ∈ body, ReadsAsExpression wrap endLine s.expr)
    (hts : Spells ts (bodyLexemes wrap body)) (hrest : EndsBody rest) :
    Reads (fun body' => unlinedBody body' = unlinedBody body) rest
      (statements endLine (ts ++ rest)) := by
  cases body with
  | nil => exact statements_more (trivial : GrammaticalBody []) hexprs hts hrest
  | cons s ss =>
    rw [List.forall_mem_cons] at hexprs
    unfold bodyLexemes at hts
    obtain ⟨ts₁, ts₂, rfl, hts₁, hts₂⟩ := spells_append.1 hts
    rw [List.append_assoc]
    exact statements_statement hbody hexprs.1 (fun h => ⟨_, dropPeriods_of_ne h⟩) hts₁ hts₂ hrest
      (statements_more hbody.tail hexprs.2 hts₂ hrest)

/-- What a body starts with. -/
theorem next_bodyLexemes (hexprs : ∀ s ∈ body, ReadsAsExpression wrap endLine s.expr)
    (hts : Spells ts (bodyLexemes wrap body)) (hrest : EndsBody rest) :
    nextKind (ts ++ rest) ≠ .colon ∧ nextKind (ts ++ rest) ≠ .binary "|" ∧
      ∀ part, nextKind (ts ++ rest) ≠ .keyword part := by
  cases body with
  | nil =>
    rw [spells_nil.1 hts, List.nil_append]
    rcases hrest with h | h <;> simp [h]
  | cons s ss =>
    unfold bodyLexemes at hts
    obtain ⟨ts₁, ts₂, rfl, hts₁, hts₂⟩ := spells_append.1 hts
    rw [List.append_assoc]
    cases s with
    | answer e =>
      obtain ⟨line, ts₃, rfl, -⟩ := spells_token.1 hts₁
      simp [nextKind]
    | evaluate e =>
      have hlevel : level (nextKind (ts₂ ++ rest)) < 1 := by
        rcases next_moreLexemes hts₂ hrest with h | h | h <;> simp [h, level]
      have hopens := (hexprs _ List.mem_cons_self wrap ts₁ _ hts₁ hlevel).opens
      refine ⟨fun h => ?_, fun h => ?_, fun part h => ?_⟩
      all_goals
        rw [h] at hopens
        cases hopens

/-- A block behind its opening bracket. -/
theorem block_lexemes {params temps : List String} {line : Nat} (hbody : GrammaticalBody body)
    (hexprs : ∀ s ∈ body, ReadsAsExpression wrap endLine s.expr)
    (hts : Spells ts (parameterLexemes params ++ temporaryLexemes temps ++ bodyLexemes wrap body ++
      [.token .rightBracket])) :
    Reads (fun b => b.unlined = .mk params temps (unlinedBody body) 0) rest
      (block endLine line (ts ++ rest)) := by
  obtain ⟨ts₁, ts₂, rfl, hts₁, hts₂⟩ := spells_append.1 hts
  obtain ⟨line', ts₃, rfl, hts₃⟩ := spells_token.1 hts₂
  obtain ⟨ts₄, ts₅, rfl, hts₄, hts₅⟩ := spells_append.1 hts₁
  obtain ⟨ts₆, ts₇, rfl, hts₆, hts₇⟩ := spells_append.1 hts₄
  rw [spells_nil.1 hts₃]
  have hend : EndsBody (⟨.rightBracket, line'⟩ :: rest) := .inr rfl
  obtain ⟨hcolon, hbar, -⟩ := next_bodyLexemes hexprs hts₅ hend
  have hcolon' : nextKind (ts₇ ++ (ts₅ ++ ⟨.rightBracket, line'⟩ :: rest)) ≠ .colon := by
    unfold temporaryLexemes at hts₇
    split at hts₇
    · rw [spells_nil.1 hts₇]
      exact hcolon
    · obtain ⟨line'', ts₈, rfl, -⟩ := spells_token.1 hts₇
      simp [nextKind]
  obtain ⟨rest', hparams, hbar'⟩ :=
    parameters_parameterLexemes endLine hts₆ hcolon'
  rw [List.append_assoc, List.append_assoc, List.append_assoc, List.singleton_append]
  unfold block
  refine hparams.bind fun params' hlt hparams' => ?_
  subst hparams'
  refine hbar'.bind fun _ hlt' _ => ?_
  refine (temporaries_temporaryLexemes endLine hts₇ hbar).bind fun temps' hlt'' htemps => ?_
  subst htemps
  refine (statements_body hbody hexprs hts₅ hend).bind fun body' hlt₃ hbody' => ?_
  refine expect_kind.bind fun _ hlt₄ _ => .pure ?_
  rw [Block.unlined, hbody']

end Statements

/-! ## Expressions -/

section Expressions

variable (wrap : Bool) (endLine : Nat)

/-- The expression is read wherever it may stand. -/
structure ReadsBack (e : Expr) : Prop where
  operand : ReadsAsOperand wrap endLine e
  whole : ReadsAsExpression wrap endLine e

variable {wrap endLine}

/-- What is never put in parentheses only has to be read as a primary. -/
theorem ReadsBack.of_operand {e : Expr}
    (hlexemes : ∀ operand, e.lexemes wrap operand = e.lexemes wrap true)
    (h : ReadsAsOperand wrap endLine e) : ReadsBack wrap endLine e where
  operand := h
  whole operand ts rest hts hlevel := by
    rw [hlexemes] at hts
    exact (h ts rest hts).asExpression hlevel

/-- What is put in parentheses only has to be read without them. -/
theorem ReadsBack.of_enclosed {e : Expr} {ls : List Lexeme}
    (hlexemes : ∀ operand, e.lexemes wrap operand = enclose operand ls)
    (h : ∀ ts rest, Spells ts ls → level (nextKind rest) < 1 →
      Reads (fun e' => e'.unlined = e.unlined) rest (expression endLine (ts ++ rest))) :
    ReadsBack wrap endLine e := by
  have hoperand : ReadsAsOperand wrap endLine e := by
    intro ts rest hts
    rw [hlexemes] at hts
    obtain ⟨line, ts₁, rfl, hts₁⟩ := spells_token.1 hts
    obtain ⟨ts₂, ts₃, rfl, hts₂, hts₃⟩ := spells_append.1 hts₁
    obtain ⟨line', ts₄, rfl, hts₄⟩ := spells_token.1 hts₃
    rw [spells_nil.1 hts₄, List.cons_append, List.append_assoc]
    have hinner := h ts₂ ([⟨.rightParen, line'⟩] ++ rest) hts₂ (by simp [nextKind, level])
    unfold primary
    refine hinner.bind fun e' hlt he => ?_
    exact expect_kind.bind fun _ hlt' _ => .pure he
  refine ⟨hoperand, fun operand ts rest hts hlevel => ?_⟩
  cases operand with
  | true => exact (hoperand ts rest hts).asExpression hlevel
  | false =>
    rw [hlexemes] at hts
    exact h ts rest hts hlevel

theorem primitiveArguments_cons {P : Expr → Prop} {Q : List Expr → Prop}
    {ts ts' rest : List Token} (harg : Reads P ts' (primary endLine ts))
    (hmore : Reads Q rest (primitiveArguments endLine ts')) :
    Reads (fun args => ∃ arg more, args = arg :: more ∧ P arg ∧ Q more) rest
      (primitiveArguments endLine ts) := by
  unfold primitiveArguments
  split
  · obtain ⟨r, hr, -⟩ := harg
    unfold primary at hr
    cases hr
  · obtain ⟨r, hr, -⟩ := harg
    unfold primary at hr
    cases hr
  · refine harg.bind fun arg hlt hP => ?_
    exact hmore.bind fun more hlt' hQ => .pure ⟨arg, more, rfl, hP, hQ⟩

/-- The arguments of a primitive through the closing bracket. -/
theorem primitiveArguments_operands {args : List Expr} {ts rest : List Token} {line : Nat}
    (hargs : ∀ a ∈ args, ReadsAsOperand wrap endLine a)
    (hts : Spells ts (operandLexemes wrap args)) :
    Reads (fun args' => unlinedExprs args' = unlinedExprs args) rest
      (primitiveArguments endLine (ts ++ ⟨.binary ">", line⟩ :: rest)) := by
  induction args generalizing ts with
  | nil =>
    rw [spells_nil.1 hts, List.nil_append]
    unfold primitiveArguments
    exact .pure rfl
  | cons arg args ih =>
    rw [List.forall_mem_cons] at hargs
    unfold operandLexemes at hts
    obtain ⟨ts₁, ts₂, rfl, hts₁, hts₂⟩ := spells_append.1 hts
    rw [List.append_assoc]
    refine (primitiveArguments_cons (hargs.1 ts₁ _ hts₁) (ih hargs.2 hts₂)).imp ?_
    rintro _ ⟨arg', args', rfl, harg, hargs'⟩
    rw [unlinedExprs, unlinedExprs, harg, hargs']

theorem primary_primitive {number : UInt16} {args : List Expr} {line line' : Nat}
    {ts rest : List Token} (hargs : ∀ a ∈ args, ReadsAsOperand wrap endLine a)
    (hts : Spells ts (operandLexemes wrap args ++ [.token (.binary ">")])) :
    Reads (fun e => e.unlined = .primitive number (unlinedExprs args) 0) rest
      (primary endLine
        (⟨.binary "<", line⟩ :: ⟨.integer number.toNat, line'⟩ :: (ts ++ rest))) := by
  obtain ⟨ts₁, ts₂, rfl, hts₁, hts₂⟩ := spells_append.1 hts
  obtain ⟨line'', ts₃, rfl, hts₃⟩ := spells_token.1 hts₂
  rw [spells_nil.1 hts₃, List.append_assoc]
  have hnumber : Reads (· = number) (ts₁ ++ ([⟨.binary ">", line''⟩] ++ rest))
      (primitiveNumber endLine (⟨.integer number.toNat, line'⟩ ::
        (ts₁ ++ ([⟨.binary ">", line''⟩] ++ rest)))) := by
    rw [primitiveNumber, if_pos number.toNat_lt]
    exact .pure UInt16.ofNat_toNat
  unfold primary
  refine hnumber.bind fun number' hlt hnumber' => ?_
  subst hnumber'
  refine (primitiveArguments_operands hargs hts₁).bind fun args' hlt' hargs' => .pure ?_
  rw [Expr.unlined, hargs']

theorem expression_assign {name : String} {value : Expr} {line line' : Nat} {ts rest : List Token}
    (h : Reads (fun e => e.unlined = value.unlined) rest (expression endLine ts)) :
    Reads (fun e => e.unlined = .assign name value.unlined 0) rest
      (expression endLine (⟨.identifier name, line⟩ :: ⟨.assign, line'⟩ :: ts)) := by
  rw [expression]
  refine h.bind fun value' hlt hvalue => .pure ?_
  rw [Expr.unlined, hvalue]

theorem expression_send {receiver : Expr} {message : Message} {ts rest : List Token}
    (hreceiver : ReadsAsOperand wrap endLine receiver) (hmessage : message.Grammatical)
    (hargs : ∀ a ∈ message.args, ReadsAsOperand wrap endLine a)
    (hts : Spells ts (receiver.lexemes wrap true ++ message.lexemes wrap))
    (hlevel : level (nextKind rest) < 1) :
    Reads (fun e => e.unlined = .send receiver.unlined message.unlined) rest
      (expression endLine (ts ++ rest)) := by
  obtain ⟨ts₁, ts₂, rfl, hts₁, hts₂⟩ := spells_append.1 hts
  rw [List.append_assoc]
  have hprimary := hreceiver ts₁ (ts₂ ++ rest) hts₁
  obtain ⟨hsend, hassign⟩ := keywordExpression_send hmessage hargs hts₂ (by omega) hprimary
  rw [hprimary.eq_cascade hassign]
  refine (hsend.asCascade hlevel).imp ?_
  rintro _ ⟨receiver', message', rfl, hreceiver', hmessage'⟩
  rw [Expr.unlined, hreceiver', hmessage']

theorem expression_cascade {receiver : Expr} {message : Message} {messages : List Message}
    {ts rest : List Token} (hreceiver : ReadsAsOperand wrap endLine receiver)
    (hmessages : GrammaticalMessages (message :: messages)) (hne : messages ≠ [])
    (hargs : ∀ m ∈ message :: messages, ∀ a ∈ m.args, ReadsAsOperand wrap endLine a)
    (hts : Spells ts
      (receiver.lexemes wrap true ++ message.lexemes wrap ++ cascadeLexemes wrap messages))
    (hlevel : level (nextKind rest) < 1) :
    Reads (fun e => e.unlined =
        .cascade receiver.unlined (unlinedMessages (message :: messages))) rest
      (expression endLine (ts ++ rest)) := by
  rw [List.forall_mem_cons] at hargs
  obtain ⟨ts₁, ts₂, rfl, hts₁, hts₂⟩ := spells_append.1 hts
  obtain ⟨ts₃, ts₄, rfl, hts₃, hts₄⟩ := spells_append.1 hts₁
  rw [List.append_assoc, List.append_assoc]
  have hsemicolon : nextKind (ts₂ ++ rest) = .semicolon := by
    cases messages with
    | nil => exact absurd rfl hne
    | cons m ms =>
      obtain ⟨line, ts₅, rfl, -⟩ := spells_token.1 hts₂
      rfl
  obtain ⟨hmore, hlevel'⟩ := cascadeTail_messages hmessages.2 hargs.2 hts₂ hlevel
  have hprimary := hreceiver ts₃ (ts₄ ++ (ts₂ ++ rest)) hts₃
  obtain ⟨hsend, hassign⟩ := keywordExpression_send hmessages.1 hargs.1 hts₄ hlevel' hprimary
  rw [hprimary.eq_cascade hassign]
  unfold cascade
  refine hsend.bind fun first hlt hfirst => ?_
  obtain ⟨receiver', message', rfl, hreceiver', hmessage'⟩ := hfirst
  dsimp only
  rw [if_pos hsemicolon]
  refine hmore.bind fun messages' hlt' hmessages' => .pure ?_
  rw [Expr.unlined, unlinedMessages, unlinedMessages, hreceiver', hmessage', hmessages']

mutual

/-- **A grammatical expression is read back wherever it may stand.** -/
theorem Expr.readsBack : ∀ e : Expr, e.Grammatical → ReadsBack wrap endLine e
  | .name name line, h => .of_operand (fun _ => rfl) fun ts rest hts => by
    obtain ⟨line', rfl⟩ := spells_single.1 hts
    unfold primary
    exact .pure rfl
  | .literal value line, h => .of_operand (fun _ => rfl) fun ts rest hts =>
    primary_literal h hts rest
  | .assign name value line, h => by
    have hvalue := Expr.readsBack value h.2
    refine .of_enclosed (fun _ => rfl) fun ts rest hts hlevel => ?_
    obtain ⟨line₁, ts₁, rfl, hts₁⟩ := spells_token.1 hts
    obtain ⟨line₂, ts₂, rfl, hts₂⟩ := spells_token.1 hts₁
    exact expression_assign (hvalue.whole true ts₂ rest hts₂ hlevel)
  | .send receiver (.mk selector args line), h =>
    .of_enclosed (fun _ => rfl) fun ts rest hts hlevel =>
      expression_send (Expr.readsBack receiver h.1).operand h.2 (operands_readBack args h.2.2) hts
        hlevel
  | .cascade receiver [], h => absurd h.2.1 (by decide)
  | .cascade receiver (message :: messages), h => by
    have hne : messages ≠ [] := by
      rintro rfl
      exact absurd h.2.1 (by simp)
    exact .of_enclosed (fun _ => rfl) fun ts rest hts hlevel =>
      expression_cascade (Expr.readsBack receiver h.1).operand h.2.2 hne
        (messages_readBack (message :: messages) h.2.2) hts hlevel
  | .block (.mk params temps body line), h => .of_operand (fun _ => rfl) fun ts rest hts => by
    obtain ⟨line', ts₁, rfl, hts₁⟩ := spells_token.1 hts
    unfold primary
    rw [List.cons_append]
    refine (block_lexemes h.2.2 (body_readsBack body h.2.2) hts₁).bind fun b hlt hb => .pure ?_
    rw [Expr.unlined, hb]
    rfl
  | .primitive number args line, h => .of_operand (fun _ => rfl) fun ts rest hts => by
    obtain ⟨line₁, ts₁, rfl, hts₁⟩ := spells_token.1 hts
    obtain ⟨line₂, ts₂, rfl, hts₂⟩ := spells_token.1 hts₁
    exact primary_primitive (operands_readBack args h) hts₂

theorem operands_readBack : ∀ args : List Expr, GrammaticalExprs args →
    ∀ a ∈ args, ReadsAsOperand wrap endLine a
  | [], _ => fun _ ha => absurd ha List.not_mem_nil
  | arg :: args, h => List.forall_mem_cons.2
    ⟨(Expr.readsBack arg h.1).operand, operands_readBack args h.2⟩

theorem messages_readBack : ∀ messages : List Message, GrammaticalMessages messages →
    ∀ m ∈ messages, ∀ a ∈ m.args, ReadsAsOperand wrap endLine a
  | [], _ => fun _ hm => absurd hm List.not_mem_nil
  | .mk _ args _ :: messages, h => List.forall_mem_cons.2
    ⟨operands_readBack args h.1.2, messages_readBack messages h.2⟩

theorem body_readsBack : ∀ body : List Statement, GrammaticalBody body →
    ∀ s ∈ body, ReadsAsExpression wrap endLine s.expr
  | [], _ => fun _ hs => absurd hs List.not_mem_nil
  | .evaluate e :: ss, h => List.forall_mem_cons.2
    ⟨(Expr.readsBack e h.1).whole, body_readsBack ss h.2⟩
  | .answer e :: ss, h => List.forall_mem_cons.2
    ⟨(Expr.readsBack e h.1).whole, body_readsBack ss (GrammaticalBody.tail h)⟩

end

end Expressions

/-! ## Methods -/

section Methods

variable {endLine : Nat} {ts rest : List Token}

theorem keywordPattern_keywords (endLine : Nat) {parts args : List String}
    (hlength : parts.length = args.length)
    (hts : Spells ts ((parts.zip args).flatMap fun (part, arg) =>
      [.token (.keyword part), .token (.identifier arg)]))
    (hrest : ∀ part, nextKind rest ≠ .keyword part) :
    Reads (· = (String.join parts, args)) rest (keywordPattern endLine (ts ++ rest)) := by
  induction args generalizing parts ts with
  | nil =>
    obtain rfl := List.length_eq_zero_iff.1 hlength
    rw [spells_nil.1 hts, List.nil_append]
    unfold keywordPattern
    split
    · exact absurd rfl (hrest _)
    · exact .pure rfl
  | cons arg args ih =>
    cases parts with
    | nil => cases hlength
    | cons part parts =>
      obtain ⟨line, ts₁, rfl, hts₁⟩ := spells_token.1 hts
      obtain ⟨line', ts₂, rfl, hts₂⟩ := spells_token.1 hts₁
      rw [List.cons_append, List.cons_append, keywordPattern]
      refine identifier_name.bind fun arg' hlt harg => ?_
      refine (ih (Nat.succ.inj hlength) hts₂).bind fun more hlt' hmore => ?_
      cases hmore
      refine .pure ?_
      rw [harg, String.join_cons]

/-- The pattern of a method, in front of something that is no keyword. -/
theorem pattern_patternLexemes (endLine : Nat) {selector : String} {args : List String}
    (hselector : SelectorFits selector args.length)
    (hts : Spells ts (patternLexemes selector args))
    (hrest : ∀ part, nextKind rest ≠ .keyword part) :
    Reads (· = (selector, args)) rest (pattern endLine (ts ++ rest)) := by
  unfold patternLexemes at hts
  rcases hselector.cases with ⟨hcount, -⟩ | ⟨hcount, hoperator⟩ |
    ⟨hcount, hoperator, words, hlength, -, hjoin, hparts⟩
  · obtain rfl := List.length_eq_zero_iff.1 hcount
    obtain ⟨line, rfl⟩ := spells_single.1 hts
    exact .pure rfl
  · obtain ⟨arg, rfl⟩ := List.length_eq_one_iff.1 hcount
    rw [if_neg (by simp), if_pos hoperator] at hts
    obtain ⟨line, ts₁, rfl, hts₁⟩ := spells_token.1 hts
    obtain ⟨line', ts₂, rfl, hts₂⟩ := spells_token.1 hts₁
    rw [spells_nil.1 hts₂, List.cons_append, pattern]
    refine identifier_name.bind fun arg' hlt harg => .pure ?_
    rw [harg]
  · have hne : args ≠ [] := List.ne_nil_of_length_pos hcount
    rw [if_neg (by simpa using hne), if_neg (by simp [hoperator]), hparts] at hts
    have hkeywords := keywordPattern_keywords endLine
      (by rw [List.length_map, hlength]) hts hrest
    rw [← keywordSelector, ← hjoin] at hkeywords
    cases args with
    | nil => exact absurd rfl hne
    | cons arg args =>
      cases words with
      | nil => cases hlength
      | cons w ws =>
        obtain ⟨line, ts₁, rfl, -⟩ := spells_token.1 hts
        exact hkeywords

end Methods

/-- The method is answered, up to the numbers of lines. -/
def Answers (tree : MethodTree) (x : Except SyntaxError MethodTree) : Prop :=
  ∃ tree', x = .ok tree' ∧ tree'.unlined = tree.unlined

/-- A grammatical method is read back from its tokens. -/
theorem method_lexemes (wrap : Bool) {endLine : Nat} {tree : MethodTree} {ts : List Token}
    (h : tree.Grammatical) (hts : Spells ts (tree.lexemes wrap)) :
    Answers tree (method endLine ts) := by
  obtain ⟨ts₁, ts₂, rfl, hts₁, hts₂⟩ := spells_append.1 hts
  obtain ⟨ts₃, ts₄, rfl, hts₃, hts₄⟩ := spells_append.1 hts₁
  have hend : EndsBody [] := .inl rfl
  have hexprs : ∀ s ∈ tree.body, ReadsAsExpression wrap endLine s.expr :=
    body_readsBack tree.body h.body
  obtain ⟨-, hbar, hkeyword⟩ := next_bodyLexemes hexprs hts₂ hend
  rw [List.append_nil] at hbar hkeyword
  have hkeyword' : ∀ part, nextKind (ts₄ ++ ts₂) ≠ .keyword part := by
    unfold temporaryLexemes at hts₄
    split at hts₄
    · rw [spells_nil.1 hts₄]
      exact hkeyword
    · obtain ⟨line, ts₅, rfl, -⟩ := spells_token.1 hts₄
      simp [nextKind]
  have hpattern := pattern_patternLexemes endLine h.selector hts₃ hkeyword'
  have htemps := temporaries_temporaryLexemes endLine hts₄ hbar
  have hbody := statements_body h.body hexprs hts₂ hend
  rw [List.append_nil] at hbody
  rw [List.append_assoc]
  unfold method
  refine hpattern.then (R := Answers tree) fun _ hlt hpattern => ?_
  cases hpattern
  refine htemps.then (R := Answers tree) fun temps hlt' htemps => ?_
  subst htemps
  refine hbody.then (R := Answers tree) fun body hlt'' hbody => ?_
  refine ⟨_, rfl, ?_⟩
  rw [MethodTree.unlined, MethodTree.unlined, hbody]

end Parser

/-- **Reading inverts writing.** A grammatical method that is written as source, with parentheses
around the expressions of statements or without, is read as the same method, up to the numbers of
lines. -/
theorem parsing_inverts_printing (wrap : Bool) (tree : MethodTree) (h : tree.Grammatical) :
    ∃ tree', MethodTree.ofSource (Text.utf8 (tree.source wrap)) = .ok tree' ∧
      tree'.unlined = tree.unlined := by
  have htokens := tokenize_spell (MethodTree.spellable_lexemes wrap h)
  refine Parser.method_lexemes wrap h ?_
  rw [Parser.Spells, List.map_dropLast, MethodTree.source, htokens, List.dropLast_concat]

/-- A method with a cascade, a block, a primitive, nested messages and literals of all kinds. -/
def mixedTree : MethodTree where
  selector := "from:to:"
  args := ["a", "b_2"]
  temps := ["x"]
  body :=
    [.evaluate (.assign "x" (.cascade (.name "a" 2)
        [.mk "-" [.literal (.integer (-5)) 2] 2, .mk "at:put:" [.literal (.character 39) 2,
          .send (.name "self" 2) (.mk "|" [.literal (.string "it's") 2] 2)] 2]) 2),
      .evaluate (.primitive 7 [.name "a" 3, .literal (.integer (-1)) 3,
        .send (.name "b_2" 3) (.mk ">" [.name "a" 3] 3)] 3),
      .answer (.block (.mk ["y"] ["z"] [.answer (.literal (.array [.nil, .integer (-8),
        .symbol "at:put:", .array [.true, .character 32, .string ""]]) 4)] 4))]

theorem mixedTree_grammatical : mixedTree.Grammatical := by
  have hbinary : ∀ selector, isOperator selector → SelectorFits selector 1 :=
    fun _ h => .inr (.inl ⟨rfl, h⟩)
  have hkeywords : ∀ words : List String, 0 < words.length → (∀ w ∈ words, isWord w) →
      SelectorFits (keywordSelector words) words.length :=
    fun words hpos hwords => .inr (.inr ⟨hpos, words, rfl, hwords, rfl⟩)
  have hassign : SelectorFits "at:put:" 2 := hkeywords ["at", "put"] (by decide) (by decide)
  refine ⟨hkeywords ["from", "to"] (by decide) (by decide), by decide, by decide, ?_⟩
  simp only [mixedTree, GrammaticalBody, Expr.Grammatical, GrammaticalMessages, Message.Grammatical,
    GrammaticalExprs, Literal.Grammatical, GrammaticalItems, Block.Grammatical, List.length_cons,
    List.length_nil, and_true, true_and, hassign, hbinary "-" (by decide),
    hbinary "|" (by decide), hbinary ">" (by decide)]
  decide

theorem parsing_inverts_printing_mixedTree :
    mixedTree.Grammatical ∧ ∃ tree',
      MethodTree.ofSource (Text.utf8 (mixedTree.source false)) = .ok tree' ∧
        tree'.unlined = mixedTree.unlined :=
  ⟨mixedTree_grammatical, parsing_inverts_printing false mixedTree mixedTree_grammatical⟩

end Smalltalk
