import Mathlib
import Smalltalk.Proofs.Grammar.Spelling
import Smalltalk.Source.Tree

/-!
# Writing trees as source

A tree is written as pieces of source with blanks between them. Expressions that are made of others
are put in parentheses wherever they are part of another expression, so no order of binding has to
be known, and symbols are written with quotes. Whether the expression of a statement is put in
parentheses as well makes no difference to a reader, so it is left open.

Not every tree can be written: `MethodTree.Grammatical` says which. For instance, a method answers
only in its last statement, and a literal number with a decimal point is none.

## Main definitions

* `Expr.lexemes`, `MethodTree.source`: a tree as source
* `Expr.Grammatical`, `MethodTree.Grammatical`: the trees that can be written
* `Expr.unlined`, `MethodTree.unlined`: a tree without the numbers of lines

## Main results

* `MethodTree.spellable_lexemes`: a grammatical tree is made of tokens that can be written
-/

namespace Smalltalk

open Lexer

/-! ## Selectors -/

/-- The parts of a selector, each through its colon, behind the characters of a part that has been
started. -/
def partsFrom (started : List Char) : List Char → List String
  | [] => []
  | c :: cs =>
    if c = ':' then String.ofList (started ++ [c]) :: partsFrom [] cs
    else partsFrom (started ++ [c]) cs

/-- The parts of a keyword selector, each with its colon. -/
def keywordParts (selector : String) : List String := partsFrom [] selector.toList

/-- The selector that keywords make, given without their colons. -/
def keywordSelector (words : List String) : String := String.join (words.map (· ++ ":"))

/-- A word goes with no argument, an operator with one, and keywords with one each. -/
def SelectorFits (selector : String) (count : Nat) : Prop :=
  count = 0 ∧ isWord selector ∨ count = 1 ∧ isOperator selector ∨
    0 < count ∧ ∃ words : List String, words.length = count ∧ (∀ w ∈ words, isWord w) ∧
      selector = keywordSelector words

/-! ## Lexemes -/

/-- Parentheses, if they are wanted. -/
def enclose (wanted : Bool) (ls : List Lexeme) : List Lexeme :=
  if wanted then .token .leftParen :: ls ++ [.token .rightParen] else ls

mutual

/-- A literal as source. -/
def Literal.lexemes : Literal → List Lexeme
  | .integer n => [if n < 0 then .negative n.natAbs else .token (.integer n.natAbs)]
  | .float x => [.token (.float x)]
  | .character b => [.token (.character b)]
  | .string s => [.token (.string s)]
  | .symbol s => [.token (.symbol s)]
  | .nil => [.token (.identifier "nil")]
  | .true => [.token (.identifier "true")]
  | .false => [.token (.identifier "false")]
  | .array items => .token .arrayStart :: itemLexemes items ++ [.token .rightParen]

/-- The elements of a literal array. -/
def itemLexemes : List Literal → List Lexeme
  | [] => []
  | item :: items => item.lexemes ++ itemLexemes items

end

/-- Names between bars, if there are any. -/
def temporaryLexemes (temps : List String) : List Lexeme :=
  if temps.isEmpty then []
  else .token (.binary "|") :: temps.map (.token <| .identifier ·) ++ [.token (.binary "|")]

/-- Parameters, each behind a colon, and a bar, if there are any. -/
def parameterLexemes (params : List String) : List Lexeme :=
  if params.isEmpty then []
  else
    params.flatMap (fun p => [.token .colon, .token (.identifier p)]) ++ [.token (.binary "|")]

section Lexemes

/- Is the expression of a statement put in parentheses? -/
variable (wrap : Bool)

mutual

/-- An expression as source, in parentheses if it is part of another and made of others. -/
def Expr.lexemes (operand : Bool) : Expr → List Lexeme
  | .name name _ => [.token (.identifier name)]
  | .literal value _ => value.lexemes
  | .assign name value _ =>
    enclose operand (.token (.identifier name) :: .token .assign :: value.lexemes true)
  | .send receiver message => enclose operand (receiver.lexemes true ++ message.lexemes)
  | .cascade receiver [] => enclose operand (receiver.lexemes true)
  | .cascade receiver (message :: messages) =>
    enclose operand (receiver.lexemes true ++ message.lexemes ++ cascadeLexemes messages)
  | .block b => b.lexemes
  | .primitive number args _ =>
    .token (.binary "<") :: .token (.integer number.toNat) :: operandLexemes args ++
      [.token (.binary ">")]

/-- Expressions in a row. -/
def operandLexemes : List Expr → List Lexeme
  | [] => []
  | arg :: args => arg.lexemes true ++ operandLexemes args

/-- Keywords, each in front of its argument. -/
def keywordLexemes (parts : List String) : List Expr → List Lexeme
  | [] => []
  | arg :: args =>
    .token (.keyword (parts.headD "")) :: arg.lexemes true ++ keywordLexemes parts.tail args

/-- A message without its receiver. -/
def Message.lexemes : Message → List Lexeme
  | .mk selector args _ =>
    if args.isEmpty then [.token (.identifier selector)]
    else if isOperator selector then .token (.binary selector) :: operandLexemes args
    else keywordLexemes (keywordParts selector) args

/-- Messages, each behind a semicolon. -/
def cascadeLexemes : List Message → List Lexeme
  | [] => []
  | message :: messages =>
    .token .semicolon :: message.lexemes ++ cascadeLexemes messages

def Statement.lexemes : Statement → List Lexeme
  | .evaluate e => e.lexemes wrap
  | .answer e => .token .caret :: e.lexemes wrap

/-- Statements with periods between them. -/
def bodyLexemes : List Statement → List Lexeme
  | [] => []
  | s :: ss => s.lexemes ++ moreLexemes ss

/-- Statements, each behind a period. -/
def moreLexemes : List Statement → List Lexeme
  | [] => []
  | s :: ss => .token .period :: s.lexemes ++ moreLexemes ss

def Block.lexemes : Block → List Lexeme
  | .mk params temps body _ =>
    .token .leftBracket :: parameterLexemes params ++ temporaryLexemes temps ++ bodyLexemes body ++
      [.token .rightBracket]

end

/-- The pattern of a method. -/
def patternLexemes (selector : String) (args : List String) : List Lexeme :=
  if args.isEmpty then [.token (.identifier selector)]
  else if isOperator selector then
    .token (.binary selector) :: args.map (.token <| .identifier ·)
  else
    ((keywordParts selector).zip args).flatMap fun (part, arg) =>
      [.token (.keyword part), .token (.identifier arg)]

/-- A method as pieces of source. -/
def MethodTree.lexemes (tree : MethodTree) : List Lexeme :=
  patternLexemes tree.selector tree.args ++ temporaryLexemes tree.temps ++
    bodyLexemes wrap tree.body

/-- A method as source. -/
def MethodTree.source (tree : MethodTree) : String := spell (tree.lexemes wrap)

end Lexemes

/-- The expression of a statement. -/
def Statement.expr : Statement → Expr
  | .evaluate e => e
  | .answer e => e

/-! ## Trees that can be written -/

mutual

/-- A literal that can be written. The words `nil`, `true` and `false` are literals only inside a
literal array. -/
def Literal.Grammatical (inArray : Bool) : Literal → Prop
  | .integer n => n.natAbs < 2 ^ 63
  | .float _ => False
  | .character b => b < 128
  | .string _ => True
  | .symbol _ => True
  | .nil => inArray
  | .true => inArray
  | .false => inArray
  | .array items => GrammaticalItems items

def GrammaticalItems : List Literal → Prop
  | [] => True
  | item :: items => item.Grammatical true ∧ GrammaticalItems items

end

mutual

/-- An expression that can be written. -/
def Expr.Grammatical : Expr → Prop
  | .name name _ => isWord name
  | .literal value _ => value.Grammatical false
  | .assign name value _ => isWord name ∧ value.Grammatical
  | .send receiver message => receiver.Grammatical ∧ message.Grammatical
  | .cascade receiver messages =>
    receiver.Grammatical ∧ 2 ≤ messages.length ∧ GrammaticalMessages messages
  | .block b => b.Grammatical
  | .primitive _ args _ => GrammaticalExprs args

def GrammaticalExprs : List Expr → Prop
  | [] => True
  | e :: es => e.Grammatical ∧ GrammaticalExprs es

def Message.Grammatical : Message → Prop
  | .mk selector args _ => SelectorFits selector args.length ∧ GrammaticalExprs args

def GrammaticalMessages : List Message → Prop
  | [] => True
  | m :: ms => m.Grammatical ∧ GrammaticalMessages ms

def Statement.Grammatical : Statement → Prop
  | .evaluate e => e.Grammatical
  | .answer e => e.Grammatical

/-- Statements that can be written: only the last one answers. -/
def GrammaticalBody : List Statement → Prop
  | [] => True
  | .evaluate e :: ss => e.Grammatical ∧ GrammaticalBody ss
  | .answer e :: ss => e.Grammatical ∧ ss = []

def Block.Grammatical : Block → Prop
  | .mk params temps body _ =>
    (∀ p ∈ params, isWord p) ∧ (∀ t ∈ temps, isWord t) ∧ GrammaticalBody body

end

theorem GrammaticalBody.tail {s : Statement} {ss : List Statement}
    (h : GrammaticalBody (s :: ss)) : GrammaticalBody ss := by
  cases s with
  | evaluate e => exact h.2
  | answer e =>
    rw [h.2]
    trivial

/-- A method that can be written. -/
structure MethodTree.Grammatical (tree : MethodTree) : Prop where
  selector : SelectorFits tree.selector tree.args.length
  args : ∀ a ∈ tree.args, isWord a
  temps : ∀ t ∈ tree.temps, isWord t
  body : GrammaticalBody tree.body

/-! ## Trees without lines -/

mutual

/-- The expression without the numbers of lines. -/
def Expr.unlined : Expr → Expr
  | .name name _ => .name name 0
  | .literal value _ => .literal value 0
  | .assign name value _ => .assign name value.unlined 0
  | .send receiver message => .send receiver.unlined message.unlined
  | .cascade receiver messages => .cascade receiver.unlined (unlinedMessages messages)
  | .block b => .block b.unlined
  | .primitive number args _ => .primitive number (unlinedExprs args) 0

def unlinedExprs : List Expr → List Expr
  | [] => []
  | e :: es => e.unlined :: unlinedExprs es

def Message.unlined : Message → Message
  | .mk selector args _ => .mk selector (unlinedExprs args) 0

def unlinedMessages : List Message → List Message
  | [] => []
  | m :: ms => m.unlined :: unlinedMessages ms

def Statement.unlined : Statement → Statement
  | .evaluate e => .evaluate e.unlined
  | .answer e => .answer e.unlined

def unlinedBody : List Statement → List Statement
  | [] => []
  | s :: ss => s.unlined :: unlinedBody ss

def Block.unlined : Block → Block
  | .mk params temps body _ => .mk params temps (unlinedBody body) 0

end

/-- The method without the numbers of lines. -/
def MethodTree.unlined (tree : MethodTree) : MethodTree :=
  { tree with body := unlinedBody tree.body }

/-! ## Parts of selectors -/

theorem partsFrom_append {started cs : List Char} (h : ':' ∉ cs) (rest : List Char) :
    partsFrom started (cs ++ ':' :: rest) =
      String.ofList (started ++ cs ++ [':']) :: partsFrom [] rest := by
  induction cs generalizing started with
  | nil =>
    rw [List.nil_append, partsFrom, if_pos rfl, List.append_nil]
  | cons c cs ih =>
    rw [List.mem_cons, not_or] at h
    rw [List.cons_append, partsFrom, if_neg (fun hc => h.1 hc.symm), ih h.2]
    simp only [List.append_assoc, List.cons_append, List.nil_append]

theorem colon_not_mem_of_isWord {s : String} (h : isWord s) : ':' ∉ s.toList := by
  intro hmem
  unfold isWord at h
  split at h
  · cases h
  · rename_i c cs hs
    rw [hs] at hmem
    obtain ⟨hc, hcs⟩ := Bool.and_eq_true_iff.1 h
    rcases List.mem_cons.1 hmem with rfl | hmem
    · exact absurd hc (by decide)
    · exact absurd (List.all_eq_true.1 hcs _ hmem) (by decide)

theorem keywordParts_keywordSelector {words : List String} (h : ∀ w ∈ words, isWord w) :
    keywordParts (keywordSelector words) = words.map (· ++ ":") := by
  unfold keywordParts keywordSelector
  rw [String.toList_join]
  induction words with
  | nil => rfl
  | cons w ws ih =>
    rw [List.forall_mem_cons] at h
    have hw : (w ++ ":").toList = w.toList ++ [':'] := String.toList_append
    rw [List.map_cons, List.flatMap_cons, hw, List.append_assoc, List.singleton_append,
      partsFrom_append (colon_not_mem_of_isWord h.1), ih h.2, List.nil_append, ← hw,
      String.ofList_toList]

theorem isOperator_of_cons {s : String} {c : Char} {cs : List Char} (hs : s.toList = c :: cs)
    (hc : c.isAlpha || c == '_') : isOperator s = false := by
  have hother : operatorChars.contains c = false ∧ c ≠ '|' :=
    ascii_induction
      (P := fun c _ => c.isAlpha || c == '_' → operatorChars.contains c = false ∧ c ≠ '|')
      (isLetter_ofNat hc).1 (by decide) hc
  have hbar : (s == "|") = false := by
    refine beq_eq_false_iff_ne.2 fun h => ?_
    rw [h] at hs
    cases hs
    exact hother.2 rfl
  unfold isOperator
  rw [hbar, hs, Bool.false_or]
  simp only [hother.1, Bool.false_and]

/-- Keywords make no operator. -/
theorem isOperator_keywordSelector {words : List String} (h : ∀ w ∈ words, isWord w) :
    isOperator (keywordSelector words) = false := by
  cases words with
  | nil => rfl
  | cons w ws =>
    have hw := h w List.mem_cons_self
    unfold isWord at hw
    split at hw
    · cases hw
    · rename_i c cs hs
      have hlist : (keywordSelector (w :: ws)).toList =
          c :: (cs ++ [':'] ++ (keywordSelector ws).toList) := by
        rw [keywordSelector, String.toList_join, List.map_cons, List.flatMap_cons,
          String.toList_append, hs, keywordSelector, String.toList_join]
        rfl
      exact isOperator_of_cons hlist (Bool.and_eq_true_iff.1 hw).1

/-! ## Grammatical trees can be written -/

theorem SelectorFits.cases {selector : String} {count : Nat} (h : SelectorFits selector count) :
    (count = 0 ∧ isWord selector) ∨ (count = 1 ∧ isOperator selector) ∨
      0 < count ∧ isOperator selector = false ∧
        ∃ words : List String, words.length = count ∧ (∀ w ∈ words, isWord w) ∧
          selector = keywordSelector words ∧ keywordParts selector = words.map (· ++ ":") := by
  rcases h with h | h | ⟨hpos, words, hcount, hwords, rfl⟩
  · exact .inl h
  · exact .inr (.inl h)
  · exact .inr (.inr ⟨hpos, isOperator_keywordSelector hwords, words, hcount, hwords, rfl,
      keywordParts_keywordSelector hwords⟩)

/-- All pieces of source can be written. -/
def AllSpellable (ls : List Lexeme) : Prop := ∀ l ∈ ls, l.Spellable

section AllSpellable

variable {l : Lexeme} {ls ls' : List Lexeme}

theorem allSpellable_nil : AllSpellable [] := fun _ h => absurd h List.not_mem_nil

theorem allSpellable_cons : AllSpellable (l :: ls) ↔ l.Spellable ∧ AllSpellable ls :=
  List.forall_mem_cons

theorem allSpellable_singleton : AllSpellable [l] ↔ l.Spellable := List.forall_mem_singleton

theorem allSpellable_append :
    AllSpellable (ls ++ ls') ↔ AllSpellable ls ∧ AllSpellable ls' :=
  List.forall_mem_append

theorem AllSpellable.cons (hl : l.Spellable) (hls : AllSpellable ls) : AllSpellable (l :: ls) :=
  allSpellable_cons.2 ⟨hl, hls⟩

theorem AllSpellable.append (hls : AllSpellable ls) (hls' : AllSpellable ls') :
    AllSpellable (ls ++ ls') :=
  allSpellable_append.2 ⟨hls, hls'⟩

/-- A token that is the same in all its uses. -/
theorem AllSpellable.token {kind : TokenKind} (h : kind.Spellable) :
    AllSpellable [.token kind] :=
  allSpellable_singleton.2 h

theorem AllSpellable.enclose (hls : AllSpellable ls) (wanted : Bool) :
    AllSpellable (enclose wanted ls) := by
  cases wanted with
  | false => exact hls
  | true => exact (hls.cons (by trivial)).append (.token (by trivial))

theorem spellable_identifiers {names : List String} (h : ∀ a ∈ names, isWord a) :
    AllSpellable (names.map (.token <| .identifier ·)) := by
  intro l hl
  obtain ⟨a, ha, rfl⟩ := List.mem_map.1 hl
  exact h a ha

theorem spellable_temporaryLexemes {temps : List String} (h : ∀ t ∈ temps, isWord t) :
    AllSpellable (temporaryLexemes temps) := by
  unfold temporaryLexemes
  split
  · exact allSpellable_nil
  · exact ((spellable_identifiers h).cons (by rfl)).append (.token (by rfl))

theorem spellable_parameterLexemes {params : List String} (h : ∀ p ∈ params, isWord p) :
    AllSpellable (parameterLexemes params) := by
  unfold parameterLexemes
  split
  · exact allSpellable_nil
  · refine AllSpellable.append (fun l hl => ?_) (.token (by rfl))
    obtain ⟨p, hp, hl⟩ := List.mem_flatMap.1 hl
    rcases List.mem_cons.1 hl with rfl | hl
    · trivial
    · rw [List.mem_singleton.1 hl]
      exact h p hp

mutual

theorem Literal.spellable_lexemes {inArray : Bool} :
    ∀ value : Literal, value.Grammatical inArray → AllSpellable value.lexemes
  | .integer n, h => by
    unfold Literal.lexemes
    have hbound : n.natAbs < integerBound := h
    split
    · exact allSpellable_singleton.2 hbound
    · exact .token hbound
  | .float _, h => h.elim
  | .character _, h => .token h
  | .string _, _ => .token trivial
  | .symbol _, _ => .token trivial
  | .nil, _ => .token (by rfl)
  | .true, _ => .token (by rfl)
  | .false, _ => .token (by rfl)
  | .array items, h =>
    ((spellable_itemLexemes items h).cons (by trivial)).append (.token (by trivial))

theorem spellable_itemLexemes :
    ∀ items : List Literal, GrammaticalItems items → AllSpellable (itemLexemes items)
  | [], _ => allSpellable_nil
  | item :: items, h => (item.spellable_lexemes h.1).append (spellable_itemLexemes items h.2)

end

section Trees

variable (wrap : Bool)

mutual

theorem Expr.spellable_lexemes (operand : Bool) :
    ∀ e : Expr, e.Grammatical → AllSpellable (e.lexemes wrap operand)
  | .name name _, h => .token h
  | .literal value _, h => value.spellable_lexemes h
  | .assign name value _, h =>
    (((value.spellable_lexemes true h.2).cons (by trivial)).cons (by exact h.1)).enclose operand
  | .send receiver message, h =>
    ((receiver.spellable_lexemes true h.1).append (message.spellable_lexemes h.2)).enclose operand
  | .cascade receiver [], h => (receiver.spellable_lexemes true h.1).enclose operand
  | .cascade receiver (message :: messages), h =>
    (((receiver.spellable_lexemes true h.1).append (message.spellable_lexemes h.2.2.1)).append
      (spellable_cascadeLexemes messages h.2.2.2)).enclose operand
  | .block b, h => b.spellable_lexemes h
  | .primitive number args _, h => by
    have hnumber : number.toNat < integerBound :=
      Nat.lt_of_lt_of_le number.toNat_lt (by decide)
    exact (((spellable_operandLexemes args h).cons (by exact hnumber)).cons (by rfl)).append
      (.token (by rfl))

theorem spellable_operandLexemes :
    ∀ args : List Expr, GrammaticalExprs args → AllSpellable (operandLexemes wrap args)
  | [], _ => allSpellable_nil
  | arg :: args, h =>
    (arg.spellable_lexemes true h.1).append (spellable_operandLexemes args h.2)

theorem spellable_keywordLexemes :
    ∀ (args : List Expr) (words : List String), (∀ w ∈ words, isWord w) →
      words.length = args.length → GrammaticalExprs args →
      AllSpellable (keywordLexemes wrap (words.map (· ++ ":")) args)
  | [], _, _, _, _ => allSpellable_nil
  | arg :: args, [], _, hlength, _ => by cases hlength
  | arg :: args, w :: ws, hwords, hlength, h => by
    rw [List.forall_mem_cons] at hwords
    exact ((arg.spellable_lexemes true h.1).cons (by exact ⟨w, hwords.1, rfl⟩)).append
      (spellable_keywordLexemes args ws hwords.2 (Nat.succ.inj hlength) h.2)

theorem Message.spellable_lexemes :
    ∀ message : Message, message.Grammatical → AllSpellable (message.lexemes wrap)
  | .mk selector args line, h => by
    unfold Message.lexemes
    obtain ⟨hselector, hargs⟩ := h
    rcases hselector.cases with ⟨hcount, hword⟩ | ⟨hcount, hoperator⟩ |
      ⟨hcount, hoperator, words, hlength, hwords, rfl, hparts⟩
    · rw [if_pos (by simpa using hcount)]
      exact .token hword
    · rw [if_neg (by rintro h; simp_all), if_pos hoperator]
      exact (spellable_operandLexemes args hargs).cons (by exact hoperator)
    · rw [if_neg (by rintro h; simp_all), if_neg (by simp [hoperator]), hparts]
      exact spellable_keywordLexemes args words hwords hlength hargs

theorem spellable_cascadeLexemes :
    ∀ messages : List Message, GrammaticalMessages messages →
      AllSpellable (cascadeLexemes wrap messages)
  | [], _ => allSpellable_nil
  | message :: messages, h =>
    ((message.spellable_lexemes h.1).cons (by trivial)).append
      (spellable_cascadeLexemes messages h.2)

theorem spellable_moreLexemes :
    ∀ body : List Statement, GrammaticalBody body → AllSpellable (moreLexemes wrap body)
  | [], _ => allSpellable_nil
  | .evaluate e :: ss, h =>
    ((e.spellable_lexemes wrap h.1).cons (by trivial)).append (spellable_moreLexemes ss h.2)
  | .answer e :: ss, h => by
    obtain ⟨he, rfl⟩ := h
    exact (((e.spellable_lexemes wrap he).cons (by trivial)).cons (by trivial)).append
      allSpellable_nil

theorem spellable_bodyLexemes :
    ∀ body : List Statement, GrammaticalBody body → AllSpellable (bodyLexemes wrap body)
  | [], _ => allSpellable_nil
  | .evaluate e :: ss, h => (e.spellable_lexemes wrap h.1).append (spellable_moreLexemes ss h.2)
  | .answer e :: ss, h => by
    obtain ⟨he, rfl⟩ := h
    exact ((e.spellable_lexemes wrap he).cons (by trivial)).append allSpellable_nil

theorem Block.spellable_lexemes : ∀ b : Block, b.Grammatical → AllSpellable (b.lexemes wrap)
  | .mk params temps body _, h =>
    ((((spellable_parameterLexemes h.1).cons (by trivial)).append
      (spellable_temporaryLexemes h.2.1)).append (spellable_bodyLexemes body h.2.2)).append
        (.token (by trivial))

end

/-- A grammatical method is made of pieces of source that can be written. -/
theorem MethodTree.spellable_lexemes {tree : MethodTree} (h : tree.Grammatical) :
    AllSpellable (tree.lexemes wrap) := by
  refine ((AllSpellable.append ?_ (spellable_temporaryLexemes h.temps)).append
    (spellable_bodyLexemes wrap tree.body h.body))
  have hargs := h.args
  unfold patternLexemes
  rcases h.selector.cases with ⟨hcount, hword⟩ | ⟨hcount, hoperator⟩ |
    ⟨hcount, hoperator, words, hlength, hwords, hselector, hparts⟩
  · rw [if_pos (by simpa using hcount)]
    exact .token hword
  · rw [if_neg (by rintro h; simp_all), if_pos hoperator]
    exact (spellable_identifiers hargs).cons (by exact hoperator)
  · rw [if_neg (by rintro h; simp_all), if_neg (by simp [hoperator]), hparts]
    intro l hl
    obtain ⟨⟨part, arg⟩, hpair, hl⟩ := List.mem_flatMap.1 hl
    obtain ⟨hpart, harg⟩ := List.of_mem_zip hpair
    obtain ⟨w, hw, rfl⟩ := List.mem_map.1 hpart
    rcases List.mem_cons.1 hl with rfl | hl
    · exact ⟨w, hwords w hw, rfl⟩
    · rw [List.mem_singleton.1 hl]
      exact hargs arg harg

end Trees

end AllSpellable

end Smalltalk
