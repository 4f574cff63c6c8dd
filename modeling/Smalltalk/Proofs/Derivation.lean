import Smalltalk.Proofs.Lexing
import Smalltalk.Source.Parser

/-!
# The parser reads every token

The grammar as rules: `Derives ts p` says that the tokens `ts`, all of them and in their order, are
read as the phrase `p`. A rule puts together the tokens of its parts and its own, so each token of a
derivation is at one place in it, and no rule has an error token.

The type of trees has a cascade without messages, which nothing is read as. A tree is *proper* if
none of its cascades is empty, and the rules make proper trees only.

A parser that succeeds has taken some of its tokens from the front and left the others, and those it
has taken derive what it answers: `Consumes`. For the parser of methods, that leaves nothing but the
end of input.

## Main definitions

* `Derives`, `MethodTree.Derives`: the grammar
* `Expr.Proper`: no cascade in the expression is empty
* `Parser.Consumes`: what a parser takes derives what it answers

## Main results

* `Derives.noError`: no error token is read as anything
* `Derives.proper`, `MethodTree.proper_ofSource`: trees that are read are proper
* `Parser.consumes_method`: the parser follows the grammar
* `lexical_errors_surface`
-/

namespace Smalltalk

/-! ## The grammar -/

/-- What tokens are read as. Expressions come in the order in which messages bind. -/
inductive Phrase where
  | literal (value : Literal)
  | literals (items : List Literal)
  | primary (e : Expr)
  | unary (e : Expr)
  | binary (e : Expr)
  | keyword (e : Expr)
  | expression (e : Expr)
  /-- Keywords, each with an argument. -/
  | parts (selector : String) (args : List Expr)
  | message (m : Message)
  /-- Messages, each behind a semicolon. -/
  | messages (ms : List Message)
  | arguments (args : List Expr)
  | statements (body : List Statement)

/-- The literal that a minus sign makes of a token. -/
def negation? : TokenKind → Option Literal
  | .integer n => some (.integer (-n))
  | .float x => some (.float x.negate)
  | _ => none

/-- Names between two bars, or nothing. -/
inductive Temporaries : List Token → List String → Prop where
  | none : Temporaries [] []
  | some {ts : List Token} {names : List String} {l l' : Nat}
      (h : ts.map Token.kind = names.map .identifier) :
      Temporaries (⟨.binary "|", l⟩ :: ts ++ [⟨.binary "|", l'⟩]) names

/-- Names behind colons and then a bar, or nothing. -/
inductive Parameters : List Token → List String → Prop where
  | none : Parameters [] []
  | some {ts : List Token} {names : List String} {l : Nat} (hne : names ≠ [])
      (h : ts.map Token.kind = names.flatMap fun name => [.colon, .identifier name]) :
      Parameters (ts ++ [⟨.binary "|", l⟩]) names

/-- The tokens are read as the phrase. -/
inductive Derives : List Token → Phrase → Prop where
  -- what stands in a literal array
  | scalar {t : Token} {value : Literal} (h : Parser.scalar? t.kind = some value) :
      Derives [t] (.literal value)
  | negative {t : Token} {value : Literal} {l : Nat} (h : negation? t.kind = some value) :
      Derives [⟨.binary "-", l⟩, t] (.literal value)
  | word {name : String} {l : Nat} :
      Derives [⟨.identifier name, l⟩] (.literal (Parser.wordLiteral name))
  | operator {operator : String} {l : Nat} :
      Derives [⟨.binary operator, l⟩] (.literal (.symbol operator))
  | selector {ts : List Token} {parts : List String} (hne : parts ≠ [])
      (h : ts.map Token.kind = parts.map .keyword) :
      Derives ts (.literal (.symbol (String.join parts)))
  | array {ts : List Token} {items : List Literal} {opening : TokenKind} {l l' : Nat}
      (hopening : opening = .leftParen ∨ opening = .arrayStart) (h : Derives ts (.literals items)) :
      Derives (⟨opening, l⟩ :: ts ++ [⟨.rightParen, l'⟩]) (.literal (.array items))
  | noLiterals : Derives [] (.literals [])
  | moreLiterals {ts ts' : List Token} {value : Literal} {items : List Literal}
      (h : Derives ts (.literal value)) (h' : Derives ts' (.literals items)) :
      Derives (ts ++ ts') (.literals (value :: items))
  -- primaries
  | name {name : String} {l : Nat} : Derives [⟨.identifier name, l⟩] (.primary (.name name l))
  | scalarPrimary {kind : TokenKind} {value : Literal} {l : Nat}
      (h : Parser.scalar? kind = some value) : Derives [⟨kind, l⟩] (.primary (.literal value l))
  | negativePrimary {t : Token} {value : Literal} {l : Nat} (h : negation? t.kind = some value) :
      Derives [⟨.binary "-", l⟩, t] (.primary (.literal value l))
  | arrayPrimary {ts : List Token} {items : List Literal} {l l' : Nat}
      (h : Derives ts (.literals items)) :
      Derives (⟨.arrayStart, l⟩ :: ts ++ [⟨.rightParen, l'⟩]) (.primary (.literal (.array items) l))
  | parenthesized {ts : List Token} {e : Expr} {l l' : Nat} (h : Derives ts (.expression e)) :
      Derives (⟨.leftParen, l⟩ :: ts ++ [⟨.rightParen, l'⟩]) (.primary e)
  | block {ts₁ ts₂ ts₃ : List Token} {params temps : List String} {body : List Statement}
      {l l' : Nat}
      (h₁ : Parameters ts₁ params) (h₂ : Temporaries ts₂ temps)
      (h₃ : Derives ts₃ (.statements body)) :
      Derives (⟨.leftBracket, l⟩ :: (ts₁ ++ ts₂ ++ ts₃) ++ [⟨.rightBracket, l'⟩])
        (.primary (.block (.mk params temps body l)))
  -- a block without statements may leave out the bar behind its parameters
  | emptyBlock {ts : List Token} {params : List String} {l l' : Nat} (hne : params ≠ [])
      (h : ts.map Token.kind = params.flatMap fun name => [.colon, .identifier name]) :
      Derives (⟨.leftBracket, l⟩ :: ts ++ [⟨.rightBracket, l'⟩])
        (.primary (.block (.mk params [] [] l)))
  | primitive {ts : List Token} {args : List Expr} {n l l' l'' : Nat} (hn : n < 65536)
      (h : Derives ts (.arguments args)) :
      Derives (⟨.binary "<", l⟩ :: ⟨.integer n, l'⟩ :: ts ++ [⟨.binary ">", l''⟩])
        (.primary (.primitive (UInt16.ofNat n) args l))
  | noArguments : Derives [] (.arguments [])
  | moreArguments {ts ts' : List Token} {arg : Expr} {args : List Expr}
      (h : Derives ts (.primary arg)) (h' : Derives ts' (.arguments args)) :
      Derives (ts ++ ts') (.arguments (arg :: args))
  -- messages
  | ofPrimary {ts : List Token} {e : Expr} (h : Derives ts (.primary e)) : Derives ts (.unary e)
  | unarySend {ts : List Token} {receiver : Expr} {selector : String} {l : Nat}
      (h : Derives ts (.unary receiver)) :
      Derives (ts ++ [⟨.identifier selector, l⟩]) (.unary (.send receiver (.mk selector [] l)))
  | ofUnary {ts : List Token} {e : Expr} (h : Derives ts (.unary e)) : Derives ts (.binary e)
  | binarySend {ts ts' : List Token} {receiver arg : Expr} {selector : String} {l : Nat}
      (h : Derives ts (.binary receiver)) (h' : Derives ts' (.unary arg)) :
      Derives (ts ++ ⟨.binary selector, l⟩ :: ts') (.binary (.send receiver (.mk selector [arg] l)))
  | noParts : Derives [] (.parts "" [])
  | moreParts {ts ts' : List Token} {part selector : String} {arg : Expr} {args : List Expr}
      {l : Nat} (h : Derives ts (.binary arg)) (h' : Derives ts' (.parts selector args)) :
      Derives (⟨.keyword part, l⟩ :: ts ++ ts') (.parts (part ++ selector) (arg :: args))
  | ofBinary {ts : List Token} {e : Expr} (h : Derives ts (.binary e)) : Derives ts (.keyword e)
  | keywordSend {ts ts' : List Token} {receiver : Expr} {selector : String} {args : List Expr}
      {t : Token} (h : Derives ts (.binary receiver))
      (h' : Derives (t :: ts') (.parts selector args)) :
      Derives (ts ++ t :: ts') (.keyword (.send receiver (.mk selector args t.line)))
  | unaryMessage {selector : String} {l : Nat} :
      Derives [⟨.identifier selector, l⟩] (.message (.mk selector [] l))
  | binaryMessage {ts : List Token} {arg : Expr} {selector : String} {l : Nat}
      (h : Derives ts (.unary arg)) :
      Derives (⟨.binary selector, l⟩ :: ts) (.message (.mk selector [arg] l))
  | keywordMessage {ts : List Token} {selector : String} {args : List Expr} {t : Token}
      (h : Derives (t :: ts) (.parts selector args)) :
      Derives (t :: ts) (.message (.mk selector args t.line))
  | noMessages : Derives [] (.messages [])
  | moreMessages {ts ts' : List Token} {m : Message} {ms : List Message} {l : Nat}
      (h : Derives ts (.message m)) (h' : Derives ts' (.messages ms)) :
      Derives (⟨.semicolon, l⟩ :: ts ++ ts') (.messages (m :: ms))
  -- expressions and statements
  | ofKeyword {ts : List Token} {e : Expr} (h : Derives ts (.keyword e)) :
      Derives ts (.expression e)
  | cascade {ts ts' : List Token} {receiver : Expr} {m : Message} {ms : List Message}
      (hne : ms ≠ [])
      (h : Derives ts (.keyword (.send receiver m))) (h' : Derives ts' (.messages ms)) :
      Derives (ts ++ ts') (.expression (.cascade receiver (m :: ms)))
  | assign {ts : List Token} {name : String} {value : Expr} {l l' : Nat}
      (h : Derives ts (.expression value)) :
      Derives (⟨.identifier name, l⟩ :: ⟨.assign, l'⟩ :: ts) (.expression (.assign name value l))
  | noStatements {ps : List Token} (hps : ∀ t ∈ ps, t.kind = .period) : Derives ps (.statements [])
  | answer {ps ts ps' : List Token} {value : Expr} {l : Nat} (hps : ∀ t ∈ ps, t.kind = .period)
      (h : Derives ts (.expression value)) (hps' : ∀ t ∈ ps', t.kind = .period) :
      Derives (ps ++ ⟨.caret, l⟩ :: ts ++ ps') (.statements [.answer value])
  | lastStatement {ps ts : List Token} {value : Expr} (hps : ∀ t ∈ ps, t.kind = .period)
      (h : Derives ts (.expression value)) : Derives (ps ++ ts) (.statements [.evaluate value])
  | moreStatements {ps ts ts' : List Token} {value : Expr} {body : List Statement} {l : Nat}
      (hps : ∀ t ∈ ps, t.kind = .period) (h : Derives ts (.expression value))
      (h' : Derives (⟨.period, l⟩ :: ts') (.statements body)) :
      Derives (ps ++ ts ++ ⟨.period, l⟩ :: ts') (.statements (.evaluate value :: body))

/-- A name; an operator and a name; or keywords, each with a name. -/
inductive Pattern : List Token → String → List String → Prop where
  | unary {name : String} {l : Nat} : Pattern [⟨.identifier name, l⟩] name []
  | binary {operator name : String} {l l' : Nat} :
      Pattern [⟨.binary operator, l⟩, ⟨.identifier name, l'⟩] operator [name]
  | keyword {ts : List Token} {parts : List (String × String)} (hne : parts ≠ [])
      (h : ts.map Token.kind = parts.flatMap fun part => [.keyword part.1, .identifier part.2]) :
      Pattern ts (String.join (parts.map Prod.fst)) (parts.map Prod.snd)

/-- The tokens are a method: a pattern, temporaries and statements. -/
def MethodTree.Derives (tree : MethodTree) (ts : List Token) : Prop :=
  ∃ ts₁ ts₂ ts₃, ts = ts₁ ++ ts₂ ++ ts₃ ∧ Pattern ts₁ tree.selector tree.args ∧
    Temporaries ts₂ tree.temps ∧ Smalltalk.Derives ts₃ (.statements tree.body)

/-- There are no arguments if there are no tokens. -/
theorem Derives.parts_empty {ts : List Token} {selector : String} {args : List Expr}
    (h : Derives ts (.parts selector args)) : ts = [] ↔ args.isEmpty := by
  cases h <;> simp

/-! ## No rule has an error token -/

/-- The token is an error of the lexer. -/
def Token.isError (t : Token) : Bool :=
  match t.kind with
  | .error _ => true
  | _ => false

/-- None of the tokens is an error. -/
def NoError (ts : List Token) : Prop := ∀ t ∈ ts, t.isError = false

@[simp] theorem noError_nil : NoError [] := List.forall_mem_nil _

@[simp] theorem noError_cons {t : Token} {ts : List Token} :
    NoError (t :: ts) ↔ t.isError = false ∧ NoError ts :=
  List.forall_mem_cons

@[simp] theorem noError_append {ts ts' : List Token} :
    NoError (ts ++ ts') ↔ NoError ts ∧ NoError ts' :=
  List.forall_mem_append

theorem Token.isError_eq_false {t : Token} (h : ∀ e, t.kind ≠ .error e) : t.isError = false := by
  unfold Token.isError
  split
  · rename_i e hkind
    exact absurd hkind (h e)
  · rfl

theorem noError_of_kinds {ts : List Token} {kinds : List TokenKind} (h : ts.map Token.kind = kinds)
    (hkinds : ∀ kind ∈ kinds, ∀ e, kind ≠ .error e) : NoError ts := by
  subst h
  exact fun t ht => Token.isError_eq_false (hkinds _ (List.mem_map_of_mem ht))

theorem noError_of_periods {ps : List Token} (h : ∀ t ∈ ps, t.kind = .period) : NoError ps :=
  fun t ht => Token.isError_eq_false (by simp [h t ht])

theorem noError_of_parameters {ts : List Token} {names : List String}
    (h : ts.map Token.kind = names.flatMap fun name => [.colon, .identifier name]) :
    NoError ts := by
  refine noError_of_kinds h ?_
  simp only [List.mem_flatMap, List.mem_cons, List.not_mem_nil, or_false]
  rintro kind ⟨name, -, rfl | rfl⟩ e <;> simp

theorem isError_of_scalar {t : Token} {value : Literal} (h : Parser.scalar? t.kind = some value) :
    t.isError = false :=
  Token.isError_eq_false fun e he => by simp [he, Parser.scalar?] at h

theorem isError_of_negation {t : Token} {value : Literal} (h : negation? t.kind = some value) :
    t.isError = false :=
  Token.isError_eq_false fun e he => by simp [he, negation?] at h

theorem Parameters.noError {ts : List Token} {names : List String} (h : Parameters ts names) :
    NoError ts := by
  cases h with
  | none => exact noError_nil
  | some _ h => exact noError_append.2 ⟨noError_of_parameters h, by simp [Token.isError]⟩

theorem Temporaries.noError {ts : List Token} {names : List String} (h : Temporaries ts names) :
    NoError ts := by
  cases h with
  | none => exact noError_nil
  | some h =>
    have hnames := noError_of_kinds h (by simp)
    simp [Token.isError, hnames]

theorem Pattern.noError {ts : List Token} {selector : String} {args : List String}
    (h : Pattern ts selector args) : NoError ts := by
  cases h with
  | unary => simp [Token.isError]
  | binary => simp [Token.isError]
  | keyword _ h =>
    refine noError_of_kinds h ?_
    simp only [List.mem_flatMap, List.mem_cons, List.not_mem_nil, or_false]
    rintro kind ⟨part, -, rfl | rfl⟩ e <;> simp

theorem Derives.noError {ts : List Token} {p : Phrase} (h : Derives ts p) : NoError ts := by
  induction h with
  | scalar h => simp [isError_of_scalar h]
  | scalarPrimary h => simp [isError_of_scalar (t := ⟨_, _⟩) h]
  | negative h | negativePrimary h => exact noError_cons.2 ⟨rfl, by simp [isError_of_negation h]⟩
  | selector _ h => exact noError_of_kinds h (by simp)
  | array hopening _ ih => rcases hopening with rfl | rfl <;> simp [Token.isError, ih]
  | block h₁ h₂ _ ih => simp [Token.isError, h₁.noError, h₂.noError, ih]
  | emptyBlock _ h => simp [Token.isError, noError_of_parameters h]
  | noStatements h => exact noError_of_periods h
  | answer h _ h' ih => simp [Token.isError, noError_of_periods h, noError_of_periods h', ih]
  | lastStatement h _ ih => simp [noError_of_periods h, ih]
  | moreStatements h _ _ ih ih' =>
    simp only [noError_append]
    exact ⟨⟨noError_of_periods h, ih⟩, ih'⟩
  | _ => simp_all [Token.isError]

theorem MethodTree.Derives.noError {ts : List Token} {tree : MethodTree} (h : tree.Derives ts) :
    NoError ts := by
  obtain ⟨ts₁, ts₂, ts₃, rfl, h₁, h₂, h₃⟩ := h
  simp [h₁.noError, h₂.noError, h₃.noError]

/-! ## No cascade is empty -/

mutual

/-- No cascade in the expression is empty. -/
def Expr.Proper : Expr → Prop
  | .name _ _ => True
  | .literal _ _ => True
  | .assign _ value _ => value.Proper
  | .send receiver message => receiver.Proper ∧ message.Proper
  | .cascade receiver messages => receiver.Proper ∧ messages ≠ [] ∧ ProperMessages messages
  | .block b => b.Proper
  | .primitive _ args _ => ProperExprs args

def ProperExprs : List Expr → Prop
  | [] => True
  | e :: es => e.Proper ∧ ProperExprs es

def Message.Proper : Message → Prop
  | .mk _ args _ => ProperExprs args

def ProperMessages : List Message → Prop
  | [] => True
  | m :: ms => m.Proper ∧ ProperMessages ms

def Statement.Proper : Statement → Prop
  | .evaluate e => e.Proper
  | .answer e => e.Proper

def ProperStatements : List Statement → Prop
  | [] => True
  | s :: ss => s.Proper ∧ ProperStatements ss

def Block.Proper : Block → Prop
  | .mk _ _ body _ => ProperStatements body

end

/-- No cascade in the phrase is empty. -/
def Phrase.Proper : Phrase → Prop
  | .literal _ | .literals _ => True
  | .primary e | .unary e | .binary e | .keyword e | .expression e => e.Proper
  | .parts _ args | .arguments args => ProperExprs args
  | .message m => m.Proper
  | .messages ms => ProperMessages ms
  | .statements body => ProperStatements body

/-- Rules make proper phrases of proper ones, and a cascade has a second message at least. -/
theorem Derives.proper {ts : List Token} {p : Phrase} (h : Derives ts p) : p.Proper := by
  induction h with
  | scalar | negative | word | operator | selector | array | noLiterals | moreLiterals => trivial
  | name | scalarPrimary | negativePrimary | arrayPrimary | emptyBlock => trivial
  | noArguments | noParts | unaryMessage | noMessages | noStatements => trivial
  | parenthesized _ ih | ofPrimary _ ih | ofUnary _ ih | ofBinary _ ih | ofKeyword _ ih => exact ih
  | block _ _ _ ih | primitive _ _ ih | keywordMessage _ ih | assign _ ih => exact ih
  | unarySend _ ih | binaryMessage _ ih | answer _ _ _ ih | lastStatement _ _ ih =>
    exact ⟨ih, trivial⟩
  | binarySend _ _ ih ih' => exact ⟨ih, ih', trivial⟩
  | cascade _ _ _ ih ih' => exact ⟨ih.1, List.cons_ne_nil _ _, ih.2, ih'⟩
  | moreArguments _ _ ih ih' | moreParts _ _ ih ih' | keywordSend _ _ ih ih' => exact ⟨ih, ih'⟩
  | moreMessages _ _ ih ih' | moreStatements _ _ _ ih ih' => exact ⟨ih, ih'⟩

/-! ## What the parser takes -/

namespace Parser

/-- The value that is answered, if there is one, has a property. -/
def Yields {ε α : Type} (P : α → Prop) (x : Except ε α) : Prop :=
  ∀ r, x = .ok r → P r

section Rules

variable {ε α β : Type} {P : α → Prop} {Q : β → Prop}

theorem Yields.ok {r : α} (h : P r) : Yields P (Except.ok r : Except ε α) := by
  intro r' heq
  cases heq
  exact h

theorem Yields.error (e : ε) : Yields P (Except.error e) := by
  intro r heq
  cases heq

theorem Yields.bind {x : Except ε α} {f : α → Except ε β} (hx : Yields P x)
    (hf : ∀ r, P r → Yields Q (f r)) : Yields Q (x >>= f) := by
  intro r h
  cases x with
  | error e => cases h
  | ok a => exact hf a (hx a rfl) r h

theorem Yields.fail {endLine : Nat} {ts : List Token} {cause : SyntaxCause} :
    Yields P (fail endLine ts cause) :=
  .error _

theorem Yields.unexpected {endLine : Nat} {ts : List Token} {wanted : Expectation} :
    Yields P (unexpected endLine ts wanted) := by
  unfold Parser.unexpected
  split
  · exact .fail
  · exact .fail

end Rules

/-- What the parser takes from the front of the tokens, if it succeeds, is such that its value goes
with it. -/
def Consumes {α : Type} {n : Nat} (P : List Token → α → Prop) (ts : List Token)
    (x : Except SyntaxError (Parsed α n)) : Prop :=
  Yields (fun r => ∃ taken, ts = taken ++ r.rest ∧ P taken r.value) x

section Rules

variable {α β : Type} {n m : Nat} {P : List Token → α → Prop} {Q : List Token → β → Prop}
  {t : Token} {ts : List Token}

theorem Consumes.fail {endLine : Nat} {ts' : List Token} {cause : SyntaxCause} :
    Consumes P ts (fail endLine ts' cause : Except SyntaxError (Parsed α n)) :=
  Yields.fail

theorem Consumes.unexpected {endLine : Nat} {ts' : List Token} {wanted : Expectation} :
    Consumes P ts (unexpected endLine ts' wanted : Except SyntaxError (Parsed α n)) :=
  Yields.unexpected

/-- Nothing more is taken. -/
theorem Consumes.done {value : α} {hlt : ts.length < n} (h : P [] value) :
    Consumes P ts (.ok ⟨value, ts, hlt⟩) :=
  .ok ⟨[], rfl, h⟩

/-- The first token is taken. -/
theorem Consumes.cons {x : Except SyntaxError (Parsed α n)}
    (h : Consumes (fun taken => P (t :: taken)) ts x) : Consumes P (t :: ts) x := by
  intro r hr
  obtain ⟨taken, rfl, htaken⟩ := h r hr
  exact ⟨t :: taken, rfl, htaken⟩

/-- Some tokens are taken from the front. -/
theorem Consumes.append {x : Except SyntaxError (Parsed α n)} {ts₀ rest : List Token}
    (hts : ts = ts₀ ++ rest) (h : Consumes (fun taken => P (ts₀ ++ taken)) rest x) :
    Consumes P ts x := by
  intro r hr
  obtain ⟨taken, rfl, htaken⟩ := h r hr
  exact ⟨ts₀ ++ taken, by rw [hts, List.append_assoc], htaken⟩

theorem Consumes.bind {x : Except SyntaxError (Parsed α n)}
    {f : Parsed α n → Except SyntaxError (Parsed β m)} (hx : Consumes P ts x)
    (hf : ∀ r ts₀, ts = ts₀ ++ r.rest → P ts₀ r.value →
      Consumes (fun taken => Q (ts₀ ++ taken)) r.rest (f r)) :
    Consumes Q ts (x >>= f) := by
  refine Yields.bind hx ?_
  rintro r ⟨ts₀, hts, hr⟩
  exact Consumes.append hts (hf r ts₀ hts hr)

end Rules

theorem eq_cons_of_nextKind {ts : List Token} {kind : TokenKind} (h : nextKind ts = kind)
    (hkind : kind ≠ .endOfInput) : ∃ l rest, ts = ⟨kind, l⟩ :: rest := by
  cases ts with
  | nil => exact absurd h.symm hkind
  | cons t rest => exact ⟨t.line, rest, by rw [← h]; rfl⟩

theorem dropPeriods_taken (ts : List Token) :
    ∃ ps, ts = ps ++ (dropPeriods ts).rest ∧ (∀ t ∈ ps, t.kind = .period) ∧
      nextKind (dropPeriods ts).rest ≠ .period := by
  fun_induction dropPeriods ts with
  | case1 line ts r ih =>
    obtain ⟨ps, hts, hps, hnext⟩ := ih
    exact ⟨⟨.period, line⟩ :: ps, congrArg (_ :: ·) hts, List.forall_mem_cons.2 ⟨rfl, hps⟩, hnext⟩
  | case2 ts hts =>
    refine ⟨[], rfl, List.forall_mem_nil _, fun hperiod => ?_⟩
    obtain ⟨l, rest, rfl⟩ := eq_cons_of_nextKind hperiod (by simp)
    exact hts l rest rfl

theorem names_taken (ts : List Token) :
    ∃ taken, ts = taken ++ (names ts).rest ∧
      taken.map Token.kind = (names ts).value.map .identifier := by
  fun_induction names ts with
  | case1 name line ts r ih =>
    obtain ⟨taken, hts, htaken⟩ := ih
    exact ⟨⟨.identifier name, line⟩ :: taken, congrArg (_ :: ·) hts, congrArg (_ :: ·) htaken⟩
  | case2 ts => exact ⟨[], rfl, rfl⟩

theorem keywords_taken (ts : List Token) :
    ∃ taken parts, ts = taken ++ (keywords ts).rest ∧ taken.map Token.kind = parts.map .keyword ∧
      (keywords ts).value = String.join parts := by
  fun_induction keywords ts with
  | case1 part line ts r ih =>
    obtain ⟨taken, parts, hts, htaken, hvalue⟩ := ih
    refine ⟨⟨.keyword part, line⟩ :: taken, part :: parts, congrArg (_ :: ·) hts,
      congrArg (_ :: ·) htaken, ?_⟩
    rw [String.join_cons, ← hvalue]
  | case2 ts => exact ⟨[], [], rfl, rfl, rfl⟩

theorem unaryTail_taken (receiver : Expr) (ts₀ ts : List Token)
    (h : Derives ts₀ (.unary receiver)) : ∃ taken, ts = taken ++ (unaryTail receiver ts).rest ∧
      Derives (ts₀ ++ taken) (.unary (unaryTail receiver ts).value) := by
  fun_induction unaryTail receiver ts generalizing ts₀ with
  | case1 => exact ⟨[], rfl, by rwa [List.append_nil]⟩
  | case2 receiver selector line ts _ r ih =>
    obtain ⟨taken, hts, htaken⟩ := ih _ (.unarySend h)
    refine ⟨⟨.identifier selector, line⟩ :: taken, congrArg (_ :: ·) hts, ?_⟩
    rwa [List.append_assoc] at htaken
  | case3 => exact ⟨[], rfl, by rwa [List.append_nil]⟩

theorem negated_taken {ts : List Token} {r : Parsed Literal ts.length} (h : negated? ts = some r) :
    ∃ t, ts = t :: r.rest ∧ negation? t.kind = some r.value := by
  unfold negated? at h
  split at h
  · cases h
    exact ⟨_, rfl, rfl⟩
  · cases h
    exact ⟨_, rfl, rfl⟩
  · cases h

/-- Elements of a literal array and the closing parenthesis. -/
def ClosedLiterals (ts : List Token) (items : List Literal) : Prop :=
  ∃ ts' l, ts = ts' ++ [⟨.rightParen, l⟩] ∧ Derives ts' (.literals items)

theorem ClosedLiterals.cons {ts ts' : List Token} {item : Literal} {items : List Literal}
    (h' : ClosedLiterals ts' items) (h : Derives ts (.literal item)) :
    ClosedLiterals (ts ++ ts') (item :: items) := by
  obtain ⟨more, l, rfl, hmore⟩ := h'
  exact ⟨ts ++ more, l, (List.append_assoc _ _ _).symm, .moreLiterals h hmore⟩

variable (endLine : Nat)

theorem consumes_identifier (ts : List Token) :
    Consumes (fun taken name => ∃ l, taken = [⟨.identifier name, l⟩]) ts
      (identifier endLine ts) := by
  unfold identifier
  split
  · exact .cons (.done ⟨_, rfl⟩)
  · exact .unexpected

theorem consumes_expect (kind : TokenKind) (wanted : Expectation) (ts : List Token) :
    Consumes (fun taken _ => ∃ l, taken = [⟨kind, l⟩]) ts (expect endLine kind wanted ts) := by
  unfold expect
  split
  · split
    · rename_i t rest hkind
      exact .cons (.done ⟨t.line, hkind ▸ rfl⟩)
    · exact .unexpected
  · exact .unexpected

theorem consumes_primitiveNumber (ts : List Token) :
    Consumes (fun taken number => ∃ n l, taken = [⟨.integer n, l⟩] ∧ n < 65536 ∧
      number = UInt16.ofNat n) ts (primitiveNumber endLine ts) := by
  unfold primitiveNumber
  split
  · split
    · rename_i n l rest hn
      exact .cons (.done ⟨n, l, rfl, hn, rfl⟩)
    · exact .fail
  · exact .fail

theorem consumes_temporaries (ts : List Token) :
    Consumes Temporaries ts (temporaries endLine ts) := by
  unfold temporaries
  split
  · rename_i l ts
    obtain ⟨taken, hts, htaken⟩ := names_taken ts
    refine .cons (.append hts ?_)
    refine (consumes_expect endLine _ _ _).bind ?_
    rintro r _ - ⟨l', rfl⟩
    exact .done (by simpa using Temporaries.some htaken)
  · exact .done .none

theorem consumes_parameters (ts : List Token) :
    Consumes (fun taken names => taken.map Token.kind = names.flatMap fun name =>
      [.colon, .identifier name]) ts (parameters endLine ts) := by
  fun_induction parameters endLine ts with
  | case1 l ts ih =>
    refine .cons ((consumes_identifier endLine ts).bind ?_)
    rintro ⟨name, ts', h'⟩ _ - ⟨l', rfl⟩
    refine (ih ts' h').bind fun ⟨params, rest, h⟩ taken _ htaken => .done ?_
    simpa using htaken
  | case2 ts => exact .done rfl

/-- The elements of a literal array, through the closing parenthesis. -/
theorem consumes_arrayItems (ts : List Token) :
    Consumes ClosedLiterals ts (arrayItems endLine ts) := by
  unfold arrayItems
  split
  · exact .fail
  · rename_i kind line ts
    refine .cons ?_
    dsimp only
    split
    · rename_i item hitem
      refine (consumes_arrayItems ts).bind ?_
      rintro ⟨items, rest, h⟩ taken - htaken
      refine .done ?_
      simpa using htaken.cons (.scalar (t := ⟨kind, line⟩) hitem)
    · split
      · exact .done ⟨[], line, rfl, .noLiterals⟩
      · refine (consumes_arrayItems ts).bind ?_
        rintro ⟨inner, ts', h'⟩ _ - ⟨ts₁, l, rfl, hinner⟩
        refine (consumes_arrayItems ts').bind ?_
        rintro ⟨items, rest, h⟩ taken - htaken
        refine .done ?_
        have harray : Derives (⟨.leftParen, line⟩ :: ts₁ ++ [⟨.rightParen, l⟩])
            (.literal (.array inner)) := .array (.inl rfl) hinner
        simpa using htaken.cons harray
      · refine (consumes_arrayItems ts).bind ?_
        rintro ⟨inner, ts', h'⟩ _ - ⟨ts₁, l, rfl, hinner⟩
        refine (consumes_arrayItems ts').bind ?_
        rintro ⟨items, rest, h⟩ taken - htaken
        refine .done ?_
        have harray : Derives (⟨.arrayStart, line⟩ :: ts₁ ++ [⟨.rightParen, l⟩])
            (.literal (.array inner)) := .array (.inr rfl) hinner
        simpa using htaken.cons harray
      · refine (consumes_arrayItems ts).bind ?_
        rintro ⟨items, rest, h⟩ taken - htaken
        refine .done ?_
        simpa using htaken.cons (.word (l := line))
      · rename_i part _
        obtain ⟨taken, parts, hts, htaken, hvalue⟩ := keywords_taken ts
        have hlt := (keywords ts).length_lt
        refine .append hts ?_
        refine (consumes_arrayItems _).bind ?_
        rintro ⟨items, rest, h⟩ more - hmore
        refine .done ?_
        have hselector : Derives (⟨.keyword part, line⟩ :: taken)
            (.literal (.symbol (String.join (part :: parts)))) :=
          .selector (List.cons_ne_nil _ _) (by simp [htaken])
        rw [String.join_cons, ← hvalue] at hselector
        simpa using hmore.cons hselector
      · rename_i operator _ _
        split
        · rename_i item ts' h' hnegated
          split at hnegated
          · rename_i hminus
            obtain ⟨t, hts, ht⟩ := negated_taken hnegated
            subst hminus
            refine Consumes.append (show ts = [t] ++ ts' from hts) ?_
            refine (consumes_arrayItems ts').bind ?_
            rintro ⟨items, rest, h⟩ taken - htaken
            refine .done ?_
            simpa using htaken.cons (.negative (l := line) ht)
          · cases hnegated
        · refine (consumes_arrayItems ts).bind ?_
          rintro ⟨items, rest, h⟩ taken - htaken
          refine .done ?_
          simpa using htaken.cons (.operator (l := line))
      · exact .fail
      · exact .fail
termination_by ts.length
decreasing_by
  all_goals
    subst_vars
    simp only [List.length_cons]
    omega


/-- The bar behind the parameters of a block is there, unless there are none or the block ends. -/
theorem consumes_parameterBar (params : List String) (ts : List Token) :
    Consumes (fun taken _ => taken = [] ∧ (params = [] ∨ nextKind ts = .rightBracket) ∨
      params ≠ [] ∧ ∃ l, taken = [⟨.binary "|", l⟩]) ts (parameterBar endLine params ts) := by
  unfold parameterBar
  split
  · rename_i hparams
    exact .done (.inl ⟨rfl, .inl (List.isEmpty_iff.1 hparams)⟩)
  · rename_i hparams
    split
    · exact .cons (.done (.inr ⟨fun h => hparams (List.isEmpty_iff.2 h), _, rfl⟩))
    · exact .done (.inl ⟨rfl, .inr rfl⟩)
    · exact .unexpected

/-- Statements that are taken from the front of tokens: they start with a period if the tokens do,
and there are none if the tokens end or a bracket closes. -/
def TakenStatements (ts taken : List Token) (body : List Statement) : Prop :=
  Derives taken (.statements body) ∧ (nextKind ts = .period → nextKind taken = .period) ∧
    (nextKind ts = .endOfInput ∨ nextKind ts = .rightBracket → taken = [] ∧ body = [])

mutual

theorem consumes_expression (ts : List Token) :
    Consumes (fun taken e => Derives taken (.expression e)) ts (expression endLine ts) := by
  unfold expression
  split
  · rename_i name line l ts
    refine .cons (.cons ((consumes_expression ts).bind fun r taken _ htaken => .done ?_))
    rw [List.append_nil]
    exact .assign htaken
  · exact consumes_cascade ts
termination_by ts.length * 8 + 6

theorem consumes_cascade (ts : List Token) :
    Consumes (fun taken e => Derives taken (.expression e)) ts (cascade endLine ts) := by
  unfold cascade
  refine (consumes_keywordExpression ts).bind fun ⟨first, ts', h'⟩ taken _ htaken => ?_
  dsimp only
  split
  · rename_i hsemicolon
    split
    · rename_i receiver message
      refine (consumes_cascadeTail ts').bind fun ⟨messages, rest, h⟩ more _ hmore => .done ?_
      rw [List.append_nil]
      exact .cascade (hmore.2 hsemicolon) htaken hmore.1
    · exact .fail
  · exact .done (by rw [List.append_nil]; exact .ofKeyword htaken)
termination_by ts.length * 8 + 5

theorem consumes_cascadeTail (ts : List Token) :
    Consumes (fun taken ms => Derives taken (.messages ms) ∧ (nextKind ts = .semicolon → ms ≠ []))
      ts (cascadeTail endLine ts) := by
  unfold cascadeTail
  split
  · rename_i line ts
    refine .cons ((consumes_cascadeMessage ts).bind fun ⟨message, ts', h'⟩ taken _ htaken => ?_)
    refine (consumes_cascadeTail ts').bind fun ⟨messages, rest, h⟩ more _ hmore => .done ?_
    rw [List.append_nil]
    exact ⟨.moreMessages htaken hmore.1, fun _ => List.cons_ne_nil _ _⟩
  · rename_i hts
    refine .done ⟨.noMessages, fun hsemicolon => ?_⟩
    obtain ⟨l, rest, rfl⟩ := eq_cons_of_nextKind hsemicolon (by simp)
    exact absurd rfl (hts l rest)
termination_by ts.length * 8

theorem consumes_cascadeMessage (ts : List Token) :
    Consumes (fun taken m => Derives taken (.message m)) ts (cascadeMessage endLine ts) := by
  unfold cascadeMessage
  split
  · exact .cons (.done .unaryMessage)
  · rename_i selector line ts
    refine .cons ((consumes_unaryExpression ts).bind fun ⟨arg, rest, h⟩ taken _ htaken => .done ?_)
    rw [List.append_nil]
    exact .binaryMessage htaken
  · rename_i part line ts
    refine (consumes_keywordTail (⟨.keyword part, line⟩ :: ts)).bind
      fun ⟨(selector, args), rest, h⟩ taken hts hargs => .done ?_
    obtain ⟨t, more, rfl⟩ := List.exists_cons_of_ne_nil (hargs.2 part rfl)
    obtain rfl : ⟨.keyword part, line⟩ = t := (List.cons.inj hts).1
    rw [List.append_nil]
    exact .keywordMessage hargs.1
  · exact .unexpected
termination_by ts.length * 8 + 1

theorem consumes_keywordTail (ts : List Token) :
    Consumes (fun taken v => Derives taken (.parts v.1 v.2) ∧
      ∀ part, nextKind ts = .keyword part → taken ≠ []) ts (keywordTail endLine ts) := by
  unfold keywordTail
  split
  · rename_i part line ts
    refine .cons ((consumes_binaryExpression ts).bind fun ⟨arg, ts', h'⟩ taken _ htaken => ?_)
    refine (consumes_keywordTail ts').bind fun ⟨(parts, args), rest, h⟩ more _ hmore => .done ?_
    rw [List.append_nil]
    exact ⟨.moreParts htaken hmore.1, fun _ _ => List.cons_ne_nil _ _⟩
  · rename_i hts
    refine .done ⟨.noParts, fun part hkeyword => ?_⟩
    obtain ⟨l, rest, rfl⟩ := eq_cons_of_nextKind hkeyword (by simp)
    exact absurd rfl (hts part l rest)
termination_by ts.length * 8
decreasing_by all_goals subst_vars; simp only [List.length_cons]; omega

theorem consumes_keywordExpression (ts : List Token) :
    Consumes (fun taken e => Derives taken (.keyword e)) ts (keywordExpression endLine ts) := by
  unfold keywordExpression
  refine (consumes_binaryExpression ts).bind fun ⟨receiver, ts', h'⟩ taken _ htaken => ?_
  refine (consumes_keywordTail ts').bind fun ⟨(selector, args), rest, h⟩ more hts' hmore => ?_
  dsimp only
  split
  · rename_i hargs
    obtain rfl := hmore.1.parts_empty.2 hargs
    exact .done (by simpa using Derives.ofBinary htaken)
  · rename_i hargs
    obtain ⟨t, more, rfl⟩ := List.exists_cons_of_ne_nil (mt hmore.1.parts_empty.1 hargs)
    have hline : nextLine endLine ts' = t.line := by rw [hts']; rfl
    refine .done ?_
    rw [List.append_nil, hline]
    exact .keywordSend htaken hmore.1
termination_by ts.length * 8 + 4

theorem consumes_binaryExpression (ts : List Token) :
    Consumes (fun taken e => Derives taken (.binary e)) ts (binaryExpression endLine ts) := by
  unfold binaryExpression
  refine (consumes_unaryExpression ts).bind fun ⟨receiver, ts', h'⟩ taken _ htaken => ?_
  refine (consumes_binaryTail receiver taken (.ofUnary htaken) ts').bind
    fun ⟨value, rest, h⟩ more _ hmore => .done ?_
  rwa [List.append_nil]
termination_by ts.length * 8 + 3

theorem consumes_binaryTail (receiver : Expr) (ts₀ : List Token)
    (h₀ : Derives ts₀ (.binary receiver)) (ts : List Token) :
    Consumes (fun taken e => Derives (ts₀ ++ taken) (.binary e)) ts
      (binaryTail endLine receiver ts) := by
  unfold binaryTail
  split
  · rename_i selector line ts
    refine .cons ((consumes_unaryExpression ts).bind fun ⟨arg, ts', h'⟩ taken _ htaken => ?_)
    have hsend : Derives (ts₀ ++ ⟨.binary selector, line⟩ :: taken)
        (.binary (.send receiver (.mk selector [arg] line))) := .binarySend h₀ htaken
    refine (consumes_binaryTail _ _ hsend ts').bind fun ⟨value, rest, h⟩ more _ hmore => .done ?_
    simpa using hmore
  · exact .done (by rwa [List.append_nil])
termination_by ts.length * 8
decreasing_by all_goals subst_vars; simp only [List.length_cons]; omega

theorem consumes_unaryExpression (ts : List Token) :
    Consumes (fun taken e => Derives taken (.unary e)) ts (unaryExpression endLine ts) := by
  unfold unaryExpression
  refine (consumes_primary ts).bind fun ⟨receiver, ts', h'⟩ taken _ htaken => ?_
  obtain ⟨more, hts', hmore⟩ := unaryTail_taken receiver taken ts' (.ofPrimary htaken)
  refine .append hts' (.done ?_)
  rwa [List.append_nil]
termination_by ts.length * 8 + 2

theorem consumes_primary (ts : List Token) :
    Consumes (fun taken e => Derives taken (.primary e)) ts (primary endLine ts) := by
  unfold primary
  split
  · exact .unexpected
  · rename_i kind line ts
    refine .cons ?_
    split
    · exact .done .name
    · refine (consumes_expression ts).bind fun ⟨inner, ts', h'⟩ taken _ htaken => ?_
      refine (consumes_expect endLine _ _ ts').bind ?_
      rintro ⟨_, rest, h⟩ _ - ⟨l, rfl⟩
      exact .done (by simpa using Derives.parenthesized htaken)
    · refine (consumes_block line ts).bind fun ⟨block, rest, h⟩ taken _ htaken => .done ?_
      rwa [List.append_nil]
    · refine (consumes_primitiveNumber endLine ts).bind ?_
      rintro ⟨number, ts', h'⟩ _ - ⟨n, l, rfl, hn, rfl⟩
      refine (consumes_primitiveArguments ts').bind ?_
      rintro ⟨args, rest, h⟩ _ - ⟨taken, l', rfl, htaken⟩
      exact .done (by simpa using Derives.primitive hn htaken)
    · split
      · rename_i value rest h hnegated
        obtain ⟨t, hts, ht⟩ := negated_taken hnegated
        exact .append (show ts = [t] ++ rest from hts) (.done (.negativePrimary ht))
      · exact .fail
    · refine (consumes_arrayItems endLine ts).bind ?_
      rintro ⟨items, rest, h⟩ _ - ⟨ts', l, rfl, hitems⟩
      exact .done (by simpa using Derives.arrayPrimary hitems)
    · split
      · rename_i value hvalue
        exact .done (.scalarPrimary hvalue)
      · exact .unexpected
termination_by ts.length * 8 + 1
decreasing_by all_goals subst_vars; simp only [List.length_cons]; omega

theorem consumes_primitiveArguments (ts : List Token) :
    Consumes (fun taken args => ∃ ts' l, taken = ts' ++ [⟨.binary ">", l⟩] ∧
      Derives ts' (.arguments args)) ts (primitiveArguments endLine ts) := by
  unfold primitiveArguments
  split
  · exact .unexpected
  · exact .cons (.done ⟨[], _, rfl, .noArguments⟩)
  · refine (consumes_primary ts).bind fun ⟨arg, ts', h'⟩ taken _ htaken => ?_
    refine (consumes_primitiveArguments ts').bind ?_
    rintro ⟨args, rest, h⟩ _ - ⟨more, l, rfl, hmore⟩
    exact .done ⟨taken ++ more, l, by simp, .moreArguments htaken hmore⟩
termination_by ts.length * 8 + 2

theorem consumes_block (line : Nat) (ts : List Token) :
    Consumes (fun taken b => Derives (⟨.leftBracket, line⟩ :: taken) (.primary (.block b))) ts
      (block endLine line ts) := by
  unfold block
  refine (consumes_parameters endLine ts).bind fun ⟨params, ts₁, h₁⟩ taken₁ _ hparams => ?_
  refine (consumes_parameterBar endLine params ts₁).bind fun ⟨_, ts₂, h₂⟩ bar hts₁ hbar => ?_
  refine (consumes_temporaries endLine ts₂).bind fun ⟨temps, ts₃, h₃⟩ taken₂ hts₂ htemps => ?_
  refine (consumes_statements ts₃).bind fun ⟨body, ts₄, h₄⟩ taken₃ _ hbody => ?_
  refine (consumes_expect endLine _ _ ts₄).bind ?_
  rintro ⟨_, rest, h⟩ _ - ⟨l, rfl⟩
  refine .done ?_
  rcases hbar with ⟨rfl, hclosed⟩ | ⟨hparams', l', rfl⟩
  · by_cases hparams' : params = []
    · subst hparams'
      obtain rfl : taken₁ = [] := List.map_eq_nil_iff.1 hparams
      have hblock : Derives (⟨.leftBracket, line⟩ :: ([] ++ taken₂ ++ taken₃) ++
          [⟨.rightBracket, l⟩])
          (.primary (.block (.mk [] temps body line))) := .block .none htemps hbody.1
      simpa using hblock
    · -- the bracket follows the parameters, so there are no temporaries and no statements
      obtain rfl : ts₁ = ts₂ := hts₁
      have hclosed := hclosed.resolve_left hparams'
      obtain ⟨rfl, rfl⟩ : taken₂ = [] ∧ temps = [] := by
        cases htemps with
        | none => exact ⟨rfl, rfl⟩
        | some _ => rw [hts₂] at hclosed; cases hclosed
      obtain rfl : ts₁ = ts₃ := hts₂
      obtain ⟨rfl, rfl⟩ := hbody.2.2 (.inr hclosed)
      have hblock : Derives (⟨.leftBracket, line⟩ :: taken₁ ++ [⟨.rightBracket, l⟩])
          (.primary (.block (.mk params [] [] line))) := .emptyBlock hparams' hparams
      simpa using hblock
  · have hbarred : Parameters (taken₁ ++ [⟨.binary "|", l'⟩]) params := .some hparams' hparams
    have hblock : Derives (⟨.leftBracket, line⟩ ::
        (taken₁ ++ [⟨.binary "|", l'⟩] ++ taken₂ ++ taken₃) ++
        [⟨.rightBracket, l⟩]) (.primary (.block (.mk params temps body line))) :=
      .block hbarred htemps hbody.1
    simpa using hblock
termination_by ts.length * 8 + 8

theorem consumes_statements (ts : List Token) :
    Consumes (TakenStatements ts) ts (statements endLine ts) := by
  unfold statements
  obtain ⟨ps, hts, hps, hnext⟩ := dropPeriods_taken ts
  refine .append hts ?_
  generalize dropPeriods ts = dropped at hts hnext
  obtain ⟨_, ts₁, h₁⟩ := dropped
  dsimp only at hts hnext ⊢
  have hstart : ps = [] ∧ ts = ts₁ ∨ nextKind ts = .period ∧ ∀ taken,
      nextKind (ps ++ taken) = .period := by
    subst hts
    cases ps with
    | nil => exact .inl ⟨rfl, rfl⟩
    | cons t ps =>
      obtain ⟨ht, -⟩ := List.forall_mem_cons.1 hps
      exact .inr ⟨ht, fun _ => ht⟩
  have hperiod : nextKind ts = .period → ∀ taken, nextKind (ps ++ taken) = .period := by
    rcases hstart with ⟨-, rfl⟩ | ⟨-, h⟩
    · exact fun h => absurd h hnext
    · exact fun _ => h
  have hclosed : nextKind ts = .endOfInput ∨ nextKind ts = .rightBracket → ps = [] ∧ ts = ts₁ := by
    rcases hstart with h | ⟨h, -⟩
    · exact fun _ => h
    · rw [h]
      rintro (h | h) <;> cases h
  split
  · exact .done ⟨by simpa using .noStatements hps, fun h => hperiod h [],
      fun h => ⟨by simp [(hclosed h).1], rfl⟩⟩
  · exact .done ⟨by simpa using .noStatements hps, fun h => hperiod h [],
      fun h => ⟨by simp [(hclosed h).1], rfl⟩⟩
  · rename_i hcaret
    obtain ⟨l, ts₁, rfl⟩ := eq_cons_of_nextKind hcaret (by simp)
    refine .cons ((consumes_expression ts₁).bind fun ⟨value, ts₂, h₂⟩ taken _ htaken => ?_)
    obtain ⟨ps', hts₂, hps', -⟩ := dropPeriods_taken ts₂
    refine .append hts₂ ?_
    dsimp only
    have hdone : TakenStatements ts (ps ++ ⟨.caret, l⟩ :: (taken ++ (ps' ++ [])))
        [.answer value] := by
      refine ⟨by simpa using Derives.answer hps htaken hps', fun h => hperiod h _, fun h => ?_⟩
      obtain ⟨-, rfl⟩ := hclosed h
      rcases h with h | h <;> cases h
    split
    · exact .done hdone
    · exact .done hdone
    · exact .fail
  · rename_i hinput hbracket _
    have hopen : ¬(nextKind ts = .endOfInput ∨ nextKind ts = .rightBracket) := by
      intro h
      obtain ⟨-, rfl⟩ := hclosed h
      exact h.elim hinput hbracket
    refine (consumes_expression ts₁).bind fun ⟨value, ts₂, h₂⟩ taken _ htaken => ?_
    dsimp only
    have hlast {more : List Token} {body : List Statement}
        (h : nextKind ts₂ = .endOfInput ∨ nextKind ts₂ = .rightBracket)
        (hmore : TakenStatements ts₂ more body) :
        TakenStatements ts (ps ++ (taken ++ (more ++ []))) (.evaluate value :: body) := by
      obtain ⟨rfl, rfl⟩ := hmore.2.2 h
      exact ⟨by simpa using Derives.lastStatement hps htaken, fun h => hperiod h _,
        fun h => absurd h hopen⟩
    split
    · rename_i hnext₂
      refine (consumes_statements ts₂).bind fun ⟨body, rest, h⟩ more _ hmore => .done ?_
      obtain ⟨l, more, rfl⟩ := eq_cons_of_nextKind (hmore.2.1 hnext₂) (by simp)
      exact ⟨by simpa using Derives.moreStatements hps htaken hmore.1, fun h => hperiod h _,
        fun h => absurd h hopen⟩
    · rename_i hnext₂
      exact (consumes_statements ts₂).bind fun ⟨body, rest, h⟩ more _ hmore =>
        .done (hlast (.inl hnext₂) hmore)
    · rename_i hnext₂
      exact (consumes_statements ts₂).bind fun ⟨body, rest, h⟩ more _ hmore =>
        .done (hlast (.inr hnext₂) hmore)
    · exact .unexpected
termination_by ts.length * 8 + 7

end

theorem consumes_keywordPattern (ts : List Token) :
    Consumes (fun taken v => ∃ parts : List (String × String),
        taken.map Token.kind = parts.flatMap (fun part => [.keyword part.1, .identifier part.2]) ∧
        v = (String.join (parts.map Prod.fst), parts.map Prod.snd) ∧
        ((∃ part, nextKind ts = .keyword part) → parts ≠ []))
      ts (keywordPattern endLine ts) := by
  fun_induction keywordPattern endLine ts with
  | case1 part line ts ih =>
    refine .cons ((consumes_identifier endLine ts).bind ?_)
    rintro ⟨arg, ts', h'⟩ _ - ⟨l, rfl⟩
    refine (ih ts' h').bind ?_
    rintro ⟨_, rest, h⟩ more - ⟨parts, hmore, rfl, -⟩
    exact .done ⟨(part, arg) :: parts, by simp [hmore], by simp [String.join_cons],
      fun _ => List.cons_ne_nil _ _⟩
  | case2 ts hts =>
    refine .done ⟨[], rfl, rfl, ?_⟩
    rintro ⟨part, hpart⟩
    obtain ⟨l, rest, rfl⟩ := eq_cons_of_nextKind hpart (by simp)
    exact absurd rfl (hts part l rest)

theorem consumes_pattern (ts : List Token) :
    Consumes (fun taken v => Pattern taken v.1 v.2) ts (pattern endLine ts) := by
  unfold pattern
  split
  · exact .cons (.done .unary)
  · rename_i operator line ts
    refine .cons ((consumes_identifier endLine ts).bind ?_)
    rintro ⟨arg, rest, h⟩ _ - ⟨l, rfl⟩
    exact .done .binary
  · rename_i part line ts
    intro r hr
    obtain ⟨taken, hts, parts, htaken, hvalue, hne⟩ := consumes_keywordPattern endLine _ r hr
    refine ⟨taken, hts, ?_⟩
    rw [hvalue]
    exact .keyword (hne ⟨part, rfl⟩) htaken
  · exact .unexpected

/-- The parser follows the grammar: a method is all there is before the end of input. -/
theorem consumes_method (ts : List Token) :
    Yields (fun tree => ∃ taken rest, ts = taken ++ rest ∧ tree.Derives taken ∧
      nextKind rest = .endOfInput) (method endLine ts) := by
  unfold method
  refine Yields.bind (consumes_pattern endLine ts) ?_
  rintro ⟨⟨selector, args⟩, ts₁, h₁⟩ ⟨taken₁, hts, hpattern⟩
  refine Yields.bind (consumes_temporaries endLine ts₁) ?_
  rintro ⟨temps, ts₂, h₂⟩ ⟨taken₂, hts₁, htemps⟩
  refine Yields.bind (consumes_statements endLine ts₂) ?_
  rintro ⟨body, ts₃, h₃⟩ ⟨taken₃, hts₂, hbody⟩
  dsimp only at hts hts₁ hts₂ ⊢
  split
  · rename_i hend
    refine .ok ⟨taken₁ ++ taken₂ ++ taken₃, ts₃, ?_, ?_, hend⟩
    · rw [hts, hts₁, hts₂, List.append_assoc, List.append_assoc]
    · exact ⟨taken₁, taken₂, taken₃, rfl, hpattern, htemps, hbody.1⟩
  · exact .unexpected

end Parser

/-! ## Sources -/

/-- A source that is read is a method as a whole. -/
theorem MethodTree.derives_of_ofSource {source : List UInt8} {tree : MethodTree}
    (h : MethodTree.ofSource source = .ok tree) :
    ∃ ts last, tokenize source = ts ++ [last] ∧ last.kind = .endOfInput ∧ tree.Derives ts := by
  obtain ⟨ts, last, htokens, hlast, hts⟩ := tokens_eq_append ⟨source, 1⟩
  rw [MethodTree.ofSource, MethodTree.ofTokens, tokenize, htokens, List.dropLast_concat] at h
  obtain ⟨taken, rest, rfl, htree, hrest⟩ := Parser.consumes_method _ _ tree h
  obtain rfl : rest = [] := by
    cases rest with
    | nil => rfl
    | cons t rest => exact absurd hrest (hts t (by simp))
  exact ⟨taken, last, by rw [tokenize, htokens, List.append_nil], hlast, htree⟩

/-- **The parser makes proper trees.** -/
theorem MethodTree.proper_ofSource {source : List UInt8} {tree : MethodTree}
    (h : MethodTree.ofSource source = .ok tree) : ProperStatements tree.body := by
  obtain ⟨_, _, -, -, _, _, _, -, -, -, hbody⟩ := MethodTree.derives_of_ofSource h
  exact hbody.proper

/-- Errors of the lexer are never swallowed. A source with an error token anywhere is not read. If a
source is read, then all its tokens before the end of input, in their order, derive the tree. And
parsing comes to an end on all tokens, with a tree that tokens from their front derive or with an
error. -/
theorem lexical_errors_surface (source : List UInt8) :
    ((∃ t ∈ tokenize source, ∃ e, t.kind = .error e) →
      ∃ error, MethodTree.ofSource source = .error error) ∧
    (∀ tree, MethodTree.ofSource source = .ok tree →
      ∃ ts last, tokenize source = ts ++ [last] ∧ last.kind = .endOfInput ∧ tree.Derives ts) ∧
    ∀ endLine ts,
      (∃ tree taken rest, Parser.method endLine ts = .ok tree ∧ ts = taken ++ rest ∧
        tree.Derives taken ∧ Parser.nextKind rest = .endOfInput) ∨
      ∃ error, Parser.method endLine ts = .error error := by
  refine ⟨?_, fun tree => MethodTree.derives_of_ofSource, ?_⟩
  · rintro ⟨t, ht, e, hkind⟩
    cases hsource : MethodTree.ofSource source with
    | error error => exact ⟨error, rfl⟩
    | ok tree =>
      obtain ⟨ts, last, htokens, hlast, htree⟩ := MethodTree.derives_of_ofSource hsource
      rw [htokens] at ht
      rcases List.mem_append.1 ht with ht | ht
      · have herror := htree.noError t ht
        rw [Token.isError, hkind] at herror
        cases herror
      · rw [List.mem_singleton.1 ht, hlast] at hkind
        cases hkind
  · intro endLine ts
    cases hmethod : Parser.method endLine ts with
    | error error => exact .inr ⟨error, rfl⟩
    | ok tree =>
      obtain ⟨taken, rest, hts, htree, hrest⟩ := Parser.consumes_method endLine ts tree hmethod
      exact .inl ⟨tree, taken, rest, rfl, hts, htree, hrest⟩

end Smalltalk
