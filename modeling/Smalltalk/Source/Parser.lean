import Smalltalk.Source.Error
import Smalltalk.Source.Lexer
import Smalltalk.Source.Tree

/-!
# From tokens to trees

The grammar, in which messages bind in the order unary, binary, keyword:

* method: pattern, temporaries, statements
* pattern: a name; an operator and a name; or keywords, each with a name
* temporaries: names between two bars, or nothing
* statements: expressions separated by periods; one that is answered, after a caret, is the last
* expression: a name, the sign of assignment and an expression; or a cascade
* cascade: a keyword message, and more messages to its receiver after semicolons
* primary: a name, a literal, an expression in parentheses, a block, or a primitive in angle
  brackets

A parser takes the tokens that are left and answers what it read with the tokens behind it. That
there are fewer of them is part of the answer, `Parsed`, and so every loop and every recursion ends.
The end of input is no token here: it is the empty list, and only its line is handed along.

An error names the line of the first token that was not taken.

## Main definitions

* `Parsed`: what was read and what is left
* `MethodTree.ofTokens`, `MethodTree.ofSource`: the tree of a method
-/

namespace Smalltalk

/-- What was read, and the tokens that are left, of which there are fewer than `bound`. -/
structure Parsed (α : Type) (bound : Nat) where
  value : α
  rest : List Token
  length_lt : rest.length < bound

namespace Parser

/-- The kind of the next token. -/
def nextKind : List Token → TokenKind
  | [] => .endOfInput
  | t :: _ => t.kind

/-- The periods that may stand between and behind statements are dropped. -/
def dropPeriods : (ts : List Token) → Parsed Unit (ts.length + 1)
  | ⟨.period, _⟩ :: ts =>
    let r := dropPeriods ts
    ⟨(), r.rest, Nat.lt_succ_of_lt r.length_lt⟩
  | ts => ⟨(), ts, Nat.lt_succ_self _⟩

/-- The literal that a single token is, if it is one. -/
def scalar? : TokenKind → Option Literal
  | .integer n => some (.integer n)
  | .float x => some (.float x)
  | .character b => some (.character b)
  | .string s => some (.string s)
  | .symbol s => some (.symbol s)
  | _ => none

/-- A number behind a minus sign. -/
def negated? : (ts : List Token) → Option (Parsed Literal ts.length)
  | ⟨.integer n, _⟩ :: rest => some ⟨.integer (-n), rest, Nat.lt_succ_self _⟩
  | ⟨.float x, _⟩ :: rest => some ⟨.float x.negate, rest, Nat.lt_succ_self _⟩
  | _ => none

/-- The literal that a bare word is inside a literal array. -/
def wordLiteral (name : String) : Literal :=
  if name = "nil" then .nil
  else if name = "true" then .true
  else if name = "false" then .false
  else .symbol name

/-- Keywords in a row, put together. -/
def keywords : (ts : List Token) → Parsed String (ts.length + 1)
  | ⟨.keyword part, _⟩ :: ts =>
    let r := keywords ts
    ⟨part ++ r.value, r.rest, Nat.lt_succ_of_lt r.length_lt⟩
  | ts => ⟨"", ts, Nat.lt_succ_self _⟩

/-- Unary messages to a receiver. A name in front of the sign of assignment is none. -/
def unaryTail (receiver : Expr) : (ts : List Token) → Parsed Expr (ts.length + 1)
  | ⟨.identifier selector, line⟩ :: ts =>
    if nextKind ts = .assign then ⟨receiver, ⟨.identifier selector, line⟩ :: ts, Nat.lt_succ_self _⟩
    else
      let r := unaryTail (.send receiver (.mk selector [] line)) ts
      ⟨r.value, r.rest, Nat.lt_succ_of_lt r.length_lt⟩
  | ts => ⟨receiver, ts, Nat.lt_succ_self _⟩

/-- Names in a row. -/
def names : (ts : List Token) → Parsed (List String) (ts.length + 1)
  | ⟨.identifier name, _⟩ :: ts =>
    let r := names ts
    ⟨name :: r.value, r.rest, Nat.lt_succ_of_lt r.length_lt⟩
  | ts => ⟨[], ts, Nat.lt_succ_self _⟩

section

/- The line on which the source ends. -/
variable (endLine : Nat)

/-- The line of the next token. -/
def nextLine : List Token → Nat
  | [] => endLine
  | t :: _ => t.line

/-- An error at the next token. -/
def fail {α : Type} (ts : List Token) (cause : SyntaxCause) : Except SyntaxError α :=
  .error ⟨nextLine endLine ts, cause⟩

/-- The error that something else was wanted. A token that is itself an error is reported as such.
-/
def unexpected {α : Type} (ts : List Token) (wanted : Expectation) : Except SyntaxError α :=
  match nextKind ts with
  | .error e => fail endLine ts (.lexical e)
  | found => fail endLine ts (.expected wanted found)

/-- A name. -/
def identifier (ts : List Token) : Except SyntaxError (Parsed String ts.length) :=
  match ts with
  | ⟨.identifier name, _⟩ :: rest => return ⟨name, rest, Nat.lt_succ_self _⟩
  | ts => unexpected endLine ts .identifier

/-- A token of a certain kind. -/
def expect (kind : TokenKind) (wanted : Expectation) (ts : List Token) :
    Except SyntaxError (Parsed Unit ts.length) :=
  match ts with
  | t :: rest =>
    if t.kind = kind then return ⟨(), rest, Nat.lt_succ_self _⟩
    else unexpected endLine (t :: rest) wanted
  | [] => unexpected endLine [] wanted

/-- The number of a primitive. Its error is found once the token is taken. -/
def primitiveNumber (ts : List Token) : Except SyntaxError (Parsed UInt16 ts.length) :=
  match ts with
  | ⟨.integer n, _⟩ :: rest =>
    if n < 65536 then return ⟨UInt16.ofNat n, rest, Nat.lt_succ_self _⟩
    else fail endLine rest .primitiveNumberTooLarge
  | ts => fail endLine ts.tail .primitiveNumberMissing

/-- The elements of a literal array behind its opening parenthesis, through the closing one. -/
def arrayItems (ts : List Token) : Except SyntaxError (Parsed (List Literal) ts.length) :=
  match ts with
  | [] => fail endLine [] .unterminatedArray
  | ⟨kind, _⟩ :: ts => do
    match scalar? kind with
    | some item =>
      let ⟨items, rest, h⟩ ← arrayItems ts
      return ⟨item :: items, rest, Nat.lt_succ_of_lt h⟩
    | none =>
      match kind with
      | .rightParen => return ⟨[], ts, Nat.lt_succ_self _⟩
      | .leftParen | .arrayStart =>
        let ⟨inner, ts', h'⟩ ← arrayItems ts
        let ⟨items, rest, h⟩ ← arrayItems ts'
        return ⟨.array inner :: items, rest, by simp only [List.length_cons]; omega⟩
      | .identifier name =>
        let ⟨items, rest, h⟩ ← arrayItems ts
        return ⟨wordLiteral name :: items, rest, Nat.lt_succ_of_lt h⟩
      | .keyword part =>
        let ⟨parts, ts', h'⟩ := keywords ts
        let ⟨items, rest, h⟩ ← arrayItems ts'
        return ⟨.symbol (part ++ parts) :: items, rest, by simp only [List.length_cons]; omega⟩
      | .binary operator =>
        match if operator = "-" then negated? ts else none with
        | some ⟨item, ts', h'⟩ =>
          let ⟨items, rest, h⟩ ← arrayItems ts'
          return ⟨item :: items, rest, by simp only [List.length_cons]; omega⟩
        | none =>
          let ⟨items, rest, h⟩ ← arrayItems ts
          return ⟨.symbol operator :: items, rest, Nat.lt_succ_of_lt h⟩
      | .error e => fail endLine ts (.lexical e)
      | found => fail endLine ts (.unexpectedInArray found)
termination_by ts.length

/-- Temporaries between bars. -/
def temporaries (ts : List Token) : Except SyntaxError (Parsed (List String) (ts.length + 1)) :=
  match ts with
  | ⟨.binary "|", _⟩ :: ts => do
    let ⟨temps, ts', h'⟩ := names ts
    let ⟨_, rest, h⟩ ← expect endLine (.binary "|") .barClosingTemporaries ts'
    return ⟨temps, rest, by simp only [List.length_cons]; omega⟩
  | ts => return ⟨[], ts, Nat.lt_succ_self _⟩

/-- The parameters of a block, each behind a colon. -/
def parameters (ts : List Token) : Except SyntaxError (Parsed (List String) (ts.length + 1)) :=
  match ts with
  | ⟨.colon, _⟩ :: ts => do
    let ⟨name, ts', h'⟩ ← identifier endLine ts
    let ⟨params, rest, h⟩ ← parameters ts'
    return ⟨name :: params, rest, by simp only [List.length_cons]; omega⟩
  | ts => return ⟨[], ts, Nat.lt_succ_self _⟩
termination_by ts.length

/-- The bar behind the parameters of a block, which a block without statements may leave out. -/
def parameterBar (params : List String) (ts : List Token) :
    Except SyntaxError (Parsed Unit (ts.length + 1)) :=
  if params.isEmpty then return ⟨(), ts, Nat.lt_succ_self _⟩
  else
    match ts with
    | ⟨.binary "|", _⟩ :: rest => return ⟨(), rest, Nat.lt_succ_of_lt (Nat.lt_succ_self _)⟩
    | ⟨.rightBracket, line⟩ :: rest =>
      return ⟨(), ⟨.rightBracket, line⟩ :: rest, Nat.lt_succ_self _⟩
    | ts => unexpected endLine ts .barAfterParameters

mutual

/-- An assignment or a cascade. -/
def expression (ts : List Token) : Except SyntaxError (Parsed Expr ts.length) :=
  match ts with
  | ⟨.identifier name, line⟩ :: ⟨.assign, _⟩ :: ts => do
    let ⟨value, rest, h⟩ ← expression ts
    return ⟨.assign name value line, rest, Nat.lt_succ_of_lt (Nat.lt_succ_of_lt h)⟩
  | ts => cascade ts
termination_by ts.length * 8 + 6

/-- A keyword expression and, if it is a message, more messages to the same receiver. -/
def cascade (ts : List Token) : Except SyntaxError (Parsed Expr ts.length) := do
  let ⟨first, ts', h'⟩ ← keywordExpression ts
  if nextKind ts' = .semicolon then
    match first with
    | .send receiver message =>
      let ⟨messages, rest, h⟩ ← cascadeTail ts'
      return ⟨.cascade receiver (message :: messages), rest, by omega⟩
    | _ => fail endLine ts' .cascadeWithoutMessage
  else return ⟨first, ts', h'⟩
termination_by ts.length * 8 + 5

/-- Messages behind semicolons. -/
def cascadeTail (ts : List Token) : Except SyntaxError (Parsed (List Message) (ts.length + 1)) :=
  match ts with
  | ⟨.semicolon, _⟩ :: ts => do
    let ⟨message, ts', h'⟩ ← cascadeMessage ts
    let ⟨messages, rest, h⟩ ← cascadeTail ts'
    return ⟨message :: messages, rest, by simp only [List.length_cons]; omega⟩
  | ts => return ⟨[], ts, Nat.lt_succ_self _⟩
termination_by ts.length * 8

/-- A message without its receiver. -/
def cascadeMessage (ts : List Token) : Except SyntaxError (Parsed Message (ts.length + 1)) :=
  match ts with
  | ⟨.identifier selector, line⟩ :: rest =>
    return ⟨.mk selector [] line, rest, Nat.lt_succ_of_lt (Nat.lt_succ_self _)⟩
  | ⟨.binary selector, line⟩ :: ts => do
    let ⟨arg, rest, h⟩ ← unaryExpression ts
    return ⟨.mk selector [arg] line, rest, Nat.lt_succ_of_lt (Nat.lt_succ_of_lt h)⟩
  | ⟨.keyword part, line⟩ :: ts => do
    let ⟨(selector, args), rest, h⟩ ← keywordTail (⟨.keyword part, line⟩ :: ts)
    return ⟨.mk selector args line, rest, h⟩
  | ts => unexpected endLine ts .cascadedMessage
termination_by ts.length * 8 + 1

/-- Keywords and their arguments. -/
def keywordTail (ts : List Token) :
    Except SyntaxError (Parsed (String × List Expr) (ts.length + 1)) :=
  match ts with
  | ⟨.keyword part, _⟩ :: ts => do
    let ⟨arg, ts', h'⟩ ← binaryExpression ts
    let ⟨(parts, args), rest, h⟩ ← keywordTail ts'
    return ⟨(part ++ parts, arg :: args), rest, by simp only [List.length_cons]; omega⟩
  | ts => return ⟨("", []), ts, Nat.lt_succ_self _⟩
termination_by ts.length * 8

/-- A binary expression, or a keyword message to one. -/
def keywordExpression (ts : List Token) : Except SyntaxError (Parsed Expr ts.length) := do
  let ⟨receiver, ts', h'⟩ ← binaryExpression ts
  let ⟨(selector, args), rest, h⟩ ← keywordTail ts'
  if args.isEmpty then return ⟨receiver, rest, by omega⟩
  else return ⟨.send receiver (.mk selector args (nextLine endLine ts')), rest, by omega⟩
termination_by ts.length * 8 + 4

/-- A unary expression and the binary messages to it, from left to right. -/
def binaryExpression (ts : List Token) : Except SyntaxError (Parsed Expr ts.length) := do
  let ⟨receiver, ts', h'⟩ ← unaryExpression ts
  let ⟨value, rest, h⟩ ← binaryTail receiver ts'
  return ⟨value, rest, by omega⟩
termination_by ts.length * 8 + 3

/-- Binary messages to a receiver. -/
def binaryTail (receiver : Expr) (ts : List Token) :
    Except SyntaxError (Parsed Expr (ts.length + 1)) :=
  match ts with
  | ⟨.binary selector, line⟩ :: ts => do
    let ⟨arg, ts', h'⟩ ← unaryExpression ts
    let ⟨value, rest, h⟩ ← binaryTail (.send receiver (.mk selector [arg] line)) ts'
    return ⟨value, rest, by simp only [List.length_cons]; omega⟩
  | ts => return ⟨receiver, ts, Nat.lt_succ_self _⟩
termination_by ts.length * 8

/-- A primary and the unary messages to it. -/
def unaryExpression (ts : List Token) : Except SyntaxError (Parsed Expr ts.length) := do
  let ⟨receiver, ts', h'⟩ ← primary ts
  let ⟨value, rest, h⟩ := unaryTail receiver ts'
  return ⟨value, rest, by omega⟩
termination_by ts.length * 8 + 2

/-- A name, a literal, an expression in parentheses, a block or a primitive. -/
def primary (ts : List Token) : Except SyntaxError (Parsed Expr ts.length) :=
  match ts with
  | [] => unexpected endLine [] .expression
  | ⟨kind, line⟩ :: ts => do
    match kind with
    | .identifier name => return ⟨.name name line, ts, Nat.lt_succ_self _⟩
    | .leftParen =>
      let ⟨inner, ts', h'⟩ ← expression ts
      let ⟨_, rest, h⟩ ← expect endLine .rightParen .rightParen ts'
      return ⟨inner, rest, by simp only [List.length_cons]; omega⟩
    | .leftBracket =>
      let ⟨block, rest, h⟩ ← block line ts
      return ⟨.block block, rest, Nat.lt_succ_of_lt h⟩
    | .binary "<" =>
      let ⟨number, ts', h'⟩ ← primitiveNumber endLine ts
      let ⟨args, rest, h⟩ ← primitiveArguments ts'
      return ⟨.primitive number args line, rest, by simp only [List.length_cons]; omega⟩
    | .binary "-" =>
      match negated? ts with
      | some ⟨value, rest, h⟩ => return ⟨.literal value line, rest, Nat.lt_succ_of_lt h⟩
      | none => fail endLine ts.tail .minusWithoutNumber
    | .arrayStart =>
      let ⟨items, rest, h⟩ ← arrayItems endLine ts
      return ⟨.literal (.array items) line, rest, Nat.lt_succ_of_lt h⟩
    | kind =>
      match scalar? kind with
      | some value => return ⟨.literal value line, ts, Nat.lt_succ_self _⟩
      | none => unexpected endLine (⟨kind, line⟩ :: ts) .expression
termination_by ts.length * 8 + 1

/-- The arguments of a primitive, through the closing angle bracket. -/
def primitiveArguments (ts : List Token) : Except SyntaxError (Parsed (List Expr) ts.length) :=
  match ts with
  | [] => unexpected endLine [] .rightAngle
  | ⟨.binary ">", _⟩ :: rest => return ⟨[], rest, Nat.lt_succ_self _⟩
  | ts => do
    let ⟨arg, ts', h'⟩ ← primary ts
    let ⟨args, rest, h⟩ ← primitiveArguments ts'
    return ⟨arg :: args, rest, by omega⟩
termination_by ts.length * 8 + 2

/-- A block behind its opening bracket, through the closing one. -/
def block (line : Nat) (ts : List Token) : Except SyntaxError (Parsed Block ts.length) := do
  let ⟨params, ts₁, h₁⟩ ← parameters endLine ts
  let ⟨_, ts₂, h₂⟩ ← parameterBar endLine params ts₁
  let ⟨temps, ts₃, h₃⟩ ← temporaries endLine ts₂
  let ⟨body, ts₄, h₄⟩ ← statements ts₃
  let ⟨_, rest, h⟩ ← expect endLine .rightBracket .rightBracket ts₄
  return ⟨.mk params temps body line, rest, by omega⟩
termination_by ts.length * 8 + 8

/-- Statements up to a closing bracket or the end of input, which is left. -/
def statements (ts : List Token) :
    Except SyntaxError (Parsed (List Statement) (ts.length + 1)) := do
  let ⟨_, ts₁, h₁⟩ := dropPeriods ts
  match nextKind ts₁ with
  | .endOfInput | .rightBracket => return ⟨[], ts₁, h₁⟩
  | .caret =>
    have h₀ := ts₁.length_tail
    let ⟨value, ts₂, h₂⟩ ← expression ts₁.tail
    let ⟨_, rest, h⟩ := dropPeriods ts₂
    match nextKind rest with
    | .endOfInput | .rightBracket => return ⟨[.answer value], rest, by omega⟩
    | _ => fail endLine rest .statementsAfterReturn
  | _ =>
    let ⟨value, ts₂, h₂⟩ ← expression ts₁
    match nextKind ts₂ with
    | .period | .endOfInput | .rightBracket =>
      let ⟨body, rest, h⟩ ← statements ts₂
      return ⟨.evaluate value :: body, rest, by omega⟩
    | _ => unexpected endLine ts₂ .period
termination_by ts.length * 8 + 7

end

/-- The keywords of a pattern, each with the name of its argument. -/
def keywordPattern (ts : List Token) :
    Except SyntaxError (Parsed (String × List String) (ts.length + 1)) :=
  match ts with
  | ⟨.keyword part, _⟩ :: ts => do
    let ⟨arg, ts', h'⟩ ← identifier endLine ts
    let ⟨(parts, args), rest, h⟩ ← keywordPattern ts'
    return ⟨(part ++ parts, arg :: args), rest, by simp only [List.length_cons]; omega⟩
  | ts => return ⟨("", []), ts, Nat.lt_succ_self _⟩
termination_by ts.length

/-- The selector of a method and the names of its arguments. -/
def pattern (ts : List Token) :
    Except SyntaxError (Parsed (String × List String) (ts.length + 1)) :=
  match ts with
  | ⟨.identifier name, _⟩ :: rest =>
    return ⟨(name, []), rest, Nat.lt_succ_of_lt (Nat.lt_succ_self _)⟩
  | ⟨.binary operator, _⟩ :: ts => do
    let ⟨arg, rest, h⟩ ← identifier endLine ts
    return ⟨(operator, [arg]), rest, Nat.lt_succ_of_lt (Nat.lt_succ_of_lt h)⟩
  | ⟨.keyword part, line⟩ :: ts => keywordPattern endLine (⟨.keyword part, line⟩ :: ts)
  | ts => unexpected endLine ts .pattern

/-- A whole method, with nothing behind it. -/
def method (ts : List Token) : Except SyntaxError MethodTree := do
  let ⟨(selector, args), ts, _⟩ ← pattern endLine ts
  let ⟨temps, ts, _⟩ ← temporaries endLine ts
  let ⟨body, ts, _⟩ ← statements endLine ts
  match nextKind ts with
  | .endOfInput => return ⟨selector, args, temps, body⟩
  | _ => unexpected endLine ts .endOfMethod

end

end Parser

namespace MethodTree

/-- The tree of a method given as tokens up to and with the end of input. -/
def ofTokens (ts : List Token) : Except SyntaxError MethodTree :=
  Parser.method (ts.getLast?.elim 1 Token.line) ts.dropLast

/-- The tree of a method given as source. -/
def ofSource (source : List UInt8) : Except SyntaxError MethodTree := ofTokens (tokenize source)

end MethodTree

end Smalltalk
