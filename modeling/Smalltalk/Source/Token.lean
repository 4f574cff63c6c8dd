import Smalltalk.Double.Shortest
import Smalltalk.Text.Quoted

/-!
# Tokens of method source

Source is read as bytes. What the lexer cannot read becomes a token too, an error token, so that a
list of tokens always covers the whole source; it is the parser that stops at one.
-/

namespace Smalltalk

/-- Why a piece of source is not a token. -/
inductive LexicalError where
  | unterminatedComment
  | unterminatedString
  | integerTooLarge
  | badRadix (radix : Nat)
  | badRadixLiteral (radix : Nat)
  | badSymbol
  | characterAtEnd
  | unexpectedByte (b : UInt8)
deriving DecidableEq

namespace LexicalError

/-- The reason in words. A stray byte is shown as the character with that number. -/
def message : LexicalError → String
  | .unterminatedComment => "unterminated comment"
  | .unterminatedString => "unterminated string"
  | .integerTooLarge => "integer literal too large"
  | .badRadix radix => "bad radix " ++ toString radix
  | .badRadixLiteral radix => "bad radix " ++ toString radix ++ " literal"
  | .badSymbol => "bad symbol literal"
  | .characterAtEnd => "character literal at end of input"
  | .unexpectedByte b => "unexpected character " ++ Text.quotedChar (Char.ofNat b.toNat)

end LexicalError

/-- What a token is. -/
inductive TokenKind where
  | identifier (name : String)
  /-- A word with its colon. -/
  | keyword (name : String)
  | binary (operator : String)
  | integer (n : Nat)
  | float (x : Double)
  | character (b : UInt8)
  | string (s : String)
  | symbol (s : String)
  /-- The `#(` of a literal array. -/
  | arrayStart
  | assign
  | caret
  | colon
  | period
  | semicolon
  | leftParen
  | rightParen
  | leftBracket
  | rightBracket
  | endOfInput
  | error (e : LexicalError)
deriving DecidableEq

namespace TokenKind

/-- A token as messages show it. -/
def text : TokenKind → String
  | .identifier name => "Identifier(" ++ Text.quoted name ++ ")"
  | .keyword name => "Keyword(" ++ Text.quoted name ++ ")"
  | .binary operator => "Binary(" ++ Text.quoted operator ++ ")"
  | .integer n => "Integer(" ++ toString n ++ ")"
  | .float x => "Float(" ++ x.text ++ ")"
  | .character b => "Character(" ++ toString b.toNat ++ ")"
  | .string s => "String(" ++ Text.quoted s ++ ")"
  | .symbol s => "Symbol(" ++ Text.quoted s ++ ")"
  | .arrayStart => "ArrayStart"
  | .assign => "Assign"
  | .caret => "Caret"
  | .colon => "Colon"
  | .period => "Period"
  | .semicolon => "Semicolon"
  | .leftParen => "LParen"
  | .rightParen => "RParen"
  | .leftBracket => "LBracket"
  | .rightBracket => "RBracket"
  | .endOfInput => "Eof"
  | .error e => "Error(" ++ Text.quoted e.message ++ ")"

end TokenKind

/-- A token and the line on which it starts. -/
structure Token where
  kind : TokenKind
  line : Nat
deriving DecidableEq

end Smalltalk
