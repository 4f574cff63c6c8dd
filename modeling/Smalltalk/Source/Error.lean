import Smalltalk.Fault
import Smalltalk.Source.Token

/-!
# Why a method does not compile

Source can be wrong in two ways. It may not have the form of a method, a `SyntaxError`; or it has
the form and means nothing, a `SemanticError`, such as a name that nothing defines. Both carry a
line. Building the method can also meet a fault of the machine, and then nobody can mend the source.
-/

namespace Smalltalk

/-- What the grammar would have allowed next. -/
inductive Expectation where
  | identifier
  | pattern
  | barClosingTemporaries
  | period
  | cascadedMessage
  | rightParen
  | expression
  | barAfterParameters
  | rightBracket
  | rightAngle
  | endOfMethod
deriving DecidableEq

namespace Expectation

/-- The name that messages use. -/
def text : Expectation → String
  | .identifier => "identifier"
  | .pattern => "message pattern"
  | .barClosingTemporaries => "'|' closing temporaries"
  | .period => "'.'"
  | .cascadedMessage => "cascaded message"
  | .rightParen => "')'"
  | .expression => "expression"
  | .barAfterParameters => "'|' after block parameters"
  | .rightBracket => "']'"
  | .rightAngle => "'>'"
  | .endOfMethod => "end of method"

end Expectation

/-- In what way tokens are not a method. -/
inductive SyntaxCause where
  | lexical (e : LexicalError)
  | expected (wanted : Expectation) (found : TokenKind)
  | statementsAfterReturn
  | cascadeWithoutMessage
  | minusWithoutNumber
  | primitiveNumberTooLarge
  | primitiveNumberMissing
  | unterminatedArray
  | unexpectedInArray (found : TokenKind)
deriving DecidableEq

namespace SyntaxCause

/-- The cause in words. -/
def message : SyntaxCause → String
  | .lexical e => e.message
  | .expected wanted found => "expected " ++ wanted.text ++ ", found " ++ found.text
  | .statementsAfterReturn => "statements after a return"
  | .cascadeWithoutMessage => "cascade without a message"
  | .minusWithoutNumber => "'-' must be followed by a number here"
  | .primitiveNumberTooLarge => "primitive number out of range"
  | .primitiveNumberMissing => "primitive number expected after '<'"
  | .unterminatedArray => "unterminated literal array"
  | .unexpectedInArray found => "unexpected " ++ found.text ++ " in literal array"

end SyntaxCause

/-- Where and in what way tokens are not a method. -/
structure SyntaxError where
  line : Nat
  cause : SyntaxCause
deriving DecidableEq

/-- In what way a method has no meaning. -/
inductive SemanticCause where
  | duplicateArgument (name : String)
  | duplicateTemporary (name : String)
  | duplicateBlockVariable (name : String)
  | cannotRedefine (name : String)
  | alreadyDefined (name : String)
  | cannotAssign (name : String)
  | undefinedGlobal (name : String)
  | undefinedVariable (name : String)
  | unknownPrimitive (number : UInt16)
  | tooManyPrimitiveArguments
  | tooManyMessageArguments
  | tooManyBlockParameters
  | tooManyInstanceVariables
  | tooManyTemporaries
  | tooManyLiterals
  | blockStackTooDeep
  | methodTooLarge
  | integerOutOfRange (n : Int)
deriving DecidableEq

namespace SemanticCause

/-- The cause in words. -/
def message : SemanticCause → String
  | .duplicateArgument name => "duplicate argument " ++ name
  | .duplicateTemporary name => "duplicate temporary " ++ name
  | .duplicateBlockVariable name => "duplicate block variable " ++ name
  | .cannotRedefine name => "cannot redefine " ++ name
  | .alreadyDefined name => name ++ " is already defined"
  | .cannotAssign name => "cannot assign to " ++ name
  | .undefinedGlobal name => "undefined global " ++ name
  | .undefinedVariable name => "undefined variable " ++ name
  | .unknownPrimitive number => "unknown primitive " ++ toString number.toNat
  | .tooManyPrimitiveArguments => "too many primitive arguments"
  | .tooManyMessageArguments => "too many message arguments"
  | .tooManyBlockParameters => "too many block parameters"
  | .tooManyInstanceVariables => "too many instance variables"
  | .tooManyTemporaries => "too many temporaries"
  | .tooManyLiterals => "too many literals"
  | .blockStackTooDeep => "block stack too deep"
  | .methodTooLarge => "method too large"
  | .integerOutOfRange n => "integer literal " ++ toString n ++ " out of range"

end SemanticCause

/-- Where and in what way a method has no meaning. -/
structure SemanticError where
  line : Nat
  cause : SemanticCause
deriving DecidableEq

/-- Why source became no method. -/
inductive CompileError where
  | syntactic (e : SyntaxError)
  | semantic (e : SemanticError)
  | machine (fault : Fault)
deriving DecidableEq

namespace CompileError

/-- The error in words. -/
def message : CompileError → String
  | .syntactic e => "line " ++ toString e.line ++ ": syntax error: " ++ e.cause.message
  | .semantic e => "line " ++ toString e.line ++ ": " ++ e.cause.message
  | .machine fault => fault.message

end CompileError

end Smalltalk
