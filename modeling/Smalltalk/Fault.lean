import Smalltalk.Value
import Smalltalk.Memory.Kind

/-!
# Fatal conditions

A `Fault` says that an invariant of the machine, or of the code it runs, is broken: a field that
does not exist, a return that has already happened, a message nobody understands. Nothing inside
the machine recovers from one. The wording is fixed in `Fault.message` and nowhere else.

Operations are named by the text that messages show for them.
-/

namespace Smalltalk

/-- What can be wrong with the objects that hold the machine's own state. -/
inductive Corruption where
  | emptySystemDictionary
  | badFrameState
  | notAContext
  | homeNotAMethodContext
  | valueOfNonBlock
deriving DecidableEq

namespace Corruption

/-- The reason in words. -/
def message : Corruption → String
  | .emptySystemDictionary => "empty system dictionary"
  | .badFrameState => "bad method context state"
  | .notAContext => "activating a non-context"
  | .homeNotAMethodContext => "block home is not a method context"
  | .valueOfNonBlock => "value sent to a non-block"

end Corruption

/-- A fatal condition of the object memory or of the machine. -/
inductive Fault where
  | notAnObject (operation : String) (value : Value)
  | wrongKind (operation : String) (expected : BodyKind)
  | indexOutOfRange (operation : String) (index : Int) (size : Nat)
  | danglingReference (operation : String) (value : Value)
  | memoryExhausted (requested : Nat)
  | collectorOverflow
  | messageNotUnderstood (receiverClass selector : String)
  | argumentCount (selector : String) (expected got : Nat)
  | primitiveArity (number : UInt16) (expected got : Nat)
  | blockArity (expected got : Nat)
  | illegalOpcode (opcode : UInt8)
  | illegalPrimitive (number : UInt16)
  | doubleReturn
  | orphanBlockReturn
  | corruptContext (reason : Corruption)
  | expectedSmallInt (operation : String) (value : Value)
  | expectedCharacter (operation : String)
  | valueOutOfRange (operation : String) (value : Int)
  | integerOverflow (operation : String)
  | divisionByZero (operation : String)
  | stackUnderflow
  | illegalCompileFlag
  | noCompiler
  | endOfInput
deriving DecidableEq

namespace Fault

/-- Two hexadecimal digits and the mark in front of them. -/
def opcodeText (b : UInt8) : String :=
  if b < 16 then "0x0" ++ hexDigits b.toNat else "0x" ++ hexDigits b.toNat

/-- The condition in words. -/
def message : Fault → String
  | .notAnObject operation value =>
    operation ++ ": " ++ value.text ++ " is a small integer, not an object"
  | .wrongKind operation expected => operation ++ ": expected a " ++ expected.name ++ " object"
  | .indexOutOfRange operation index size =>
    operation ++ ": index " ++ toString index ++ " out of range for size " ++ toString size
  | .danglingReference operation value =>
    operation ++ ": reference " ++ value.text ++ " points outside the object arena"
  | .memoryExhausted requested =>
    "object memory exhausted allocating " ++ toString requested ++ " bytes"
  | .collectorOverflow => "collector overflow: to-space cannot hold live objects"
  | .messageNotUnderstood receiverClass selector =>
    "message not understood: " ++ receiverClass ++ " >> #" ++ selector
  | .argumentCount selector expected got =>
    "argument count mismatch: #" ++ selector ++ " expects " ++ toString expected
      ++ ", sent with " ++ toString got
  | .primitiveArity number expected got =>
    "primitive " ++ toString number.toNat ++ " expects " ++ toString expected
      ++ " arguments, got " ++ toString got
  | .blockArity expected got =>
    "block expects " ++ toString expected ++ " arguments, got " ++ toString got
  | .illegalOpcode opcode => "illegal opcode " ++ opcodeText opcode
  | .illegalPrimitive number => "illegal primitive " ++ toString number.toNat
  | .doubleReturn => "cannot return: method context already returned"
  | .orphanBlockReturn => "cannot return: block context has no caller"
  | .corruptContext reason => "corrupt context: " ++ reason.message
  | .expectedSmallInt operation value =>
    operation ++ ": expected a small integer, got " ++ value.text
  | .expectedCharacter operation => operation ++ ": expected a character"
  | .valueOutOfRange operation value =>
    operation ++ ": value " ++ toString value ++ " out of range"
  | .integerOverflow operation => "small integer overflow in " ++ operation
  | .divisionByZero operation => "division by zero in " ++ operation
  | .stackUnderflow => "operand stack underflow"
  | .illegalCompileFlag => "compile flag must be true or false"
  | .noCompiler => "no compiler installed"
  | .endOfInput => "end of input"

end Fault

end Smalltalk
