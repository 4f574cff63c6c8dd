import Smalltalk.Machine.Context
import Smalltalk.Method.Build

/-!
# What primitives do

A primitive takes its operands off the stack, the receiver being the deepest, and pushes its answer.
Operands are popped before they are looked at, so a fault leaves a shorter stack. Primitives that
allocate hold what they still need.

## Main definitions

* `Machine.runPrimitive`: what each primitive does
* `Machine.invoke`: runs the primitive with a number, once the number of operands is checked
-/

namespace Smalltalk

open Layout

namespace SmallInt

/-- A small integer as a word of 32 bits in two's complement. -/
def bits (a : SmallInt) : BitVec 32 := BitVec.ofInt 32 a.val

end SmallInt

namespace Machine

/-- Pushes one of the objects true and false. -/
def pushBoolean (b : Bool) : Exec Unit := do push (← look (·.boolean b))

/-- An index counted from one, as one counted from zero. -/
def oneBased (operation : String) (index : Value) : Except Fault Nat := do
  let i ← expectSmall operation index
  if i.val < 1 then .error (.indexOutOfRange operation i.val 0) else return (i.val - 1).toNat

/-- The value as a byte. -/
def expectByte (operation : String) (value : Value) : Except Fault UInt8 := do
  let n ← expectSmall operation value
  if 0 ≤ n.val ∧ n.val < 256 then return UInt8.ofNat n.val.toNat
  else .error (.valueOutOfRange operation n.val)

/-- The value as a word. -/
def expectWord (operation : String) (value : Value) : Except Fault UInt32 := do
  let n ← expectSmall operation value
  if 0 ≤ n.val then return UInt32.ofNat n.val.toNat
  else .error (.valueOutOfRange operation n.val)

/-! ### Integers -/

/-- Pops two integers, the second one first. -/
def integerOperands (operation : String) : Exec (SmallInt × SmallInt) := do
  let b ← pop
  let a ← pop
  let a ← check (expectSmall operation a)
  let b ← check (expectSmall operation b)
  return (a, b)

/-- Pushes the result of an operation. -/
def pushInteger (operation : String) (n : Int) : Exec Unit := do
  match Value.ofInt? n with
  | some v => push v
  | none => throw (.integerOverflow operation)

/-- An operation that is defined on all integers. -/
def arithmetic (operation : String) (f : Int → Int → Int) : Exec Unit := do
  let (a, b) ← integerOperands operation
  pushInteger operation (f a.val b.val)

/-- An operation that divides. -/
def division (operation : String) (f : Int → Int → Int) : Exec Unit := do
  let (a, b) ← integerOperands operation
  if b.val = 0 then throw (.divisionByZero operation)
  pushInteger operation (f a.val b.val)

/-- An operation on the bits of two integers. It is one on words, whose result is checked like any
other. -/
def bitwise (operation : String) (f : BitVec 32 → BitVec 32 → BitVec 32) : Exec Unit := do
  let (a, b) ← integerOperands operation
  pushInteger operation (f a.bits b.bits).toInt

/-- A comparison of integers. -/
def comparison (operation : String) (f : Int → Int → Bool) : Exec Unit := do
  let (a, b) ← integerOperands operation
  pushBoolean (f a.val b.val)

/-! ### Objects -/

/-- Pops an index and a receiver. -/
def indexOperands (operation : String) : Exec (Value × Nat) := do
  let index ← pop
  let receiver ← pop
  return (receiver, ← check (oneBased operation index))

/-- Makes an object of a given size. -/
def newObject (kind : BodyKind) : Exec Unit := do
  let size ← check (expectIndex "new:" (← pop))
  let cls ← pop
  push (← createObject cls size kind)

/-- The class of an object. -/
def pushClass : Exec Unit := do
  let receiver ← pop
  push (← read (·.classOf receiver))

/-- The number of elements of an object. -/
def pushSize : Exec Unit := do
  let receiver ← pop
  let size ← read (·.memory.size receiver)
  push (← check (smallValue "size" size))

/-- The identity hash of an object. -/
def pushHash : Exec Unit := do
  let receiver ← pop
  push (Value.tagged (← read (·.memory.hash receiver)))

/-- Are two operands the same object? -/
def pushIdentical : Exec Unit := do
  let other ← pop
  let receiver ← pop
  pushBoolean (receiver = other)

/-- An element of a word object. Words that are not small integers are an overflow. -/
def wordAt : Exec Unit := do
  let (receiver, i) ← indexOperands "wordAt:"
  let word ← read (·.memory.getWord receiver i)
  pushInteger "wordAt:" word.toNat

/-- An element of a byte object. -/
def byteAt : Exec Unit := do
  let (receiver, i) ← indexOperands "byteAt:"
  push (.ofByte (← read (·.memory.getByte receiver i)))

/-- A field of an object. -/
def pointerAt : Exec Unit := do
  let (receiver, i) ← indexOperands "at:"
  push (← getPtr receiver i)

/-- Changes an element of a word object. -/
def wordAtPut : Exec Unit := do
  let value ← pop
  let (receiver, i) ← indexOperands "wordAt:put:"
  let word ← check (expectWord "wordAt:put:" value)
  onMemory (Memory.setWord receiver i word)
  push value

/-- Changes an element of a byte object. -/
def byteAtPut : Exec Unit := do
  let value ← pop
  let (receiver, i) ← indexOperands "byteAt:put:"
  let byte ← check (expectByte "byteAt:put:" value)
  onMemory (Memory.setByte receiver i byte)
  push value

/-- Changes a field of an object. -/
def pointerAtPut : Exec Unit := do
  let value ← pop
  let (receiver, i) ← indexOperands "at:put:"
  setPtr receiver i value
  push value

/-! ### Characters and strings -/

/-- A string with the bytes of two strings or symbols. -/
def concatenate : Exec Unit := do
  let b ← pop
  let a ← pop
  let aSize ← read (·.memory.size a)
  let bSize ← read (·.memory.size b)
  let _ ← read (·.memory.byteBody a)
  let _ ← read (·.memory.byteBody b)
  let (result, a, b) ← holding₂ a b fun _ => do
    createObject (← register .stringClass) (aSize + bSize) .bytes
  let aBytes ← read (·.memory.bytes a)
  let bBytes ← read (·.memory.bytes b)
  onMemory (Memory.setBytes result (aBytes ++ bBytes))
  push result

/-- A character of a string. -/
def stringAt : Exec Unit := do
  let (receiver, i) ← indexOperands "at:"
  let byte ← read (·.memory.getByte receiver i)
  push (← look (·.character byte))

/-- Changes a character of a string. -/
def stringAtPut : Exec Unit := do
  let value ← pop
  let (receiver, i) ← indexOperands "at:put:"
  let byte ← read (·.characterValue value)
  onMemory (Memory.setByte receiver i byte)
  push value

/-- The code of a character. -/
def pushCharacterValue : Exec Unit := do
  let receiver ← pop
  push (.ofByte (← read (·.characterValue receiver)))

/-- The character with a code. -/
def characterFromValue : Exec Unit := do
  let byte ← check (expectByte "Character value:" (← pop))
  push (← look (·.character byte))

/-- Writes a string. -/
def outputString : Exec Unit := do
  let receiver ← pop
  write (← read (·.memory.bytes receiver))
  push receiver

/-- Writes a character. -/
def outputCharacter : Exec Unit := do
  let receiver ← pop
  write [← read (·.characterValue receiver)]
  push receiver

/-! ### The system -/

/-- Stops the machine. -/
def shutDown : Exec Unit := do
  let _ ← pop
  modify fun m => { m with running := false }
  pushBoolean true

/-- The flag that tells whether the value of the last statement is needed. -/
def compileFlag (m : Machine) (flag : Value) : Except Fault Bool :=
  if flag = m.boolean true then .ok true
  else if flag = m.boolean false then .ok false
  else .error .illegalCompileFlag

/-- Runs what compiles; only a fault of the machine ends it. -/
def attempt {α : Type} (act : Compile α) : Exec (Except CompileError α) := fun m =>
  match act m with
  | .ok a m => .ok (.ok a) m
  | .error (.machine fault) m => .error fault m
  | .error e m => .ok (.error e) m

/-- Compiles a string for a class and answers the method, or nil if the source is not a method. -/
def compileString : Exec Unit := do
  let flag ← pop
  let cls ← pop
  let source ← pop
  let valueNeeded ← read (·.compileFlag flag)
  let text ← read (·.stringValue source)
  match ← attempt (compile text cls valueNeeded) with
  | .ok method => push method
  | .error e =>
    report (.notCompiled e)
    push (← look nil)

/-- Reads a line of the input, with its line feed. -/
def readInput : Exec Unit := do
  let _ ← pop
  let line ← takeLine
  if line.isEmpty then throw .endOfInput
  push (← newString (String.ofList line))

/-- Writes a message and starts tracing. -/
def halt : Exec Unit := do
  let message ← pop
  let text ← read (·.stringValue message)
  write (Text.utf8 ("\n" ++ text ++ "\n"))
  report (.halted text)
  modify fun m => { m with tracing := true }
  push (← look nil)

/-- What a primitive with so many operands does. -/
def runPrimitive (argc : Nat) : Primitive → Exec Unit
  | .shutDown => shutDown
  | .classOf => pushClass
  | .size => pushSize
  | .hash => pushHash
  | .identical => pushIdentical
  | .newWords => newObject .words
  | .newBytes => newObject .bytes
  | .newPointers => newObject .pointers
  | .concatenate => concatenate
  | .wordAt => wordAt
  | .byteAt => byteAt
  | .pointerAt => pointerAt
  | .stringAt => stringAt
  | .compile => compileString
  | .wordAtPut => wordAtPut
  | .byteAtPut => byteAtPut
  | .pointerAtPut => pointerAtPut
  | .stringAtPut => stringAtPut
  | .characterValue => pushCharacterValue
  | .characterFromValue => characterFromValue
  | .add => arithmetic "+" (· + ·)
  | .subtract => arithmetic "-" (· - ·)
  | .remainder => division "\\\\" Int.tmod
  | .multiply => arithmetic "*" (· * ·)
  | .quotient => division "//" Int.tdiv
  | .blockValue => activateBlock argc
  | .input => readInput
  | .halt => halt
  | .outputString => outputString
  | .outputCharacter => outputCharacter
  | .less => comparison "<" (· < ·)
  | .lessEqual => comparison "<=" (· ≤ ·)
  | .bitAnd => bitwise "bitAnd:" (· &&& ·)
  | .bitOr => bitwise "bitOr:" (· ||| ·)
  | .bitXor => bitwise "bitXor:" (· ^^^ ·)

/-- Runs the primitive with a number on so many operands. -/
def invoke (number : UInt16) (argc : Nat) : Exec Unit := do
  let p ← check (Primitive.ofNumber number)
  if !p.arity.accepts argc then throw (.primitiveArity number p.arity.expected argc)
  report (.primitive p)
  runPrimitive argc p

end Machine

end Smalltalk
