import Smalltalk.Fault

/-!
# Primitive operations

The `Primitive` instruction carries a number. This module says which operation a number stands for,
what the operation is called and how many stack operands it takes; what the operations do is the
machine's business.
-/

namespace Smalltalk

/-- The operations that are built into the machine. -/
inductive Primitive where
  | shutDown
  | classOf
  | size
  | hash
  | identical
  | newWords
  | newBytes
  | newPointers
  | concatenate
  | wordAt
  | byteAt
  | pointerAt
  | stringAt
  | compile
  | wordAtPut
  | byteAtPut
  | pointerAtPut
  | stringAtPut
  | characterValue
  | characterFromValue
  | add
  | subtract
  | remainder
  | multiply
  | quotient
  | blockValue
  | input
  | halt
  | outputString
  | outputCharacter
  | less
  | lessEqual
  | bitAnd
  | bitOr
  | bitXor
deriving DecidableEq

/-- How many operands a primitive takes, the receiver included. -/
inductive Arity where
  | exact (n : Nat)
  /-- A block and zero to three arguments for it. -/
  | block
deriving DecidableEq

namespace Arity

/-- Is this a number of operands that the primitive takes? -/
def accepts : Arity → Nat → Bool
  | .exact n, argc => n == argc
  | .block, argc => 1 ≤ argc && argc ≤ 4

/-- The number of operands that a message about a wrong number names. -/
def expected : Arity → Nat
  | .exact n => n
  | .block => 1

end Arity

namespace Primitive

/-- The number that stands for a primitive. -/
def number : Primitive → UInt16
  | .shutDown => 7
  | .classOf => 11
  | .size => 12
  | .hash => 13
  | .identical => 20
  | .newWords => 21
  | .newBytes => 22
  | .newPointers => 23
  | .concatenate => 24
  | .wordAt => 25
  | .byteAt => 26
  | .pointerAt => 27
  | .stringAt => 29
  | .compile => 30
  | .wordAtPut => 35
  | .byteAtPut => 36
  | .pointerAtPut => 37
  | .stringAtPut => 39
  | .characterValue => 56
  | .characterFromValue => 57
  | .add => 60
  | .subtract => 61
  | .remainder => 67
  | .multiply => 68
  | .quotient => 69
  | .blockValue => 90
  | .input => 130
  | .halt => 132
  | .outputString => 133
  | .outputCharacter => 134
  | .less => 251
  | .lessEqual => 252
  | .bitAnd => 253
  | .bitOr => 254
  | .bitXor => 255

/-- The primitive a number stands for. -/
def ofNumber? : UInt16 → Option Primitive
  | 7 => some .shutDown
  | 11 => some .classOf
  | 12 => some .size
  | 13 => some .hash
  | 20 => some .identical
  | 21 => some .newWords
  | 22 => some .newBytes
  | 23 => some .newPointers
  | 24 => some .concatenate
  | 25 => some .wordAt
  | 26 => some .byteAt
  | 27 => some .pointerAt
  | 29 => some .stringAt
  | 30 => some .compile
  | 35 => some .wordAtPut
  | 36 => some .byteAtPut
  | 37 => some .pointerAtPut
  | 39 => some .stringAtPut
  | 56 => some .characterValue
  | 57 => some .characterFromValue
  | 60 => some .add
  | 61 => some .subtract
  | 67 => some .remainder
  | 68 => some .multiply
  | 69 => some .quotient
  | 90 => some .blockValue
  | 130 => some .input
  | 132 => some .halt
  | 133 => some .outputString
  | 134 => some .outputCharacter
  | 251 => some .less
  | 252 => some .lessEqual
  | 253 => some .bitAnd
  | 254 => some .bitOr
  | 255 => some .bitXor
  | _ => none

/-- The primitive a number stands for, or the fault that there is none. -/
def ofNumber (n : UInt16) : Except Fault Primitive :=
  match ofNumber? n with
  | some p => .ok p
  | none => .error (.illegalPrimitive n)

/-- The message that usually reaches the primitive. -/
def name : Primitive → String
  | .shutDown => "shutDown"
  | .classOf => "class"
  | .size => "size"
  | .hash => "hash"
  | .identical => "=="
  | .newWords => "newWords"
  | .newBytes => "newBytes"
  | .newPointers => "newPointers"
  | .concatenate => ","
  | .wordAt => "wordAt:"
  | .byteAt => "byteAt:"
  | .pointerAt => "at:"
  | .stringAt => "stringAt:"
  | .compile => "compile:in:lastValueNeeded:"
  | .wordAtPut => "wordAt:put:"
  | .byteAtPut => "byteAt:put:"
  | .pointerAtPut => "at:put:"
  | .stringAtPut => "stringAt:put:"
  | .characterValue => "asciiValue"
  | .characterFromValue => "value:"
  | .add => "+"
  | .subtract => "-"
  | .remainder => "\\\\"
  | .multiply => "*"
  | .quotient => "//"
  | .blockValue => "value"
  | .input => "input"
  | .halt => "halt:"
  | .outputString => "output"
  | .outputCharacter => "outputCharacter"
  | .less => "<"
  | .lessEqual => "<="
  | .bitAnd => "bitAnd:"
  | .bitOr => "bitOr:"
  | .bitXor => "bitXor:"

/-- How many operands the primitive takes. -/
def arity : Primitive → Arity
  | .shutDown => .exact 1
  | .classOf => .exact 1
  | .size => .exact 1
  | .hash => .exact 1
  | .identical => .exact 2
  | .newWords => .exact 2
  | .newBytes => .exact 2
  | .newPointers => .exact 2
  | .concatenate => .exact 2
  | .wordAt => .exact 2
  | .byteAt => .exact 2
  | .pointerAt => .exact 2
  | .stringAt => .exact 2
  | .compile => .exact 3
  | .wordAtPut => .exact 3
  | .byteAtPut => .exact 3
  | .pointerAtPut => .exact 3
  | .stringAtPut => .exact 3
  | .characterValue => .exact 1
  | .characterFromValue => .exact 1
  | .add => .exact 2
  | .subtract => .exact 2
  | .remainder => .exact 2
  | .multiply => .exact 2
  | .quotient => .exact 2
  | .blockValue => .block
  | .input => .exact 1
  | .halt => .exact 1
  | .outputString => .exact 1
  | .outputCharacter => .exact 1
  | .less => .exact 2
  | .lessEqual => .exact 2
  | .bitAnd => .exact 2
  | .bitOr => .exact 2
  | .bitXor => .exact 2

/-- The number of a primitive stands for it. -/
theorem ofNumber?_number (p : Primitive) : ofNumber? p.number = some p := by
  cases p <;> rfl

end Primitive

end Smalltalk
