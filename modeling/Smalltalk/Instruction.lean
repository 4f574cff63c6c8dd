import Smalltalk.Fault

/-!
# Instructions

An instruction is one word: an opcode byte, a small operand byte that carries counts, and a large
operand of two bytes that carries indices and jump targets, most significant byte first. An opcode
that does not use an operand ignores its bits, and writes zero there.

## Main definitions

* `Instruction`: the instructions with their operands
* `Instruction.encode`, `Instruction.decode`: between instructions and words
* `Instruction.stackEffect`: by how much an instruction lengthens the operand stack
* `Instruction.text`: one line of a listing
-/

namespace Smalltalk

/-- What the machine can be told to do in one step. -/
inductive Instruction where
  | nop
  | pushSelf
  | pushNil
  | pushFalse
  | pushTrue
  | dup
  | drop
  /-- Return the top of the stack from the home method context. -/
  | returnMethod
  /-- Return the top of the stack from the active block context to whoever activated it. -/
  | returnBlock
  /-- Push the literal with this number. -/
  | pushConst (literal : UInt16)
  /-- Push the value of the global whose association is the literal with this number. -/
  | pushGlobal (literal : UInt16)
  | storeGlobal (literal : UInt16)
  /-- Push the instance variable with this number. -/
  | pushInstance (index : UInt16)
  | storeInstance (index : UInt16)
  | pushArg (index : UInt16)
  | pushTemp (index : UInt16)
  | storeTemp (index : UInt16)
  /-- Make a block whose body starts behind the jump that follows. -/
  | pushBlock (argc : UInt8) (stackSize : UInt16)
  /-- Send the selector in the literal with this number. -/
  | send (argc : UInt8) (selector : UInt16)
  | sendSuper (argc : UInt8) (selector : UInt16)
  /-- Run a primitive. The count includes the receiver. -/
  | primitive (argc : UInt8) (number : UInt16)
  /-- Go on at this position. -/
  | jump (target : UInt16)
deriving DecidableEq

namespace Instruction

/-- The opcode byte. -/
def opcode : Instruction → UInt8
  | .nop => 0x00
  | .pushSelf => 0x01
  | .pushNil => 0x02
  | .pushFalse => 0x03
  | .pushTrue => 0x04
  | .dup => 0x05
  | .drop => 0x06
  | .returnMethod => 0x07
  | .returnBlock => 0x08
  | .pushConst _ => 0x09
  | .pushGlobal _ => 0x0A
  | .storeGlobal _ => 0x0B
  | .pushInstance _ => 0x0C
  | .storeInstance _ => 0x0D
  | .pushArg _ => 0x0E
  | .pushTemp _ => 0x0F
  | .storeTemp _ => 0x10
  | .pushBlock _ _ => 0x11
  | .send _ _ => 0x12
  | .sendSuper _ _ => 0x13
  | .primitive _ _ => 0x14
  | .jump _ => 0x15

/-- The small operand, zero if there is none. -/
def smallOperand : Instruction → UInt8
  | .pushBlock argc _ => argc
  | .send argc _ => argc
  | .sendSuper argc _ => argc
  | .primitive argc _ => argc
  | _ => 0

/-- The large operand, zero if there is none. -/
def largeOperand : Instruction → UInt16
  | .pushConst literal => literal
  | .pushGlobal literal => literal
  | .storeGlobal literal => literal
  | .pushInstance index => index
  | .storeInstance index => index
  | .pushArg index => index
  | .pushTemp index => index
  | .storeTemp index => index
  | .pushBlock _ stackSize => stackSize
  | .send _ selector => selector
  | .sendSuper _ selector => selector
  | .primitive _ number => number
  | .jump target => target
  | _ => 0

/-- The word of an instruction. -/
def encode (i : Instruction) : UInt32 :=
  (i.opcode.toUInt32 <<< 24) + (i.smallOperand.toUInt32 <<< 16) + i.largeOperand.toUInt32

/-- The instruction with an opcode and operands, of which it takes what it uses. -/
def ofParts (opcode : UInt8) (small : UInt8) (large : UInt16) : Except Fault Instruction :=
  match opcode with
  | 0x00 => .ok .nop
  | 0x01 => .ok .pushSelf
  | 0x02 => .ok .pushNil
  | 0x03 => .ok .pushFalse
  | 0x04 => .ok .pushTrue
  | 0x05 => .ok .dup
  | 0x06 => .ok .drop
  | 0x07 => .ok .returnMethod
  | 0x08 => .ok .returnBlock
  | 0x09 => .ok (.pushConst large)
  | 0x0A => .ok (.pushGlobal large)
  | 0x0B => .ok (.storeGlobal large)
  | 0x0C => .ok (.pushInstance large)
  | 0x0D => .ok (.storeInstance large)
  | 0x0E => .ok (.pushArg large)
  | 0x0F => .ok (.pushTemp large)
  | 0x10 => .ok (.storeTemp large)
  | 0x11 => .ok (.pushBlock small large)
  | 0x12 => .ok (.send small large)
  | 0x13 => .ok (.sendSuper small large)
  | 0x14 => .ok (.primitive small large)
  | 0x15 => .ok (.jump large)
  | other => .error (.illegalOpcode other)

/-- The instruction of a word. -/
def decode (w : UInt32) : Except Fault Instruction :=
  ofParts (w >>> 24).toUInt8 (w >>> 16).toUInt8 w.toUInt16

/-- By how much the operand stack grows. A block's own stack is not counted here. -/
def stackEffect : Instruction → Int
  | .nop => 0
  | .jump _ => 0
  | .pushSelf => 1
  | .pushNil => 1
  | .pushFalse => 1
  | .pushTrue => 1
  | .dup => 1
  | .pushConst _ => 1
  | .pushGlobal _ => 1
  | .pushInstance _ => 1
  | .pushArg _ => 1
  | .pushTemp _ => 1
  | .pushBlock _ _ => 1
  | .drop => -1
  | .returnMethod => -1
  | .returnBlock => -1
  | .storeGlobal _ => -1
  | .storeInstance _ => -1
  | .storeTemp _ => -1
  | .send argc _ => -(argc.toNat : Int)
  | .sendSuper argc _ => -(argc.toNat : Int)
  | .primitive argc _ => 1 - (argc.toNat : Int)

/-- How an instruction is written in a listing. -/
def text : Instruction → String
  | .nop => "Nop"
  | .pushSelf => "PushSelf"
  | .pushNil => "PushNil"
  | .pushFalse => "PushFalse"
  | .pushTrue => "PushTrue"
  | .dup => "Dup"
  | .drop => "Drop"
  | .returnMethod => "ReturnMethod"
  | .returnBlock => "ReturnBlock"
  | .pushConst literal => "PushConst #" ++ toString literal.toNat
  | .pushGlobal literal => "PushGlobal #" ++ toString literal.toNat
  | .storeGlobal literal => "StoreGlobal #" ++ toString literal.toNat
  | .pushInstance index => "PushInstance " ++ toString index.toNat
  | .storeInstance index => "StoreInstance " ++ toString index.toNat
  | .pushArg index => "PushArg " ++ toString index.toNat
  | .pushTemp index => "PushTemp " ++ toString index.toNat
  | .storeTemp index => "StoreTemp " ++ toString index.toNat
  | .pushBlock argc stackSize =>
    "PushBlock " ++ toString argc.toNat ++ " [" ++ toString stackSize.toNat ++ "]"
  | .send argc selector => "Send " ++ toString argc.toNat ++ " #" ++ toString selector.toNat
  | .sendSuper argc selector =>
    "SendSuper " ++ toString argc.toNat ++ " #" ++ toString selector.toNat
  | .primitive argc number =>
    "Primitive " ++ toString number.toNat ++ " (" ++ toString argc.toNat ++ ")"
  | .jump target => "Jump @" ++ toString target.toNat

/-- The literal an instruction refers to. -/
def literal? : Instruction → Option UInt16
  | .pushConst literal => some literal
  | .pushGlobal literal => some literal
  | .storeGlobal literal => some literal
  | .send _ selector => some selector
  | .sendSuper _ selector => some selector
  | _ => none

/-- The parts of an instruction do not overlap in its word. -/
theorem toNat_encode (i : Instruction) : i.encode.toNat =
    i.opcode.toNat * 16777216 + i.smallOperand.toNat * 65536 + i.largeOperand.toNat := by
  have ho := i.opcode.toNat_lt
  have hs := i.smallOperand.toNat_lt
  have hl := i.largeOperand.toNat_lt
  have h16 : UInt32.toNat 16 % 32 = 16 := by decide
  have h24 : UInt32.toNat 24 % 32 = 24 := by decide
  simp only [encode, UInt32.toNat_add, UInt32.toNat_shiftLeft, UInt8.toNat_toUInt32,
    UInt16.toNat_toUInt32, Nat.shiftLeft_eq, h16, h24]
  omega

/-- Decoding takes the parts of an encoded word apart again. -/
theorem decode_encode (i : Instruction) : decode i.encode = .ok i := by
  have ho := i.opcode.toNat_lt
  have hs := i.smallOperand.toNat_lt
  have hl := i.largeOperand.toNat_lt
  have h16 : UInt32.toNat 16 % 32 = 16 := by decide
  have h24 : UInt32.toNat 24 % 32 = 24 := by decide
  have hopcode : (i.encode >>> 24).toUInt8 = i.opcode := by
    apply UInt8.toNat_inj.1
    simp only [UInt32.toNat_toUInt8, UInt32.toNat_shiftRight, Nat.shiftRight_eq_div_pow, h24,
      toNat_encode]
    omega
  have hsmall : (i.encode >>> 16).toUInt8 = i.smallOperand := by
    apply UInt8.toNat_inj.1
    simp only [UInt32.toNat_toUInt8, UInt32.toNat_shiftRight, Nat.shiftRight_eq_div_pow, h16,
      toNat_encode]
    omega
  have hlarge : i.encode.toUInt16 = i.largeOperand := by
    apply UInt16.toNat_inj.1
    simp only [UInt32.toNat_toUInt16, toNat_encode]
    omega
  rw [decode, hopcode, hsmall, hlarge]
  cases i <;> rfl

end Instruction

end Smalltalk
