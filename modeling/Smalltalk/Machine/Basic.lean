import Smalltalk.Layout
import Smalltalk.Machine.Log
import Smalltalk.Machine.Registers
import Smalltalk.Memory.Access
import Smalltalk.Memory.Allocation
import Smalltalk.Text.Blank

/-!
# The machine

A machine is an object memory, the registers, the instruction pointer and the operand count of the
active context, and its connections to the outside: text to be read, bytes written, a log.

What the machine does is an effect, in `Exec`. An effect that ends in a fault leaves the machine as
it was when the fault arose, because the host may look at it then. What only looks at the machine is
a plain function of it.

An allocation may move every object. A reference that is needed afterwards is therefore in a
register, or it is held: `hold` puts references on the scratch stack, where a collection updates
them, and `releaseAll` takes them off again. After a fault they stay there.

## Main definitions

* `Machine`, `Exec`
* `Machine.createObject`, `Machine.collectGarbage`: the two operations that may move objects
* `Machine.push`, `Machine.pop`, `Machine.peek`: the operand stack
-/

namespace Smalltalk

open Layout

/-- What the machine compiles with. -/
inductive CompilerState where
  /-- Source is compiled. -/
  | ready
  /-- A compiler is at work that calls for another one, and there is none. -/
  | reentrant
deriving DecidableEq

/-- The state of a machine. -/
structure Machine where
  memory : Memory
  registers : Registers
  /-- The number of the next instruction. -/
  ip : Nat := 0
  /-- The number of operands on the stack. -/
  sp : Nat := 0
  /-- Is a call from outside to go on? -/
  running : Bool := false
  /-- Are instructions reported as information? -/
  tracing : Bool := false
  /-- Text that has not been read yet. -/
  input : List Char := []
  /-- All that has been written. -/
  output : ByteArray := ByteArray.empty
  compiler : CompilerState := .ready
  log : Log := {}

/-- Effects on a machine. The machine survives a fault. -/
abbrev Exec := EStateM Fault Machine

/-- How a call from outside ended. -/
inductive Completion where
  | returned (value : Value)
  /-- The code that ran asked the machine to stop. -/
  | shutDown
  /-- The steps allowed were not enough. -/
  | unfinished
deriving DecidableEq

namespace Machine

/-- A machine without objects. -/
def empty (memory : Memory) : Machine := { memory, registers := Registers.empty }

/-- The object nil. -/
@[inline] def nil (m : Machine) : Value := m.registers.get .nil

/-- One of the objects true and false. -/
@[inline] def boolean (m : Machine) (b : Bool) : Value :=
  if b then m.registers.get .true else m.registers.get .false

/-- The shared object of a character. -/
@[inline] def character (m : Machine) (b : UInt8) : Value := m.registers.get (.character b)

/-- The class of any value; integers have one too. -/
def classOf (m : Machine) (value : Value) : Except Fault Value :=
  match value with
  | .small _ => .ok (m.registers.get .shortIntegerClass)
  | .ref _ => m.memory.classOf value

/-- The value as an integer. -/
def expectSmall (operation : String) (value : Value) : Except Fault SmallInt :=
  match value with
  | .small n => .ok n
  | .ref _ => .error (.expectedSmallInt operation value)

/-- The value as an index or a count. -/
def expectIndex (operation : String) (value : Value) : Except Fault Nat := do
  let n ← expectSmall operation value
  if n.val < 0 then .error (.valueOutOfRange operation n.val) else return n.val.toNat

/-- A count as a value. -/
def smallValue (operation : String) (n : Nat) : Except Fault Value :=
  match Value.ofNat? n with
  | some v => .ok v
  | none => .error (.valueOutOfRange operation n)

/-- A field that holds an index or a count. -/
def indexField (m : Machine) (object : Value) (index : Nat) : Except Fault Nat := do
  expectIndex "field" (← m.memory.getPtr object index)

/-! ### Effects -/

/-- Looks at the machine. -/
@[inline] def look {α : Type} (f : Machine → α) : Exec α := fun m => .ok (f m) m

/-- Looks at the machine for something that may be missing. -/
@[inline] def read {α : Type} (f : Machine → Except Fault α) : Exec α := fun m =>
  match f m with
  | .ok a => .ok a m
  | .error e => .error e m

/-- The answer of a check. -/
@[inline] def check {α : Type} (a : Except Fault α) : Exec α := read fun _ => a

/-- An effect on the memory alone. -/
@[inline] def onMemory {α : Type} (act : Store α) : Exec α := fun
  | { memory, registers, ip, sp, running, tracing, input, output, compiler, log } =>
    match act memory with
    | .ok a memory =>
      .ok a { memory, registers, ip, sp, running, tracing, input, output, compiler, log }
    | .error e memory =>
      .error e { memory, registers, ip, sp, running, tracing, input, output, compiler, log }

/-- Changes the registers. -/
@[inline] def onRegisters (f : Registers → Registers) : Exec Unit :=
  modify fun m => { m with registers := f m.registers }

/-- The value in a register. -/
@[inline] def register (root : Root) : Exec Value := look (·.registers.get root)

/-- Puts a value into a register. -/
@[inline] def setRegister (root : Root) (value : Value) : Exec Unit :=
  onRegisters (·.set root value)

/-- A field of an object. -/
@[inline] def getPtr (object : Value) (index : Nat) : Exec Value :=
  read (·.memory.getPtr object index)

/-- Changes a field of an object. -/
@[inline] def setPtr (object : Value) (index : Nat) (value : Value) : Exec Unit :=
  onMemory (Memory.setPtr object index value)

/-- Reports an event. -/
@[inline] def report (event : Event) : Exec Unit :=
  modify fun m => if m.log.keeps event.level then { m with log := m.log.add event } else m

/-- Writes bytes. -/
def write (bytes : List UInt8) : Exec Unit :=
  modify fun m => { m with output := bytes.foldl ByteArray.push m.output }

/-- Takes the next line of the input, with its line feed. Nothing is left of it at the end of
input. -/
def takeLine : Exec (List Char) := fun m =>
  let (line, rest) := Text.takeLine m.input
  .ok line { m with input := rest }

/-! ### Held values -/

/-- Holds values, and answers where on the scratch stack they are. -/
def hold (values : Array Value) : Exec Nat := do
  let base ← look (·.registers.scratch.size)
  onRegisters fun r => { r with scratch := r.scratch ++ values }
  return base

/-- The held value at a place of the scratch stack. -/
def held (place : Nat) : Exec Value := look (·.registers.scratch.getD place Value.zeroRef)

/-- Takes off all values held from a place on. -/
def releaseAll (base : Nat) : Exec (Array Value) := do
  let values ← look fun m => m.registers.scratch.extract base m.registers.scratch.size
  onRegisters fun r => { r with scratch := r.scratch.extract 0 base }
  return values

/-- Holds a value while an effect runs, and answers it as it is afterwards. The effect is told where
it is held. -/
def holding {α : Type} (value : Value) (act : Nat → Exec α) : Exec (α × Value) := do
  let place ← hold #[value]
  let a ← act place
  let value ← held place
  discard (releaseAll place)
  return (a, value)

/-- Holds two values while an effect runs, the second behind the first. -/
def holding₂ {α : Type} (v₁ v₂ : Value) (act : Nat → Exec α) : Exec (α × Value × Value) := do
  let ((a, v₂), v₁) ← holding v₁ fun place => holding v₂ fun _ => act place
  return (a, v₁, v₂)

/-- Holds three values while an effect runs, one behind the other. -/
def holding₃ {α : Type} (v₁ v₂ v₃ : Value) (act : Nat → Exec α) :
    Exec (α × Value × Value × Value) := do
  let ((a, v₂, v₃), v₁) ← holding v₁ fun place => holding₂ v₂ v₃ fun _ => act place
  return (a, v₁, v₂, v₃)

/-! ### Allocation -/

/-- The event of a collection, if one has happened between two states of the memory. -/
def collectionEvent (before after : Stats) (capacity : Nat) : Option Event :=
  if before.collections < after.collections then
    some (.collection after.collections before.bytesSince before.objectsSince after.bytesCopied
      after.objectsCopied (capacity - after.bytesCopied))
  else none

/-- An effect on the memory and the registers, in which a collection may happen. -/
@[inline] def onHeap {α : Type} (act : Managed Registers α) : Exec α := fun
  | { memory, registers, ip, sp, running, tracing, input, output, compiler, log } =>
    let before := memory.stats
    let finish (memory : Memory) (registers : Registers) : Machine :=
      let log :=
        match collectionEvent before memory.stats memory.capacity with
        | some event => log.add event
        | none => log
      { memory, registers, ip, sp, running, tracing, input, output, compiler, log }
    match act ⟨memory, registers⟩ with
    | .ok a ⟨memory, registers⟩ => .ok a (finish memory registers)
    | .error e ⟨memory, registers⟩ => .error e (finish memory registers)

/-- Makes an object whose fields are nil. Every reference that is neither in a register nor held is
stale afterwards. -/
def createObject (cls : Value) (size : Nat) (kind : BodyKind) : Exec Value := do
  let nil ← look nil
  onHeap (allocate cls size kind nil)

/-- Runs a full collection. -/
def collectGarbage : Exec Unit := onHeap collect

/-! ### The operand stack -/

/-- Stores the operand count in the active context. -/
def storeSp (operation : String) : Exec Unit := do
  let sp ← read fun m => smallValue operation m.sp
  setPtr (← register .activeContext) Context.sp sp

/-- Pushes a value. -/
def push (value : Value) : Exec Unit := do
  let sp ← look (·.sp)
  setPtr (← register .stack) sp value
  modify fun m => { m with sp := m.sp + 1 }
  storeSp "push"

/-- Pops a value. The place it had is set to nil, so that it does not stay alive. -/
def pop : Exec Value := do
  let sp ← look (·.sp)
  if sp = 0 then throw .stackUnderflow
  modify fun m => { m with sp := m.sp - 1 }
  let stack ← register .stack
  let value ← getPtr stack (sp - 1)
  setPtr stack (sp - 1) (← look nil)
  storeSp "pop"
  return value

/-- The value `depth` places below the top of the stack. -/
def peek (m : Machine) (depth : Nat) : Except Fault Value :=
  if m.sp ≤ depth then .error .stackUnderflow
  else m.memory.getPtr (m.registers.get .stack) (m.sp - 1 - depth)

end Machine

end Smalltalk
