import Smalltalk.Machine.Dictionary

/-!
# Contexts

A method that runs has a context, an object that holds its receiver, arguments, temporaries and
operand stack, how far it has come, and the context to return to. A block has a context too, but
finds receiver, arguments and temporaries in the context of the method it was written in, its home.

One context is active. The registers hold what the machine needs of it and of its home, and
`activateContext` loads them. The instruction pointer and the operand count are kept in the context
as well, so a context can be left and taken up again at any time.

A method context returns at most once: its state says whether it has.

## Main definitions

* `Machine.activateContext`
* `Machine.send`: looks up a method, moves the operands into a new context and activates it
* `Machine.returnFromMethod`, `Machine.returnFromBlock`
* `Machine.createBlock`: makes a block
-/

namespace Smalltalk

open Layout

/-- Whether a method context has returned. -/
inductive FrameState where
  | active
  | returned
deriving DecidableEq

namespace FrameState

/-- The state as a field of the context. -/
def value : FrameState → Value
  | .active => .ofByte 0
  | .returned => .ofByte 1

/-- The state in a field of a context. -/
def ofValue (v : Value) : Except Fault FrameState :=
  if v = value .active then .ok .active
  else if v = value .returned then .ok .returned
  else .error (.corruptContext .badFrameState)

end FrameState

namespace Machine

/-- The method context that a context belongs to. -/
def homeOf (m : Machine) (context : Value) : Except Fault Value := do
  let cls ← m.memory.classOf context
  let home ←
    if cls = m.registers.get .methodContextClass then pure context
    else if cls = m.registers.get .blockContextClass then m.memory.getPtr context BlockContext.home
    else .error (.corruptContext .notAContext)
  if (← m.memory.classOf home) ≠ m.registers.get .methodContextClass then
    .error (.corruptContext .homeNotAMethodContext)
  else return home

/-- Loads a register from a field. -/
def loadRegister (root : Root) (object : Value) (index : Nat) : Exec Unit := do
  setRegister root (← getPtr object index)

/-- Makes a context the active one. -/
def activateContext (context : Value) : Exec Unit := do
  let home ← read (·.homeOf context)
  let method ← getPtr home MethodContext.method
  setRegister .activeContext context
  setRegister .homeContext home
  setRegister .method method
  loadRegister .receiver home MethodContext.receiver
  loadRegister .args home MethodContext.args
  loadRegister .temps home MethodContext.temps
  loadRegister .stack context Context.stack
  loadRegister .code method Method.code
  loadRegister .literals method Method.literals
  let ip ← read (·.indexField context Context.ip)
  modify fun m => { m with ip }
  let sp ← read (·.indexField context Context.sp)
  modify fun m => { m with sp }

/-! ### Sending -/

/-- Makes an array for a field of the new context, unless it would be empty. -/
def addArray (size field : Nat) : Exec Unit := do
  if 0 < size then
    let array ← createObject (← register .arrayClass) size .pointers
    setPtr (← register .newContext) field array

/-- Pops operands into an array, the topmost to the end. -/
def popInto (array : Value) : Nat → Exec Unit
  | 0 => return ()
  | n + 1 => do
    setPtr array n (← pop)
    popInto array n

/-- Moves the arguments from the stack into the new context. -/
def moveArguments (argc : Nat) : Exec Unit := do
  if 0 < argc then
    let args ← createObject (← register .arrayClass) argc .pointers
    setPtr (← register .newContext) MethodContext.args args
    popInto args argc

/-- A field of the method about to be run, as a count. -/
def newMethodCount (field : Nat) : Exec Nat := do
  let method ← register .newMethod
  read (·.indexField method field)

/-- Runs the new method: makes a context for it, moves arguments and receiver there from the stack
of the active context, and activates it. -/
def executeNewMethod : Exec Unit := do
  setRegister .newContext
    (← createObject (← register .methodContextClass) MethodContext.size .pointers)
  addArray (← newMethodCount Method.stackSize) Context.stack
  let context ← register .newContext
  setPtr context Context.caller (← register .activeContext)
  setPtr context Context.ip (.ofByte 0)
  setPtr context Context.sp (.ofByte 0)
  setPtr context MethodContext.method (← register .newMethod)
  setPtr context MethodContext.state (FrameState.value .active)
  moveArguments (← newMethodCount Method.argSize)
  let receiver ← pop
  setPtr (← register .newContext) MethodContext.receiver receiver
  addArray (← newMethodCount Method.tempSize) MethodContext.temps
  let nil ← look nil
  let context ← register .newContext
  setRegister .newMethod nil
  setRegister .newContext nil
  activateContext context

/-- Sends a message to the receiver below its arguments on the stack. The method is looked for from
a class on. -/
def send (cls selector : Value) (argc : Nat) : Exec Unit := do
  let method ← read (·.findMethod cls selector)
  let expected ← read (·.indexField method Method.argSize)
  if expected ≠ argc then
    throw (.argumentCount (← look (·.selectorText selector)) expected argc)
  setRegister .newMethod method
  executeNewMethod

/-! ### Returning -/

/-- Pops the answer, activates the caller and pushes the answer there. -/
def answerTo (caller : Value) : Exec Unit := do
  let value ← pop
  activateContext caller
  push value

/-- Returns from the home context, which must not have returned yet. -/
def returnFromMethod : Exec Unit := do
  let home ← register .homeContext
  let state ← check (FrameState.ofValue (← getPtr home MethodContext.state))
  let caller ← getPtr home Context.caller
  let nil ← look nil
  if state = .returned ∨ caller = nil then throw .doubleReturn
  setPtr home MethodContext.state (FrameState.value .returned)
  setPtr home Context.caller nil
  answerTo caller

/-- Returns from the active block to the context that activated it. -/
def returnFromBlock : Exec Unit := do
  let block ← register .activeContext
  let caller ← getPtr block Context.caller
  let nil ← look nil
  if caller = nil then throw .orphanBlockReturn
  setPtr block Context.caller nil
  answerTo caller

/-! ### Blocks -/

/-- Makes a block whose body starts behind the next instruction, and pushes it. -/
def createBlock (argc stackSize : Nat) : Exec Unit := do
  setRegister .newContext
    (← createObject (← register .blockContextClass) BlockContext.size .pointers)
  addArray stackSize Context.stack
  let block ← register .newContext
  let start ← read fun m => smallValue "block" (m.ip + 1)
  let argc ← check (smallValue "block" argc)
  setPtr block Context.ip (.ofByte 0)
  setPtr block Context.sp (.ofByte 0)
  setPtr block BlockContext.argCount argc
  setPtr block BlockContext.start start
  setPtr block BlockContext.home (← register .homeContext)
  setRegister .newContext (← look nil)
  push block

/-- Pops `n` operands into an array, the topmost to place `i` and the others behind it. -/
def moveOperands (array : Value) (i : Nat) : Nat → Exec Unit
  | 0 => return ()
  | n + 1 => do
    setPtr array i (← pop)
    moveOperands array (i + 1) n

/-- Activates the block below its arguments on the stack: they are moved to the block's own stack,
the last on the bottom, and the block starts over. -/
def activateBlock (argc : Nat) : Exec Unit := do
  let block ← read (·.peek (argc - 1))
  if (← read (·.classOf block)) ≠ (← register .blockContextClass) then
    throw (.corruptContext .valueOfNonBlock)
  let expected ← read (·.indexField block BlockContext.argCount)
  if expected ≠ argc - 1 then throw (.blockArity expected (argc - 1))
  let start ← getPtr block BlockContext.start
  setPtr block Context.caller (← register .activeContext)
  setPtr block Context.ip start
  let stack ← getPtr block Context.stack
  moveOperands stack 0 expected
  setPtr block Context.sp (← check (smallValue "value" expected))
  activateContext (← pop)

end Machine

end Smalltalk
