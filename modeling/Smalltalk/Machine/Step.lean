import Smalltalk.Machine.Primitives

/-!
# Running

`Machine.step` runs one instruction of the active context. `Machine.run` repeats that until the
context in which a call started is active again, which means that the call has returned and its
answer is on that context's stack, or until the code has asked the machine to stop.

Code may run for ever, so `run` and everything above it are told how many steps they may take.

## Main definitions

* `Machine.step`, `Machine.run`
* `Machine.call`, `Machine.sendMessage`, `Machine.evaluate`, `Machine.printString`: calls from
  outside
-/

namespace Smalltalk

open Layout

namespace Machine

/-- Moves the instruction pointer, in the active context too. -/
def setIp (operation : String) (ip : Nat) : Exec Unit := do
  modify fun m => { m with ip }
  setPtr (← register .activeContext) Context.ip (← check (smallValue operation ip))

/-- Fetches the next instruction. -/
def fetch : Exec Instruction := do
  let word ← read fun m => m.memory.getWord (m.registers.get .code) m.ip
  let ip ← look (·.ip)
  setIp "fetch" (ip + 1)
  let i ← check (Instruction.decode word)
  report (.instruction (← look (·.tracing)) ip (← look (·.sp)) i)
  return i

/-- A literal of the method that runs. -/
def literalAt (index : UInt16) : Exec Value := do
  getPtr (← register .literals) index.toNat

/-- What an instruction does. -/
def execute : Instruction → Exec Unit
  | .nop => return ()
  | .pushSelf => do push (← register .receiver)
  | .pushNil => do push (← look nil)
  | .pushFalse => pushBoolean false
  | .pushTrue => pushBoolean true
  | .dup => do push (← read (·.peek 0))
  | .drop => discard pop
  | .returnMethod => returnFromMethod
  | .returnBlock => returnFromBlock
  | .pushConst literal => do push (← literalAt literal)
  | .pushGlobal literal => do push (← getPtr (← literalAt literal) Link.value)
  | .storeGlobal literal => do
    let value ← pop
    setPtr (← literalAt literal) Link.value value
  | .pushInstance index => do push (← getPtr (← register .receiver) index.toNat)
  | .storeInstance index => do
    let value ← pop
    setPtr (← register .receiver) index.toNat value
  | .pushArg index => do push (← getPtr (← register .args) index.toNat)
  | .pushTemp index => do push (← getPtr (← register .temps) index.toNat)
  | .storeTemp index => do
    let value ← pop
    setPtr (← register .temps) index.toNat value
  | .pushBlock argc stackSize => createBlock argc.toNat stackSize.toNat
  | .send argc selector => do
    let selector ← literalAt selector
    let receiver ← read (·.peek argc.toNat)
    let cls ← read (·.classOf receiver)
    send cls selector argc.toNat
  | .sendSuper argc selector => do
    let selector ← literalAt selector
    let owner ← getPtr (← register .method) Method.owner
    let cls ← getPtr owner Behavior.superclass
    send cls selector argc.toNat
  | .primitive argc number => invoke number argc.toNat
  | .jump target => setIp "jump" target.toNat

/-- Runs one instruction of the active context. -/
def step : Exec Unit := do execute (← fetch)

/-- Runs until the call from outside has ended, for at most so many steps. -/
def run : Nat → Exec Completion
  | 0 => return .unfinished
  | steps + 1 => do
    if !(← look (·.running)) then return .shutDown
    else if (← register .activeContext) = (← register .entryContext) then
      modify fun m => { m with running := false }
      return .returned (← pop)
    else
      step
      run steps

/-- Runs until the call that was just started has ended. -/
def runToEntry (steps : Nat) : Exec Completion := do
  modify fun m => { m with running := true }
  run steps

/-! ### Calls from outside -/

/-- Pushes values. -/
def pushAll : List Value → Exec Unit
  | [] => return ()
  | v :: vs => do
    push v
    pushAll vs

/-- Makes the context in which a call starts, and a stack for it. Both are registered or answered as
they are once both are made. -/
def createEntry (argc : Nat) : Exec Value := do
  setRegister .entryContext
    (← createObject (← register .methodContextClass) MethodContext.size .pointers)
  createObject (← register .arrayClass) (argc + 2) .pointers

/-- Fills in the context in which a call starts, which looks like one of the method called. -/
def fillEntry (method receiver stack : Value) : Exec Unit := do
  let entry ← register .entryContext
  setPtr entry Context.caller (← register .activeContext)
  setPtr entry Context.ip (.ofByte 0)
  setPtr entry Context.stack stack
  setPtr entry Context.sp (.ofByte 0)
  setPtr entry MethodContext.method method
  setPtr entry MethodContext.receiver receiver
  setPtr entry MethodContext.state (FrameState.value .active)

/-- Goes back to what was active before a call that has ended. -/
def leaveEntry (completion : Completion) : Exec Unit := do
  let entry ← register .entryContext
  let previous ← getPtr entry Context.caller
  let nil ← look nil
  if completion = .shutDown ∨ previous = nil then onRegisters Registers.clearRunning
  else
    setRegister .entryContext nil
    activateContext previous

/-- Runs a method with a receiver and arguments until it returns. -/
def call (steps : Nat) (method receiver : Value) (args : List Value) : Exec Completion := do
  let expected ← read (·.indexField method Method.argSize)
  if expected ≠ args.length then
    let selector ← getPtr method Method.selector
    throw (.argumentCount (← look (·.selectorText selector)) expected args.length)
  let base ← hold (method :: receiver :: args).toArray
  let stack ← createEntry args.length
  let values ← releaseAll base
  let method := values.getD 0 method
  let receiver := values.getD 1 receiver
  fillEntry method receiver stack
  activateContext (← register .entryContext)
  push receiver
  pushAll (values.toList.drop 2)
  setRegister .newMethod method
  executeNewMethod
  let completion ← runToEntry steps
  unless completion = .unfinished do leaveEntry completion
  return completion

/-- Sends a message from outside. -/
def sendMessage (steps : Nat) (receiver : Value) (selector : String) (args : List Value) :
    Exec Completion := do
  let base ← hold (receiver :: args).toArray
  let selector ← newSymbol selector
  let values ← releaseAll base
  let receiver := values.getD 0 receiver
  let cls ← read (·.classOf receiver)
  let method ← read (·.findMethod cls selector)
  call steps method receiver (values.toList.drop 1)

/-- Compiles source as the statements of a method of nil and runs it. The value of the last
statement is answered. -/
def evaluate (steps : Nat) (source : String) : Compile Completion := do
  let cls ← compiling (read fun m => m.classOf m.nil)
  let method ← compile ("doIt\n" ++ source) cls true
  compiling do call steps method (← look nil) []

/-- The text that a value answers to `printString`. -/
def printString (steps : Nat) (value : Value) : Exec String := do
  match ← sendMessage steps value "printString" [] with
  | .returned s => read (·.stringValue s)
  | _ => return ""

end Machine

end Smalltalk
