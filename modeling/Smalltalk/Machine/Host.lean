import Smalltalk.Machine.Step

/-!
# Operations for hosts

Besides evaluating source, a host can make values, assemble methods from instruction words without
any source, and fill the memory so that the next allocation collects.

## Main definitions

* `Operand`, `Machine.makeValues`: values that a host names
* `ClassName`, `Machine.findClass`: classes that a host names
* `Assembly`, `Machine.assemble`: methods from instruction words
* `Request`, `Machine.callNamed`, `Machine.sendNamed`: running code on values that a host names
* `Machine.leaveFree`: fills the memory up to some bytes
-/

namespace Smalltalk

open Layout

/-- A value as a host names it. -/
inductive Operand where
  | nil
  | true
  | false
  | integer (n : Int)
  | character (code : UInt8)
  | string (s : String)
  | symbol (s : String)
  /-- The link of a global, made if missing. -/
  | link (name : String)
  /-- The value of a global, nil if there is none. -/
  | global (name : String)
  | float (x : Double)

/-- A class as a host names it: the class of a global, or its metaclass. -/
structure ClassName where
  name : String
  metaSide : Bool

/-- Why code that a host asks for does not come to its end. -/
inductive RequestFault where
  /-- What it is to run on cannot be made, so it has not begun. -/
  | preparing (f : Fault)
  /-- It has begun. -/
  | running (f : Fault)

/-- Effects that prepare something and then run it. -/
abbrev Request := EStateM RequestFault Machine

/-- An effect that comes before the code is run. -/
@[inline] def Request.prepare {α : Type} (act : Exec α) : Request α :=
  EStateM.adaptExcept .preparing act

/-- An effect that runs the code. -/
@[inline] def Request.perform {α : Type} (act : Exec α) : Request α :=
  EStateM.adaptExcept .running act

/-- A method in instruction words. -/
structure Assembly where
  selector : String
  code : List UInt32
  literals : List Operand
  args : Int
  temps : Int
  stack : Int

namespace Machine

/-- An integer as a host gives it. -/
def hostInteger (n : Int) : Exec Value :=
  match Value.ofInt? n with
  | some v => return v
  | none => throw (.valueOutOfRange "literal" n)

/-- The value that a host names. -/
def makeValue : Operand → Exec Value
  | .nil => look nil
  | .true => look (·.boolean true)
  | .false => look (·.boolean false)
  | .integer n => hostInteger n
  | .character code => look (·.character code)
  | .string s => newString s
  | .symbol s => newSymbol s
  | .link name => globalLink name
  | .global name => do return (← read (·.globalValue name)).getD (← look nil)
  | .float x => newFloat x

/-- Makes values from left to right, each held from then on. -/
def holdValues : List Operand → Exec Unit
  | [] => return ()
  | o :: os => do
    discard (hold #[← makeValue o])
    holdValues os

/-- Cuts the scratch stack back if an effect ends in a fault. -/
def restoringScratch {α : Type} (act : Exec α) : Exec α := fun m =>
  let base := m.registers.scratch.size
  match act m with
  | .ok a m => .ok a m
  | .error e m =>
    let scratch := m.registers.scratch.extract 0 base
    .error e { m with registers := { m.registers with scratch } }

/-- The values that a host names, as they are once all are made. -/
def makeValues (operands : List Operand) : Exec (List Value) := do
  let base ← look (·.registers.scratch.size)
  restoringScratch (holdValues operands)
  return (← releaseAll base).toList

/-- The class that a host names, if there is one. -/
def findClass (m : Machine) (c : ClassName) : Except Fault (Option Value) := do
  match ← m.lookupClass c.name with
  | none => return none
  | some cls => if c.metaSide then return some (← m.classOf cls) else return some cls

/-! ### Assembling -/

/-- Puts values into an array, from place `i` on. -/
def fillArray (array : Value) (i : Nat) : List Value → Exec Unit
  | [] => return ()
  | v :: vs => do
    setPtr array i v
    fillArray array (i + 1) vs

/-- Makes a method of a class from instruction words. Its literals are held meanwhile, and the class
is looked up again at the end. -/
def assemble (c : ClassName) (a : Assembly) : Exec Value := do
  let literals ← makeValues a.literals
  let base ← hold literals.toArray
  setRegister .compilerMethod (← createObject (← register .methodClass) Method.size .pointers)
  setMethodField Method.selector (← newSymbol a.selector)
  setMethodField Method.code (← newWords a.code)
  let array ← createObject (← register .arrayClass) literals.length .pointers
  fillArray array 0 (← releaseAll base).toList
  setMethodField Method.literals array
  setMethodField Method.argSize (← hostInteger a.args)
  setMethodField Method.tempSize (← hostInteger a.temps)
  setMethodField Method.stackSize (← hostInteger a.stack)
  let cls ← read (·.findClass c)
  setMethodField Method.owner (cls.getD (← look nil))
  takeMethod

/-- Installs a method in a class that a host names, and answers the method as it is afterwards. -/
def installNamed (c : ClassName) (method : Value) : Exec Value := do
  let ((), method) ← holding method fun _ => do
    match ← read (·.findClass c) with
    | some cls => installMethod cls method
    | none => return ()
  return method

/-! ### Running -/

/-- Calls a method on values that a host names. -/
def callNamed (steps : Nat) (method : Value) (receiver : Operand) (args : List Operand) :
    Request Completion := do
  let (values, method) ← Request.prepare (holding method fun _ => makeValues (receiver :: args))
  Request.perform (call steps method (values.headD Value.zeroRef) values.tail)

/-- Sends a message to values that a host names. -/
def sendNamed (steps : Nat) (receiver : Operand) (selector : String) (args : List Operand) :
    Request Completion := do
  let values ← Request.prepare (makeValues (receiver :: args))
  Request.perform (sendMessage steps (values.headD Value.zeroRef) selector values.tail)

/-! ### Dictionaries -/

/-- The value of a global, nil if there is none. -/
def globalOrNil (m : Machine) (name : String) : Except Fault Value := do
  return (← m.globalValue name).getD m.nil

/-- Makes a dictionary with so many chains and a global for it. -/
def newNamedDictionary (name : String) (buckets : Nat) : Exec Unit := do
  let cls ← read (·.globalOrNil "Dictionary")
  setGlobal name (← newDictionary cls buckets)

/-- Gives a key of the dictionary in a global a value. -/
def enterNamed (name : String) (key value : Operand) : Exec Unit := do
  match ← makeValues [key, value] with
  | [key, value] => dictionaryEnter (← read (·.globalOrNil name)) key value
  | _ => return ()

/-- The value of a key of the dictionary in a global, if there is one. -/
def lookupNamed (name : String) (key : Operand) : Exec (Option Value) := do
  let keys ← makeValues [key]
  let dictionary ← read (·.globalOrNil name)
  read (·.dictionaryLookup dictionary (keys.headD Value.zeroRef))

/-! ### Memory -/

/-- Fills the memory with one string, so that exactly `bytes` stay free, and answers how many do. If
there is not enough room even after a collection, nothing is answered. -/
def leaveFree (bytes : Nat) : Exec (Option Nat) := do
  if (← look (·.memory.freeBytes)) < bytes + headerBytes then collectGarbage
  let free ← look (·.memory.freeBytes)
  if free < bytes + headerBytes then return none
  else
    discard (createObject (← register .stringClass) (free - bytes - headerBytes) .bytes)
    return some (← look (·.memory.freeBytes))

end Machine

end Smalltalk
