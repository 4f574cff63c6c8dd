import Smalltalk.Machine.Context

/-!
# Looking at a machine from outside

A host shows values, methods and the state of the machine to people. What it shows is data, a
`Description`, so that hosts differ only in how they write it down. A value is described as a whole
or not at all: if something in it cannot be looked at, that fault is the answer.

## Main definitions

* `Machine.describe`: what a value is, with its fields to some depth
* `Machine.disassemble`: the instructions of a method as text
* `Machine.describeMethod`: all about a method
* `Machine.location`, `Machine.summary`: where a machine is and how it does
-/

namespace Smalltalk

open Layout

/-- What a value is. -/
inductive Description where
  | integer (n : Int)
  | nil
  | true
  | false
  /-- A class or a metaclass. -/
  | behavior (name : String)
  | character (code : UInt8)
  | float (x : Double)
  | bytes (className : String) (bytes : List UInt8)
  | words (className : String) (words : List UInt32)
  | fields (className : String) (fields : List Description)
  /-- An object of which only the size is told. -/
  | sized (className : String) (size : Nat)

/-- All about a method, as far as it can be looked at. -/
structure MethodDescription where
  selector : Except Fault Description
  text : Except Fault Description
  code : Except Fault Description
  args : Except Fault Description
  temps : Except Fault Description
  stack : Except Fault Description
  owner : Except Fault Description
  /-- The literals, if there are any, each with a mark whether it is the key of a link. -/
  literals : Option (List (Bool × Except Fault Description))
  disassembly : Except Fault String

namespace Machine

/-- Is a value a class that its own name leads to, or a metaclass? -/
def isBehavior (m : Machine) (v : Value) : Except Fault Bool := do
  let cls ← m.classOf v
  let metaclass := m.registers.get .metaclassClass
  if cls = metaclass then return true
  else if (← m.classOf cls) = metaclass then
    return (← m.lookupClass (m.className v)) = some v
  else return false

/-- What a byte object is. -/
def describeBytes (m : Machine) (v cls : Value) : Except Fault Description := do
  let bytes ← m.memory.bytes v
  match bytes with
  | [b] =>
    if cls = m.registers.get .characterClass then return .character b
    else return .bytes (m.className cls) bytes
  | _ =>
    match Double.ofBytes? bytes with
    | some x =>
      if cls = m.registers.get .floatClass then return .float x
      else return .bytes (m.className cls) bytes
    | none => return .bytes (m.className cls) bytes

/-- Instances of these classes are not looked inside. -/
def isClosedClass (m : Machine) (cls : Value) : Bool :=
  cls = m.registers.get .methodClass || cls = m.registers.get .methodContextClass ||
    cls = m.registers.get .blockContextClass

/-- What an object is; its fields are described by `field`, if that is given. -/
def describeObject (m : Machine) (field : Option (Value → Except Fault Description)) (v : Value) :
    Except Fault Description := do
  let cls ← m.classOf v
  match ← m.memory.kind v with
  | .bytes => m.describeBytes v cls
  | .words =>
    let size ← m.memory.size v
    return .words (m.className cls) (← (List.range size).mapM (m.memory.getWord v))
  | .pointers =>
    let size ← m.memory.size v
    match field with
    | none => return .sized (m.className cls) size
    | some field =>
      if m.isClosedClass cls then return .sized (m.className cls) size
      else
        let fields ← (List.range size).mapM fun i => do field (← m.memory.getPtr v i)
        return .fields (m.className cls) fields

/-- What a value is; its fields are described by `field`, if that is given. -/
def describeWith (m : Machine) (field : Option (Value → Except Fault Description)) (v : Value) :
    Except Fault Description := do
  match v with
  | .small n => return .integer n.val
  | .ref _ =>
    if v = m.nil then return .nil
    else if v = m.boolean true then return .true
    else if v = m.boolean false then return .false
    else if ← m.isBehavior v then return .behavior (m.className v)
    else m.describeObject field v

/-- What a value is, with its fields to some depth. -/
def describe (m : Machine) : Nat → Value → Except Fault Description
  | 0, v => m.describeWith none v
  | depth + 1, v => m.describeWith (some (m.describe depth)) v

/-! ### Methods -/

/-- A literal as a listing shows it. -/
def literalText (m : Machine) (v : Value) : String :=
  match v with
  | .small _ => v.text
  | .ref _ =>
    match m.classOf v with
    | .error _ => "?"
    | .ok cls =>
      if cls = m.registers.get .symbolClass then "#" ++ m.selectorText v
      else if cls = m.registers.get .stringClass then "'" ++ m.selectorText v ++ "'"
      else if cls = m.registers.get .linkClass then
        match m.memory.getPtr v Link.key with
        | .ok key => m.selectorText key
        | .error _ => m.selectorText v
      else "a " ++ m.className cls

/-- A line of a listing. -/
def listingLine (m : Machine) (code literals : Value) (ip : Nat) : Except Fault String := do
  let i ← Instruction.decode (← m.memory.getWord code ip)
  let line := Text.alignRight 4 (toString ip) ++ "  " ++ i.text
  match i.literal? with
  | some index =>
    let v ← m.memory.getPtr literals index.toNat
    return line ++ "  ; " ++ m.literalText v ++ "\n"
  | none => return line ++ "\n"

/-- The instructions of a method, one to a line, with their literals. -/
def disassemble (m : Machine) (method : Value) : Except Fault String := do
  let code ← m.memory.getPtr method Method.code
  let literals ← m.memory.getPtr method Method.literals
  let size ← m.memory.size code
  return String.join (← (List.range size).mapM (m.listingLine code literals))

/-- How deep values of interest are described. -/
def usualDepth : Nat := 4

/-- What a field of an object is. -/
def describeField (m : Machine) (object : Value) (index : Nat) : Except Fault Description := do
  m.describe usualDepth (← m.memory.getPtr object index)

/-- What a literal of a method is. Of a link the key is told. -/
def describeLiteral (m : Machine) (v : Value) : Bool × Except Fault Description :=
  match m.classOf v with
  | .ok cls =>
    if !v.isSmall && cls = m.registers.get .linkClass then (true, m.describeField v Link.key)
    else (false, m.describe usualDepth v)
  | .error f => (false, .error f)

/-- What the literals of a method are, if it has any. -/
def describeLiterals (m : Machine) (method : Value) :
    Except Fault (Option (List (Bool × Except Fault Description))) := do
  let literals ← m.memory.getPtr method Method.literals
  if literals = m.nil then return none
  else
    let size ← m.memory.size literals
    let values ← (List.range size).mapM (m.memory.getPtr literals)
    return some (values.map m.describeLiteral)

/-- All about a method. -/
def describeMethod (m : Machine) (method : Value) : Except Fault MethodDescription := do
  let literals ← m.describeLiterals method
  return {
    selector := m.describeField method Method.selector
    text := m.describeField method Method.text
    code := m.describeField method Method.code
    args := m.describeField method Method.argSize
    temps := m.describeField method Method.tempSize
    stack := m.describeField method Method.stackSize
    owner := m.describeField method Method.owner
    literals
    disassembly := m.disassemble method }

/-! ### The machine itself -/

/-- The class and the selector of the method that runs. -/
def location (m : Machine) : Option String :=
  let method := m.registers.get .method
  match m.memory.getPtr method Method.owner, m.memory.getPtr method Method.selector with
  | .ok cls, .ok selector =>
    match m.stringValue selector with
    | .ok text => some (m.className cls ++ ">>" ++ text)
    | .error _ => none
  | _, _ => none

/-- One line about the state of a machine. -/
def summary (m : Machine) : String :=
  "Machine \x7b ip: " ++ toString m.ip ++ ", sp: " ++ toString m.sp ++ ", running: "
    ++ toString m.running ++ ", used_bytes: " ++ toString m.memory.usedBytes ++ ", collections: "
    ++ toString m.memory.stats.collections ++ ", .. \x7d"

/-- The text of the next instruction, empty if there is none. -/
def nextInstructionText (m : Machine) : String :=
  match m.memory.getWord (m.registers.get .code) m.ip with
  | .ok word =>
    match Instruction.decode word with
    | .ok i => i.text
    | .error _ => ""
  | .error _ => ""

end Machine

end Smalltalk
