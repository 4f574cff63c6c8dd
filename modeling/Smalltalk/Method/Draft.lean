import Smalltalk.Instruction
import Smalltalk.Method.Names
import Smalltalk.Primitive
import Smalltalk.Source.Tree

/-!
# Drafts of methods

A draft is a compiled method before any object is made for it: its instructions, what its literals
are, and how much room its contexts need.

Code leaves the value of an expression on the operand stack if it is needed, and nothing otherwise.
A block is an instruction that makes it, a jump past its body, and the body; the jump's target and
the stack size of the block are filled in when the body is there.

`Emission` counts how deep the stack is as instructions are emitted; the deepest point is the stack
size. A block counts for itself, from its arguments on.

## Main definitions

* `Draft`: a compiled method
* `Draft.ofTree`: compiles a tree
-/

namespace Smalltalk

/-- What a literal of a method is. -/
inductive LiteralEntry where
  | constant (value : Literal)
  /-- The symbol of a message. -/
  | selector (name : String)
  /-- The link of a global. -/
  | global (name : String)

namespace LiteralEntry

/-- Selectors and globals are shared: are these two the same? -/
def sameAs : LiteralEntry → LiteralEntry → Bool
  | .selector a, .selector b => a == b
  | .global a, .global b => a == b
  | _, _ => false

end LiteralEntry

/-- A compiled method. -/
structure Draft where
  selector : String
  code : Array Instruction
  literals : Array LiteralEntry
  argSize : Nat
  tempSize : Nat
  stackSize : Nat

/-- What has been emitted so far. -/
structure Emission where
  code : Array Instruction := #[]
  literals : Array LiteralEntry := #[]
  /-- How many slots have been given to variables. -/
  temps : Nat := 0
  /-- How many operands there are on the stack. -/
  depth : Int := 0
  /-- The most operands there have been. -/
  maxDepth : Int := 0
  /-- The line of the last expression that was begun. -/
  line : Nat := 1

/-- Effects on an emission. -/
abbrev Emit := StateT Emission (Except CompileError)

namespace Literal

mutual

/-- The first integer of a literal that is not a small integer. -/
def tooLarge? : Literal → Option Int
  | .integer n => if (SmallInt.ofInt? n).isNone then some n else none
  | .array items => tooLargeIn? items
  | _ => none

/-- The first integer of literals that is not a small integer. -/
def tooLargeIn? : List Literal → Option Int
  | [] => none
  | item :: items => (tooLarge? item).or (tooLargeIn? items)

end

end Literal

namespace Emission

/-- The error that something has no meaning. -/
def fail {α : Type} (line : Nat) (cause : SemanticCause) : Emit α :=
  throw (.semantic ⟨line, cause⟩)

/-- Emits an instruction and answers its position. -/
def emit (i : Instruction) : Emit Nat := do
  let position := (← get).code.size
  if 65535 ≤ position then fail (← get).line .methodTooLarge
  else
    modify fun e =>
      let depth := e.depth + i.stackEffect
      { e with code := e.code.push i, depth, maxDepth := max e.maxDepth depth }
    return position

/-- The number of a literal. Selectors and globals that are there already are used again. -/
def literal (entry : LiteralEntry) (line : Nat) : Emit UInt16 := do
  match (← get).literals.findIdx? (·.sameAs entry) with
  | some i => return UInt16.ofNat i
  | none =>
    let position := (← get).literals.size
    if position < 65536 then
      modify fun e => { e with literals := e.literals.push entry }
      return UInt16.ofNat position
    else fail line .tooManyLiterals

/-- A slot for another variable. -/
def newSlot (line : Nat) : Emit UInt16 := do
  let slot := (← get).temps
  if slot < 65536 then
    modify fun e => { e with temps := slot + 1 }
    return UInt16.ofNat slot
  else fail line .tooManyTemporaries

/-- Slots for declared variables, which must have different names; `taken`, the latest first, have
them already. -/
def declare (names : Names) (line : Nat) (duplicate : String → SemanticCause) (taken : Scope) :
    List String → Emit Scope
  | [] => return taken.reverse
  | name :: more => do
    names.checkDeclaration name line
    if taken.any (·.1 = name) then fail line (duplicate name)
    else
      let slot ← newSlot line
      declare names line duplicate ((name, slot) :: taken) more

/-- Pushes what a name stands for. -/
def pushVariable (v : Variable) (line : Nat) : Emit Unit := do
  let i ←
    match v with
    | .receiver => pure .pushSelf
    | .nil => pure .pushNil
    | .true => pure .pushTrue
    | .false => pure .pushFalse
    | .temp slot => pure (.pushTemp slot)
    | .arg index => pure (.pushArg index)
    | .instanceVariable index => pure (.pushInstance index)
    | .global name => Instruction.pushGlobal <$> literal (.global name) line
  discard (emit i)

/-- The instruction that assigns to a variable. Arguments and reserved words cannot be assigned to.
-/
def storeVariable (v : Variable) (name : String) (line : Nat) : Emit Instruction := do
  match v with
  | .temp slot => return .storeTemp slot
  | .instanceVariable index => return .storeInstance index
  | .global name => return .storeGlobal (← literal (.global name) line)
  | _ => fail line (.cannotAssign name)

/-- Pushes a literal. -/
def pushLiteral (value : Literal) (line : Nat) : Emit Unit := do
  match value.tooLarge? with
  | some n => fail line (.integerOutOfRange n)
  | none => discard (emit (.pushConst (← literal (.constant value) line)))

/-- Drops a value that is not needed. -/
def dropUnless (needed : Bool) : Emit Unit := do
  unless needed do discard (emit .drop)

/-- A count as a small operand. -/
def smallOperand (n line : Nat) (cause : SemanticCause) : Emit UInt8 :=
  if n < 256 then return UInt8.ofNat n else fail line cause

/-- Starts a block: its two instructions, which are not complete yet, and their position. -/
def openBlock (argc : UInt8) : Emit Nat := do
  let start ← emit (.pushBlock argc 0)
  discard (emit (.jump 0))
  return start

/-- Stores the arguments of a block, the first of which is on top of the stack, in their slots. -/
def storeParameters : Scope → Emit Unit
  | [] => return ()
  | (_, slot) :: more => do
    discard (emit (.storeTemp slot))
    storeParameters more

/-- Completes the block that starts at a position, now that its body is there. -/
def closeBlock (start : Nat) (argc : UInt8) (line : Nat) (depth maxDepth : Int) : Emit Unit := do
  let stackSize := (← get).maxDepth.toNat
  let size := (← get).code.size
  if 65536 ≤ stackSize then fail line .blockStackTooDeep
  else if 65536 ≤ size then fail line .methodTooLarge
  else
    modify fun e =>
      { e with
        depth, maxDepth
        code := (e.code.setIfInBounds start
          (.pushBlock argc (UInt16.ofNat stackSize))).setIfInBounds
          (start + 1) (.jump (UInt16.ofNat size)) }

mutual

/-- Emits an expression. -/
def expr (names : Names) (needed : Bool) : Expr → Emit Unit
  | .name name line => do
    modify ({ · with line })
    let v ← names.resolve name line
    if needed then pushVariable v line
  | .literal value line => do
    modify ({ · with line })
    if needed then pushLiteral value line
  | .assign name value line => do
    modify ({ · with line })
    let store ← storeVariable (← names.resolve name line) name line
    expr names true value
    if needed then discard (emit .dup)
    discard (emit store)
  | .send receiver message => do
    modify ({ · with line := receiver.line })
    expr names true receiver
    messageSend names receiver.isSuper message
    dropUnless needed
  | .cascade receiver messages => do
    modify ({ · with line := receiver.line })
    expr names true receiver
    cascade names receiver.isSuper needed messages
  | .block (.mk params temps body line) => do
    modify ({ · with line })
    let argc ← smallOperand params.length line .tooManyBlockParameters
    let start ← openBlock argc
    let (depth, maxDepth) ← modifyGet fun e =>
      ((e.depth, e.maxDepth), { e with depth := argc.toNat, maxDepth := argc.toNat })
    let scope ← declare names line .duplicateBlockVariable [] (params ++ temps)
    storeParameters (scope.take params.length)
    blockBody { names with scopes := scope :: names.scopes } body
    closeBlock start argc line depth maxDepth
    dropUnless needed
  | .primitive number args line => do
    modify ({ · with line })
    if (Primitive.ofNumber? number).isNone then fail line (.unknownPrimitive number)
    else
      exprs names args
      let argc ← smallOperand args.length line .tooManyPrimitiveArguments
      discard (emit (.primitive argc number))
      dropUnless needed

/-- Emits expressions whose values are all needed. -/
def exprs (names : Names) : List Expr → Emit Unit
  | [] => return ()
  | e :: es => do
    expr names true e
    exprs names es

/-- Emits the arguments of a message and the send. The receiver is on the stack already. -/
def messageSend (names : Names) (toSuper : Bool) : Message → Emit Unit
  | .mk selector args line => do
    exprs names args
    let argc ← smallOperand args.length line .tooManyMessageArguments
    let entry ← literal (.selector selector) line
    discard (emit (if toSuper then .sendSuper argc entry else .send argc entry))

/-- Emits messages to the receiver on the stack, of which every one but the last needs a copy. -/
def cascade (names : Names) (toSuper needed : Bool) : List Message → Emit Unit
  | [] => return ()
  | [message] => do
    messageSend names toSuper message
    dropUnless needed
  | message :: messages => do
    discard (emit .dup)
    messageSend names toSuper message
    discard (emit .drop)
    cascade names toSuper needed messages

/-- Emits a statement whose value is not needed. -/
def statement (names : Names) : Statement → Emit Unit
  | .evaluate e => expr names false e
  | .answer e => do
    expr names true e
    discard (emit .returnMethod)

/-- Emits the body of a block, which answers its last value, or nil if it is empty. -/
def blockBody (names : Names) : List Statement → Emit Unit
  | [] => do
    discard (emit .pushNil)
    discard (emit .returnBlock)
  | [.answer e] => do
    expr names true e
    discard (emit .returnMethod)
  | [.evaluate e] => do
    expr names true e
    discard (emit .returnBlock)
  | s :: rest => do
    statement names s
    blockBody names rest

end

/-- Emits the body of a method. It answers the receiver, unless a return comes last or the value of
the last statement is needed. -/
def methodBody (names : Names) (needed : Bool) : List Statement → Emit Unit
  | [] => do
    discard (emit .pushSelf)
    discard (emit .returnMethod)
  | [.answer e] => do
    expr names true e
    discard (emit .returnMethod)
  | [.evaluate e] => do
    expr names needed e
    unless needed do discard (emit .pushSelf)
    discard (emit .returnMethod)
  | s :: rest => do
    statement names s
    methodBody names needed rest

/-- Checks the names of arguments, `taken` being those before them. -/
def checkArguments (names : Names) (taken : NameTree) : List String → Emit Unit
  | [] => return ()
  | name :: more => do
    names.checkDeclaration name 1
    if taken.contains name then fail 1 (.duplicateArgument name)
    else checkArguments names (taken.insert name) more

/-- Emits a whole method. -/
def method (names : Names) (tree : MethodTree) (needed : Bool) : Emit Unit := do
  checkArguments names .none tree.args
  let names := { names with args := tree.args }
  let scope ← declare names 1 .duplicateTemporary [] tree.temps
  methodBody { names with scopes := [scope] } needed tree.body

end Emission

namespace Draft

/-- Compiles a tree for a class with these instance variables. `valueNeeded` asks for the value of
the last statement. -/
def ofTree (instanceVariables : List String) (isGlobal : String → Except Fault Bool)
    (tree : MethodTree) (valueNeeded : Bool) : Except CompileError Draft := do
  let names : Names := ⟨instanceVariables, [], [], isGlobal⟩
  let ((), e) ← (Emission.method names tree valueNeeded).run {}
  return ⟨tree.selector, e.code, e.literals, tree.args.length, e.temps, e.maxDepth.toNat⟩

end Draft

end Smalltalk
