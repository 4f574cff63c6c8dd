import Smalltalk.Machine.Dictionary
import Smalltalk.Method.Draft
import Smalltalk.Source.Parser

/-!
# Method objects

`Machine.compile` turns source into a method object of the machine. Reading the source and compiling
it to a draft make no objects, so source that is not a method leaves the machine as it was. The
objects are made afterwards: while that goes on the method is in a register, and the class is held,
so that a collection may come at any point.

## Main definitions

* `Compile`: effects that may end because of the source
* `Machine.materialize`: the object of a literal
* `Machine.buildMethod`: the object of a draft
* `Machine.compile`
-/

namespace Smalltalk

open Layout

/-- Effects on a machine that may also end because of the source. -/
abbrev Compile := EStateM CompileError Machine

namespace Machine

/-- An effect of the machine as one that compiles. -/
@[inline] def compiling {α : Type} (act : Exec α) : Compile α := EStateM.adaptExcept .machine act

/-- A check of source as an effect that compiles. -/
@[inline] def checking {α : Type} (f : Machine → Except CompileError α) : Compile α := fun m =>
  match f m with
  | .ok a => .ok a m
  | .error e => .error e m

/-! ### Objects of literals -/

mutual

/-- The object of a literal. -/
def materialize : Literal → Exec Value
  | .integer n =>
    match Value.ofInt? n with
    | some v => return v
    | none => throw (.valueOutOfRange "literal" n)
  | .float x => newFloat x
  | .character b => look (·.character b)
  | .string s => newString s
  | .symbol s => newSymbol s
  | .nil => look nil
  | .true => look (·.boolean true)
  | .false => look (·.boolean false)
  | .array items => do
    let array ← createObject (← register .arrayClass) items.length .pointers
    let ((), array) ← holding array fun place => materializeInto place 0 items
    return array

/-- Puts the objects of literals into the held array, from place `i` on. -/
def materializeInto (place i : Nat) : List Literal → Exec Unit
  | [] => return ()
  | item :: items => do
    let value ← materialize item
    setPtr (← held place) i value
    materializeInto place (i + 1) items

end

/-- The object of an entry of the literals. -/
def materializeEntry : LiteralEntry → Exec Value
  | .constant value => materialize value
  | .selector name => newSymbol name
  | .global name => globalLink name

/-! ### Building a method -/

/-- Changes a field of the method being compiled. -/
def setMethodField (field : Nat) (value : Value) : Exec Unit := do
  setPtr (← register .compilerMethod) field value

/-- Puts words into a word object, from place `i` on. -/
def fillWords (object : Value) (i : Nat) : List UInt32 → Exec Unit
  | [] => return ()
  | w :: ws => do
    onMemory (Memory.setWord object i w)
    fillWords object (i + 1) ws

/-- A word object with the given words. -/
def newWords (words : List UInt32) : Exec Value := do
  let object ← createObject (← register .wordArrayClass) words.length .words
  fillWords object 0 words
  return object

/-- Puts the objects of literals into the method being compiled, from place `i` on. -/
def fillLiterals (i : Nat) : List LiteralEntry → Exec Unit
  | [] => return ()
  | entry :: entries => do
    let value ← materializeEntry entry
    setPtr (← getPtr (← register .compilerMethod) Method.literals) i value
    fillLiterals (i + 1) entries

/-- Gives the method being compiled its literals, if there are any. -/
def addLiterals (entries : List LiteralEntry) : Exec Unit := do
  unless entries.isEmpty do
    setMethodField Method.literals
      (← createObject (← register .arrayClass) entries.length .pointers)
    fillLiterals 0 entries

/-- Stores a count in the method being compiled. -/
def setMethodCount (field count : Nat) : Exec Unit := do
  setMethodField field (← check (smallValue "compile" count))

/-- Fills in the method being compiled. -/
def fillMethod (source : String) (draft : Draft) : Exec Unit := do
  setMethodField Method.text (← newString source)
  setMethodField Method.selector (← newSymbol draft.selector)
  setMethodField Method.code (← newWords (draft.code.toList.map Instruction.encode))
  addLiterals draft.literals.toList
  setMethodCount Method.argSize draft.argSize
  setMethodCount Method.tempSize draft.tempSize
  setMethodCount Method.stackSize draft.stackSize

/-- Takes the method out of its register. -/
def takeMethod : Exec Value := do
  let method ← register .compilerMethod
  setRegister .compilerMethod (← look nil)
  return method

/-- Makes the object of a draft for a class. -/
def buildMethod (source : String) (cls : Value) (draft : Draft) : Exec Value := do
  let ((), cls) ← holding cls fun _ => do
    setRegister .compilerMethod
      (← createObject (← register .methodClass) Method.size .pointers)
    fillMethod source draft
  setMethodField Method.owner cls
  takeMethod

/-! ### Compiling -/

/-- Is there a global of this name? -/
def isGlobal (m : Machine) (name : String) : Except Fault Bool := do
  return (← m.lookupGlobal name).isSome

/-- The draft of a method for a class with these instance variables. -/
def draft (m : Machine) (instanceVariables : List String) (tree : MethodTree) (valueNeeded : Bool) :
    Except CompileError Draft :=
  Draft.ofTree instanceVariables m.isGlobal tree valueNeeded

/-- The draft of a method for a class, from source. -/
def draftSource (m : Machine) (source : String) (cls : Value) (valueNeeded : Bool) :
    Except CompileError Draft := do
  let tree ← (MethodTree.ofSource (Text.utf8 source)).mapError .syntactic
  let instanceVariables ← (m.instanceVariables cls).mapError .machine
  m.draft instanceVariables tree valueNeeded

/-- Compiles source to a method of a class, which is not installed. If `valueNeeded`, a method
without a return answers the value of its last statement. -/
def compile (source : String) (cls : Value) (valueNeeded : Bool) : Compile Value := do
  checking fun m => if m.compiler = .ready then .ok () else .error (.machine .noCompiler)
  let draft ← checking fun m => m.draftSource source cls valueNeeded
  compiling do
    report (.compiled (← look (·.className cls)) draft.selector draft.code.size draft.literals.size)
    buildMethod source cls draft

end Machine

end Smalltalk
