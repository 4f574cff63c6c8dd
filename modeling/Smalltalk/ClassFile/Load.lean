import Smalltalk.ClassFile.Basic
import Smalltalk.Method.Build

/-!
# Loading class files into a machine

Loading a class file defines its classes and then compiles and installs its methods, in order. A
class that is there already stays as it is. A method that does not compile is skipped and reported;
an unknown class ends the loading, and what was done before stays done.

A class is made together with its metaclass, the class of which it is the only instance. The
superclass of the metaclass is the metaclass of the superclass, and for a root class the class
`Class`.

## Main definitions

* `Machine.initClass`: fills in a new class and its metaclass
* `Machine.load`, `Machine.loadText`: loads a class file
-/

namespace Smalltalk

open Layout

/-- Why a class file could not be loaded. -/
inductive LoadError where
  | classFile (e : ClassFileError)
  | unknownClass (line : Nat) (name : String)
  | machine (fault : Fault)
deriving DecidableEq

namespace LoadError

/-- The error in words. -/
def message : LoadError → String
  | .classFile e => e.message
  | .unknownClass line name =>
    "class file line " ++ toString line ++ ": unknown class " ++ name
  | .machine fault => fault.message

end LoadError

/-- What loading a class file did. -/
structure LoadReport where
  classes : Nat
  methods : Nat
  /-- One message for each method that does not compile. -/
  failures : List String
deriving DecidableEq

/-- Effects on a machine that may also end because of a class file. -/
abbrev Load := EStateM LoadError Machine

namespace Machine

/-- An effect of the machine as one that loads. -/
@[inline] def loading {α : Type} (act : Exec α) : Load α := EStateM.adaptExcept .machine act

/-! ### Classes -/

/-- Puts the names of variables into the field of the held class, from place `i` on. -/
def fillVariables (base i : Nat) : List String → Exec Unit
  | [] => return ()
  | name :: names => do
    let symbol ← newSymbol name
    setPtr (← getPtr (← held base) Behavior.variableNames) i symbol
    fillVariables base (i + 1) names

/-- Gives the held class the names of its variables, if there are any. -/
def addVariables (base : Nat) (variableNames : List String) : Exec Unit := do
  unless variableNames.isEmpty do
    let array ← createObject (← register .arrayClass) variableNames.length .pointers
    setPtr (← held base) Behavior.variableNames array
    fillVariables base 0 variableNames

/-- Fills in the class held at `base`, whose superclass is held behind it. -/
def fillClass (base inherited : Nat) (definition : ClassDefinition) : Exec Unit := do
  let name ← newSymbol definition.name
  setPtr (← held base) Behavior.name name
  setPtr (← held base) Behavior.instanceType (.ofByte (UInt8.ofNat definition.shape.code))
  let size ← check (smallValue "class" (inherited + definition.variableNames.length))
  setPtr (← held base) Behavior.instanceSize size
  setPtr (← held base) Behavior.superclass (← held (base + 1))
  let methods ← newMethodDictionary
  setPtr (← held base) Behavior.methods methods
  addVariables base definition.variableNames

/-- Changes a field of the metaclass of the held class. -/
def setMetaclassField (base field : Nat) (value : Value) : Exec Unit := do
  let cls ← held base
  setPtr (← read (·.classOf cls)) field value

/-- Fills in the metaclass of the class held at `base`, whose superclass is held two places behind.
-/
def fillMetaclass (base : Nat) (name : String) : Exec Unit := do
  let symbol ← newSymbol (name ++ " class")
  setMetaclassField base Behavior.name symbol
  setMetaclassField base Behavior.instanceType (.ofByte (UInt8.ofNat ClassShape.fixed.code))
  setMetaclassField base Behavior.instanceSize (.ofByte (UInt8.ofNat Behavior.size))
  setMetaclassField base Behavior.superclass (← held (base + 2))
  let methods ← newMethodDictionary
  setMetaclassField base Behavior.methods methods

/-- Fills in a class and its metaclass, given the superclasses of both. The class is answered as it
is afterwards. -/
def initClass (cls superclass superMetaclass : Value) (definition : ClassDefinition) :
    Exec Value := do
  let nil ← look nil
  let inherited ←
    if superclass = nil then pure 0
    else read (·.indexField superclass Behavior.instanceSize)
  let ((), cls, _) ← holding₃ cls superclass superMetaclass fun base => do
    fillClass base inherited definition
    fillMetaclass base definition.name
  return cls

/-- The class of this name, which must exist. -/
def requireClass (line : Nat) (name : String) : Load Value := do
  match ← loading (read (·.lookupClass name)) with
  | some cls => return cls
  | none => throw (.unknownClass line name)

/-- Makes a class and its metaclass, and a global for the class. -/
def defineClass (definition : ClassDefinition) : Load Unit := do
  let nil ← loading (look nil)
  let superclass ←
    match definition.superclass with
    | none => pure nil
    | some name => requireClass definition.line name
  let superMetaclass ←
    if superclass = nil then requireClass definition.line "Class"
    else loading (read (·.classOf superclass))
  loading do
    let (cls, superclass, superMetaclass) ← holding₂ superclass superMetaclass fun _ => do
      let metaclass ← createObject (← register .metaclassClass) Behavior.size .pointers
      createObject metaclass Behavior.size .pointers
    let cls ← initClass cls superclass superMetaclass definition
    setGlobal definition.name cls
    report (.classDefined definition.name)

/-- Defines those classes that do not exist, and answers how many they were. -/
def defineClasses : List ClassDefinition → Load Nat
  | [] => return 0
  | definition :: more => do
    match ← loading (read (·.lookupClass definition.name)) with
    | some _ =>
      loading (report (.classKept definition.name))
      defineClasses more
    | none =>
      defineClass definition
      return (← defineClasses more) + 1

/-! ### Methods -/

/-- The class or metaclass that the methods of a section are for. -/
def sectionTarget (s : MethodSection) : Load Value := do
  let cls ← requireClass s.line s.className
  if s.classSide then loading (read (·.classOf cls)) else return cls

/-- Where a method stands, for messages. -/
def methodPlace (className : String) (method : MethodSource) : String :=
  className ++ " (method at line " ++ toString method.line ++ ")"

/-- Runs what compiles; only a fault of the machine ends it. -/
def attemptLoad {α : Type} (act : Compile α) : Load (Except CompileError α) := fun m =>
  match act m with
  | .ok a m => .ok (.ok a) m
  | .error (.machine fault) m => .error (.machine fault) m
  | .error e m => .ok (.error e) m

/-- Compiles and installs a method. If it does not compile, the message is answered. The class is
looked up again after compiling, which may have moved it. -/
def loadMethod (s : MethodSection) (method : MethodSource) : Load (Option String) := do
  match ← attemptLoad (compile method.text (← sectionTarget s) false) with
  | .ok object =>
    let target ← sectionTarget s
    loading (installMethod target object)
    return none
  | .error e =>
    let failure := methodPlace s.className method ++ ": " ++ e.message
    loading (report (.methodSkipped failure))
    return some failure

/-- Loads a class file. -/
def load (file : ClassFile) : Load LoadReport := do
  let classes ← defineClasses file.classes
  let outcomes ← file.sections.flatMapM fun s => s.methods.mapM (loadMethod s)
  let failures := outcomes.filterMap id
  let methods := outcomes.length - failures.length
  loading (report (.loaded classes methods failures.length))
  return ⟨classes, methods, failures⟩

/-- Loads a class file given as text. -/
def loadText (text : String) : Load LoadReport := do
  match ClassFile.ofText text with
  | .ok file => load file
  | .error e => throw (.classFile e)

end Machine

end Smalltalk
