import Smalltalk.ClassFile.Load
import Smalltalk.Kernel

/-!
# Building a machine from a class file

A new machine has no objects, so the ones that everything else needs are made by hand, in an order
that works: first nil, at address zero, then false, true and the characters, all without a class;
then the classes, whose objects exist before any is filled in; then the table of symbols and
globals. After that classes and methods are filled in as when a class file is loaded, except that
every method has to compile. Collection is off meanwhile, so references stay valid.

## Main definitions

* `Machine.build`: a machine with the classes and methods of a class file
* `Machine.fresh`: a machine with the kernel
-/

namespace Smalltalk

open Layout

/-- Why a machine could not be built. -/
inductive BuildError where
  | load (e : LoadError)
  | missingClass (name : String)
  /-- A method does not compile, and where it stands. -/
  | compile (place : String) (e : CompileError)
  | settings (e : SettingsError)
deriving DecidableEq

namespace BuildError

/-- The error in words. -/
def message : BuildError → String
  | .load e => e.message
  | .missingClass name => "class " ++ name ++ " is required but was not defined"
  | .compile place e => "compiling " ++ place ++ ": " ++ e.message
  | .settings e => "invalid memory settings: " ++ e.message

end BuildError

/-- Effects on a machine that is being built. -/
abbrev Build := EStateM BuildError Machine

namespace Machine

/-- An effect of the machine as one of building. -/
@[inline] def building {α : Type} (act : Exec α) : Build α :=
  EStateM.adaptExcept (fun fault => .load (.machine fault)) act

/-- The classes that were made, by name. -/
abbrev ClassTable := List (String × Value)

/-- The class of this name, without which there can be no machine. -/
def required (classes : ClassTable) (name : String) : Build Value := do
  match classes.lookup name with
  | some cls => return cls
  | none => throw (.missingClass name)

/-- The class of this name, which a line of the class file mentions. -/
def mentioned (classes : ClassTable) (line : Nat) (name : String) : Build Value := do
  match classes.lookup name with
  | some cls => return cls
  | none => throw (.load (.unknownClass line name))

/-- Makes nil, false, true and the characters, which have no class yet. -/
def createPrimalObjects : Exec Unit := do
  setRegister .nil (← createObject .zeroRef 0 .pointers)
  setRegister .false (← createObject .zeroRef 0 .pointers)
  setRegister .true (← createObject .zeroRef 0 .pointers)
  for code in List.range 256 do
    let object ← createObject .zeroRef 1 .bytes
    onMemory (Memory.setByte object 0 (UInt8.ofNat code))
    setRegister (.character (UInt8.ofNat code)) object

/-- Makes the objects of all classes and metaclasses, empty, besides those in the table. -/
def createClasses (classes : ClassTable) : List ClassDefinition → Build ClassTable
  | [] => return classes
  | definition :: more => do
    let cls ← building do
      let metaclass ← createObject .zeroRef Behavior.size .pointers
      createObject metaclass Behavior.size .pointers
    if (classes.lookup definition.name).isSome then
      throw (.load (.classFile ⟨definition.line, .definedTwice definition.name⟩))
    else createClasses (classes ++ [(definition.name, cls)]) more

/-- The registers for classes, and the names of those classes. -/
def classRoots : List (Root × String) :=
  [(.shortIntegerClass, "ShortInteger"), (.floatClass, "Float"), (.characterClass, "Character"),
    (.stringClass, "String"), (.symbolClass, "Symbol"), (.linkClass, "Link"),
    (.methodClass, "Method"), (.arrayClass, "Array"), (.wordArrayClass, "WordArray"),
    (.methodContextClass, "MethodContext"), (.blockContextClass, "BlockContext"),
    (.metaclassClass, "Metaclass")]

/-- Puts the classes that the machine has to know into their registers. -/
def registerClasses (classes : ClassTable) : Build Unit := do
  for (root, name) in classRoots do
    let cls ← required classes name
    building (setRegister root cls)

/-- Changes the class of the object in a register. -/
def classify (root : Root) (cls : Value) : Exec Unit := do
  onMemory (Memory.setClass (← register root) cls)

/-- Gives the objects that were made without a class their classes. -/
def classifyAll (classes : ClassTable) : Build Unit := do
  building do
    let metaclass ← register .metaclassClass
    for (_, cls) in classes do
      onMemory (Memory.setClass (← read (·.classOf cls)) metaclass)
  let undefinedObject ← required classes "UndefinedObject"
  building (classify .nil undefinedObject)
  let falseClass ← required classes "False"
  building (classify .false falseClass)
  let trueClass ← required classes "True"
  building (classify .true trueClass)
  building do
    let characterClass ← register .characterClass
    for code in List.range 256 do
      classify (.character (UInt8.ofNat code)) characterClass

/-- Makes the table of symbols and globals, and globals for itself and for the classes. -/
def createGlobals (classes : ClassTable) : Build Unit := do
  let systemDictionary ← required classes "SystemDictionary"
  building do
    let smalltalk ← createObject systemDictionary Dictionary.size .pointers
    let table ← createObject (← register .arrayClass) Dictionary.systemBuckets .pointers
    setPtr smalltalk Dictionary.table table
    setRegister .smalltalk smalltalk
    setGlobal "Smalltalk" smalltalk
    for (name, cls) in classes do
      setGlobal name cls

/-- Fills in a class. -/
def buildClass (classes : ClassTable) (rootMetaclass : Value) (definition : ClassDefinition) :
    Build Unit := do
  let cls ← mentioned classes definition.line definition.name
  let nil ← building (look nil)
  let superclass ←
    match definition.superclass with
    | none => pure nil
    | some name => mentioned classes definition.line name
  let superMetaclass ←
    if superclass = nil then pure rootMetaclass else building (read (·.classOf superclass))
  discard (building (initClass cls superclass superMetaclass definition))

/-- Compiles and installs a method, which has to compile. -/
def buildMethodOf (target : Value) (method : MethodSource) : Build Unit := do
  let name ← building (look (·.className target))
  let object ←
    EStateM.adaptExcept (BuildError.compile (methodPlace name method))
      (compile method.text target false)
  building (installMethod target object)

/-- Compiles and installs the methods of a section. -/
def buildSection (classes : ClassTable) (s : MethodSection) : Build Unit := do
  let cls ← mentioned classes s.line s.className
  let target ← if s.classSide then building (read (·.classOf cls)) else pure cls
  for method in s.methods do
    buildMethodOf target method

/-- Builds everything that a class file tells. -/
def buildFrom (file : ClassFile) : Build Unit := do
  building createPrimalObjects
  let classes ← createClasses [] file.classes
  registerClasses classes
  let rootMetaclass ← required classes "Class"
  classifyAll classes
  createGlobals classes
  for definition in file.classes do
    buildClass classes rootMetaclass definition
  for s in file.sections do
    buildSection classes s

/-- A machine with the classes and methods of a class file. -/
def build (settings : Settings) (text : String) : Except BuildError Machine := do
  let file ← (ClassFile.ofText text).mapError fun e => .load (.classFile e)
  let memory ← (Memory.create { settings with gcEnabled := false }).mapError .settings
  match (buildFrom file).run (empty memory) with
  | .error e _ => .error e
  | .ok _ m =>
    return { m with
      memory := m.memory.setGcEnabled settings.gcEnabled
      registers := m.registers.clearRunning }

/-- A machine with the kernel. -/
def fresh (settings : Settings) : Except BuildError Machine := build settings Kernel.text

end Machine

end Smalltalk
