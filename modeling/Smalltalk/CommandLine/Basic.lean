import Smalltalk.ClassFile.Build
import Smalltalk.CommandLine.Files
import Smalltalk.CommandLine.Options
import Smalltalk.Image.Basic
import Smalltalk.Machine.Inspect
import Smalltalk.Machine.Step

/-!
# The command line

A run opens a machine, from an image if there is one, loads class files, and then evaluates the
expressions it was given, or else lines of its input until they end. What is printed goes where the
machine writes, complaints go to a text of their own. At the end the image is saved if that was
asked for or if the machine was shut down.

A run is a function: it takes the files it may use and all of its input, and answers what it wrote,
its exit code and the files afterwards.

## Main definitions

* `Shell`, `Session`: a run under way, and its effects
* `runCommandLine`: a whole run
-/

namespace Smalltalk

/-- A run under way. -/
structure Shell where
  machine : Machine
  files : Files
  /-- Complaints so far. -/
  errors : String := ""

/-- What a run leaves behind. -/
structure Outcome where
  output : ByteArray
  errors : String
  code : Nat
  files : Files
  /-- What the machine reported. -/
  events : List Event

/-- Effects of a run, which may end it at once with an exit code. -/
abbrev Session := EStateM Nat Shell

namespace Shell

/-- Complains. -/
def complain (text : String) : Session Unit :=
  modify fun s => { s with errors := s.errors ++ text ++ "\n" }

/-- Complains and ends the run. -/
def abort {α : Type} (text : String) : Session α := do
  complain text
  throw 1

/-- An effect of the machine that goes on after an error. -/
def attempt {ε α : Type} (act : EStateM ε Machine α) : Session (Except ε α) :=
  fun ⟨machine, files, errors⟩ =>
    match act machine with
    | .ok a machine => .ok (.ok a) ⟨machine, files, errors⟩
    | .error e machine => .ok (.error e) ⟨machine, files, errors⟩

/-- Looks at the machine. -/
def look {α : Type} (f : Machine → α) : Session α := do return f (← get).machine

/-- Prints text where the machine writes. -/
def print (text : String) : Session Unit := do
  discard (attempt (Machine.write (Text.utf8 text)))

/-- Complains about a fault, and where it arose, and ends the run. -/
def fatal {α : Type} (fault : Fault) : Session α := do
  match ← look Machine.location with
  | some place => abort ("fatal: " ++ fault.message ++ " (in " ++ place ++ ")")
  | none => abort ("fatal: " ++ fault.message)

/-! ### Evaluating -/

/-- How an evaluation ended: with a text to print, with a complaint, or with the machine shut down.
-/
inductive Evaluation where
  | text (s : String)
  | complaint (s : String)
  | shutDown

/-- Evaluates source. Faults end the run. -/
def evaluate (steps : Nat) (source : String) : Session Evaluation := do
  match ← attempt (Machine.evaluate steps source) with
  | .error (.machine fault) => fatal fault
  | .error e => return .complaint e.message
  | .ok (.returned value) =>
    match ← attempt (Machine.printString steps value) with
    | .ok text => return .text text
    | .error fault => fatal fault
  | .ok _ => return .shutDown

/-- Evaluates expressions and prints their values, until one shuts the machine down. Answers whether
one did. -/
def evaluateAll (steps : Nat) : List String → Session Bool
  | [] => return false
  | source :: sources => do
    match ← evaluate steps source with
    | .text text =>
      print (text ++ "\n")
      evaluateAll steps sources
    | .complaint text => abort ("Error: " ++ text)
    | .shutDown => return true

/-- Evaluates lines of the input, at most so many, until there are no more, one of them is `exit` or
the machine is shut down. Answers whether it was. -/
def interact (steps : Nat) : Nat → Session Bool
  | 0 => return false
  | lines + 1 => do
    print "> "
    match ← attempt Machine.takeLine with
    | .error fault => fatal fault
    | .ok line =>
      let source := String.ofList (Text.trim line)
      if line.isEmpty || source = "exit" then return false
      else if source = "" then interact steps lines
      else
        match ← evaluate steps source with
        | .text text =>
          print (text ++ "\n")
          interact steps lines
        | .complaint text =>
          complain ("Error: " ++ text)
          interact steps lines
        | .shutDown => return true

/-- The instructions of an expression. -/
def listing (source : String) : Compile String := do
  let cls ← Machine.compiling (Machine.read fun m => m.classOf m.nil)
  let method ← Machine.compile ("doIt\n" ++ source) cls true
  Machine.compiling (Machine.read (·.disassemble method))

/-- Compiles an expression and prints its instructions. -/
def dump (source : String) : Session Unit := do
  match ← attempt (listing source) with
  | .ok text => print ("== " ++ source ++ " ==\n" ++ text)
  | .error e => abort ("Error compiling " ++ source ++ ": " ++ e.message)

/-! ### Files -/

/-- Loads a class file. Methods that do not compile are complained about. -/
def loadFile (name : String) : Session Unit := do
  match (← get).files.read name with
  | .error e => abort ("Error reading file '" ++ name ++ "': " ++ e.message)
  | .ok bytes =>
    match String.fromUTF8? ⟨bytes.toArray⟩ with
    | none => abort ("Error reading file '" ++ name ++ "': " ++ FileError.notText.message)
    | some text =>
      match ← attempt (Machine.loadText text) with
      | .ok report =>
        for failure in report.failures do
          complain (name ++ ": " ++ failure)
      | .error e => abort ("Error filing in " ++ name ++ ": " ++ e.message)

/-- Writes the image to a file, which is emptied first. What has been written before an error stays
in the file. -/
def save (name : String) : Session (Except ImageError Unit) := do
  match (← get).files.create name with
  | .error e => return .error (.file e)
  | .ok (location, files) =>
    let saved := Image.attempt (← get).machine
    modify fun s => { s with machine := saved.machine, files := files.put location saved.written }
    return saved.result

/-! ### A run -/

/-- What a run does once there is a machine. -/
def run (steps : Nat) (o : Options) : Session Unit := do
  for name in o.classFiles do
    loadFile name
  if o.dumpBytecode then
    for source in o.expressions do
      dump source
  else
    let isShutDown ←
      if o.expressions.isEmpty then
        print "semitalk\nType 'exit' to quit.\n"
        interact steps ((← look (·.input.length)) + 1)
      else evaluateAll steps o.expressions
    if o.save || isShutDown then
      match ← save o.image with
      | .ok () => return ()
      | .error e => abort ("Error saving image " ++ o.image ++ ": " ++ e.message)

end Shell

/-- The machine of a run: that of the image if there is one, or else a fresh one. -/
def openMachine (o : Options) (files : Files) : Except String Machine :=
  let settings : Settings :=
    match o.semispaceSize with
    | some semispaceSize => { semispaceSize }
    | none => {}
  if o.fresh || !files.reaches o.image then
    (Machine.fresh settings).mapError fun e => "bootstrap failed: " ++ e.message
  else
    let machine :=
      match files.read o.image with
      | .ok bytes => (Image.read settings bytes).1
      | .error e => .error (.file e)
    machine.mapError fun e => "cannot load " ++ o.image ++ ": " ++ e.message

/-- A whole run. Code may take at most so many steps in each call; what the machine reports is kept
from the level `threshold` on. -/
def runCommandLine (steps : Nat) (threshold : Option Level) (o : Options) (files : Files)
    (input : String) : Outcome :=
  match openMachine o files with
  | .error e => ⟨ByteArray.empty, "Error: " ++ e ++ "\n", 1, files, []⟩
  | .ok machine =>
    let machine :=
      { machine with tracing := o.trace, input := input.toList, log := { threshold } }
    match (Shell.run steps o).run { machine, files } with
    | .ok _ s => ⟨s.machine.output, s.errors, 0, s.files, s.machine.log.events.toList⟩
    | .error code s => ⟨s.machine.output, s.errors, code, s.files, s.machine.log.events.toList⟩

end Smalltalk
