import Smalltalk.Instruction
import Smalltalk.Primitive
import Smalltalk.Source.Error
import Smalltalk.Text.Align

/-!
# What a machine reports about itself

A machine can be asked to keep a record of what it does. A record is an `Event`; its level and its
wording are functions of it. The host chooses from which level on events are kept.
-/

namespace Smalltalk

/-- How much an event matters, from the most to the least. -/
inductive Level where
  | warn
  | info
  | debug
  | trace
deriving DecidableEq

namespace Level

/-- The place of a level, counted from the one that matters most. -/
def rank : Level → Nat
  | .warn => 1
  | .info => 2
  | .debug => 3
  | .trace => 4

/-- The name of a level. -/
def name : Level → String
  | .warn => "WARN"
  | .info => "INFO"
  | .debug => "DEBUG"
  | .trace => "TRACE"

end Level

/-- Something that happened. -/
inductive Event where
  /-- An instruction is about to run; `traced` if the machine was asked to trace. -/
  | instruction (traced : Bool) (ip sp : Nat) (instruction : Instruction)
  | primitive (p : Primitive)
  /-- A collection, with what was allocated since the one before and what survived. -/
  | collection (number bytesSince objectsSince bytesCopied objectsCopied free : Nat)
  | compiled (className selector : String) (instructions literals : Nat)
  | notCompiled (e : CompileError)
  | halted (text : String)
  | classKept (name : String)
  | classDefined (name : String)
  | methodSkipped (reason : String)
  | loaded (classes methods failures : Nat)
  /-- An image of another minor version was read. -/
  | minorVersion (found expected : Nat)

namespace Event

/-- How much an event matters. -/
def level : Event → Level
  | .instruction traced .. => if traced then .info else .trace
  | .primitive _ => .trace
  | .collection .. => .debug
  | .compiled .. => .trace
  | .notCompiled _ => .warn
  | .halted _ => .info
  | .classKept _ => .debug
  | .classDefined _ => .debug
  | .methodSkipped _ => .warn
  | .loaded .. => .info
  | .minorVersion .. => .debug

/-- An event in words. -/
def text : Event → String
  | .instruction _ ip sp i =>
    Text.alignRight 5 (toString ip) ++ " [" ++ toString sp ++ "] " ++ i.text
  | .primitive p => "primitive " ++ toString p.number.toNat ++ " " ++ p.name
  | .collection number bytesSince objectsSince bytesCopied objectsCopied free =>
    "gc #" ++ toString number ++ ": allocated " ++ toString bytesSince ++ " bytes in "
      ++ toString objectsSince ++ " objects, copied " ++ toString bytesCopied ++ " bytes in "
      ++ toString objectsCopied ++ " objects, " ++ toString free ++ " bytes free"
  | .compiled className selector instructions literals =>
    "compiled " ++ className ++ ">>" ++ selector ++ " (" ++ toString instructions
      ++ " instructions, " ++ toString literals ++ " literals)"
  | .notCompiled e => "compilation failed: " ++ e.message
  | .halted text => "halt: " ++ text ++ "; tracing enabled"
  | .classKept name => "file-in: class " ++ name ++ " already exists, keeping it"
  | .classDefined name => "file-in: defined class " ++ name
  | .methodSkipped reason => "file-in: " ++ reason
  | .loaded classes methods failures =>
    "file-in: " ++ toString classes ++ " classes defined, " ++ toString methods
      ++ " methods installed, " ++ toString failures ++ " failed"
  | .minorVersion found expected =>
    "image minor version " ++ toString found ++ ", expected " ++ toString expected

end Event

/-- The events kept so far. -/
structure Log where
  /-- Events that matter less are not kept; without a threshold none is. -/
  threshold : Option Level := none
  events : Array Event := #[]

namespace Log

/-- Is an event of this level kept? -/
@[inline] def keeps (log : Log) (level : Level) : Bool :=
  match log.threshold with
  | none => false
  | some threshold => level.rank ≤ threshold.rank

/-- Adds an event if it is to be kept. -/
@[inline] def add (log : Log) (event : Event) : Log :=
  if log.keeps event.level then { log with events := log.events.push event } else log

end Log

end Smalltalk
