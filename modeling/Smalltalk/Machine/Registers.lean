import Smalltalk.Memory.Collection

/-!
# The root registers

All references that keep objects alive are registers. Some hold objects the machine must find
without looking them up, and never change except when a collection moves those objects; thirteen
belong to the code that runs. Each has a number, and images store them in the order of their
numbers.

Besides there is a stack of scratch values: references that an operation holds while it allocates.

## Main definitions

* `Root`, `Root.index`: the registers and their numbers
* `Registers`, `Registers.get`, `Registers.set`
* `Registers.clearRunning`: forgets what was running
-/

namespace Smalltalk

/-- The named registers. -/
inductive Root where
  | nil
  | false
  | true
  /-- The dictionary of globals and symbols. -/
  | smalltalk
  /-- The character with this code. -/
  | character (code : UInt8)
  | shortIntegerClass
  | floatClass
  | characterClass
  | stringClass
  | symbolClass
  | linkClass
  | methodClass
  | arrayClass
  | wordArrayClass
  | methodContextClass
  | blockContextClass
  | metaclassClass
  | activeContext
  /-- The method context that the active context belongs to: itself, or that of the block. -/
  | homeContext
  | method
  | receiver
  | args
  | temps
  | stack
  | code
  | literals
  /-- The method about to be run. -/
  | newMethod
  /-- The context about to be run. -/
  | newContext
  /-- The method being compiled. -/
  | compilerMethod
  /-- The context in which a call from outside started. -/
  | entryContext
deriving DecidableEq

namespace Root

/-- How many registers there are. -/
abbrev count : Nat := 285

/-- The number of a register. -/
@[inline] def index : Root → Fin count
  | .nil => 0
  | .false => 1
  | .true => 2
  | .smalltalk => 3
  | .character b => ⟨4 + b.toNat, by have := b.toNat_lt; simp only [count]; omega⟩
  | .shortIntegerClass => 260
  | .floatClass => 261
  | .characterClass => 262
  | .stringClass => 263
  | .symbolClass => 264
  | .linkClass => 265
  | .methodClass => 266
  | .arrayClass => 267
  | .wordArrayClass => 268
  | .methodContextClass => 269
  | .blockContextClass => 270
  | .metaclassClass => 271
  | .activeContext => 272
  | .homeContext => 273
  | .method => 274
  | .receiver => 275
  | .args => 276
  | .temps => 277
  | .stack => 278
  | .code => 279
  | .literals => 280
  | .newMethod => 281
  | .newContext => 282
  | .compilerMethod => 283
  | .entryContext => 284

/-- The registers of the code that runs. -/
def running : List Root :=
  [.activeContext, .homeContext, .method, .receiver, .args, .temps, .stack, .code, .literals,
    .newMethod, .newContext, .compilerMethod, .entryContext]

end Root

/-- The contents of all registers. -/
structure Registers where
  /-- The named registers, by their numbers. -/
  named : Vector Value Root.count
  /-- Values held while something is allocated, the latest last. -/
  scratch : Array Value

namespace Registers

/-- Registers before there are any objects. -/
def empty : Registers := ⟨Vector.replicate _ Value.zeroRef, #[]⟩

/-- The value in a register. -/
@[inline] def get (r : Registers) (root : Root) : Value := r.named[root.index]

/-- Puts a value into a register. -/
@[inline] def set (r : Registers) (root : Root) (value : Value) : Registers :=
  { r with named := r.named.set root.index value }

/-- Forgets what was running: those registers hold nil, and no value is held. -/
def clearRunning (r : Registers) : Registers :=
  let nil := r.get .nil
  { Root.running.foldl (fun r root => r.set root nil) r with scratch := #[] }

/-- Named registers and held values are the roots, in this order. -/
instance : RootSet Registers where
  toArray r := r.named.toArray ++ r.scratch
  replace r roots :=
    { named := Vector.ofFn fun i => roots.getD i (r.named[i])
      scratch := roots.extract Root.count roots.size }

end Registers

end Smalltalk
