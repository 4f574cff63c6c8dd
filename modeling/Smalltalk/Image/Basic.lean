import Smalltalk.Image.Verify

/-!
# Images

An image keeps a machine in a file: the registers, the instruction pointer, the operand count and
all objects that can be reached. To write one the machine collects, once or twice, so that the
objects lie in the lower semispace, from offset zero on; they can then be read back without changing
a reference.

## Main definitions

* `Image.attempt`: how far the image of a machine can be written
* `Image.write`: the image of a machine
* `Image.read`: the machine of an image
-/

namespace Smalltalk

namespace Image

/-- Effects on a machine that is being saved. -/
abbrev Save := EStateM ImageError Machine

/-- An effect of the machine as one of saving. -/
@[inline] def saving {α : Type} (act : Exec α) : Save α := EStateM.adaptExcept .machine act

/-- A machine that is in the middle of something cannot be saved. -/
def checkIdle : Save Unit := fun m =>
  if m.registers.scratch.size ≠ 0 then .error (.busy .heldValues) m
  else if m.registers.get .compilerMethod ≠ m.nil then .error (.busy .compiling) m
  else .ok () m

/-- Moves all objects to the lower semispace. -/
def settle : Save Unit := do
  saving Machine.collectGarbage
  if (← get).memory.upper then saving Machine.collectGarbage
  if (← get).memory.upper then throw (.corrupt .unsettled)

/-- Writes a machine whose objects are in the lower semispace. A number that does not fit a word is
found out when its turn comes, after what stands before it has been written. -/
def writeMachine (m : Machine) : WriteImage Unit := do
  WriteImage.putWords [magic₁, magic₂, majorVersion, minorVersion, 0]
  WriteImage.putNumber m.memory.usedBytes
  WriteImage.putNumber m.registers.named.size
  WriteImage.putWords (m.registers.named.toList.map Value.encode)
  WriteImage.putNumber m.ip
  WriteImage.putNumber m.sp
  WriteImage.putBytes (m.memory.arena.getBytes m.memory.start m.memory.usedBytes)

/-- What has become of an attempt to save a machine. -/
structure Attempt where
  /-- Has all of the image been written? -/
  result : Except ImageError Unit
  /-- What has been written. If not all could be written, this is the front of the image. -/
  written : List UInt8
  machine : Machine

/-- Writes the image of a machine, which is collected for it, as far as that is possible. -/
def attempt (m : Machine) : Attempt :=
  match (do checkIdle; settle : Save Unit) m with
  | .error e machine => ⟨.error e, [], machine⟩
  | .ok () machine =>
    match writeMachine machine [] with
    | .ok () written => ⟨.ok (), written, machine⟩
    | .error e written => ⟨.error e, written, machine⟩

/-- The image of a machine, all of it. -/
def write : Save (List UInt8) := fun m =>
  let saved := attempt m
  match saved.result with
  | .ok () => .ok saved.written saved.machine
  | .error e => .error e saved.machine

/-- Reads the words up to the number of bytes that objects cover, and answers that number. -/
def readHeader (capacity : Nat) : ReadImage Nat := do
  if (← ImageReader.nextWord) ≠ magic₁ then throw .badMagic
  if (← ImageReader.nextWord) ≠ magic₂ then throw .badMagic
  let major ← ImageReader.nextWord
  if major ≠ majorVersion then throw (.wrongVersion major)
  let minor ← ImageReader.nextWord
  if minor ≠ minorVersion then
    ImageReader.note (.minorVersion minor.toNat minorVersion.toNat)
  let start ← ImageReader.nextWord
  let size ← ImageReader.nextWord
  if start ≠ 0 then throw (.corrupt .badStart)
  if capacity < size.toNat then throw (.tooLarge size.toNat capacity)
  return size.toNat

/-- A memory with these bytes of objects. -/
def memoryWith (memory : Memory) (bytes : List UInt8) : Memory :=
  { memory with arena := memory.arena.setBytes 0 bytes, free := bytes.length }

/-- Reads a machine. -/
def readMachine (settings : Settings) : ReadImage Machine := do
  let size ← readHeader settings.semispaceSize
  let memory ←
    match Memory.create settings with
    | .ok memory => pure memory
    | .error e => throw (.settings e)
  let count ← ImageReader.nextWord
  if count.toNat ≠ Root.count then throw (.corrupt .registerCount)
  let roots ← ImageReader.nextWords Root.count
  let ip ← ImageReader.nextWord
  let sp ← ImageReader.nextWord
  let bytes ← ImageReader.nextBytes size
  let roots := roots.toArray
  let m : Machine :=
    { memory := memoryWith memory bytes
      registers := { named := Vector.ofFn fun i => Value.decode (roots.getD i 0), scratch := #[] }
      ip := ip.toNat
      sp := sp.toNat }
  match m.verify with
  | .ok () => return m
  | .error flaw => throw (.corrupt flaw)

/-- The machine of an image, and what there was to report meanwhile. -/
def read (settings : Settings) (bytes : List UInt8) : Except ImageError Machine × List Event :=
  match (readMachine settings).run { rest := bytes } with
  | .ok m r => (.ok m, r.events)
  | .error e r => (.error e, r.events)

end Image

end Smalltalk
