import Smalltalk.Fault
import Smalltalk.Memory.Arena

/-!
# The object memory

The arena is divided into two halves of equal size, the semispaces. Objects live in one of them, the
active one, packed from its start up to the offset `free`; a new object is put there and `free`
moves past it. The other half is empty except while a collection runs.

Identity hashes are handed out from a counter that advances by a fixed odd step, so they are the
same in every run and spread evenly over the 30 bits they have.

## Main definitions

* `Settings`, `Settings.validate`: how large a memory may be
* `Memory`, `Memory.create`: the state and its beginning
* `Memory.objects`: every object, in address order
-/

namespace Smalltalk

/-- What a host chooses about a memory. -/
structure Settings where
  /-- Bytes per semispace. -/
  semispaceSize : Nat := 1048576
  /-- Whether running out of space starts a collection, or fails at once. -/
  gcEnabled : Bool := true
deriving DecidableEq

/-- Why a memory of some size cannot be made. -/
inductive SettingsError where
  | tooSmall
  | misaligned
  | tooLarge
deriving DecidableEq

namespace SettingsError

/-- The reason in words. -/
def message : SettingsError → String
  | .tooSmall => "semispace_size must be at least 1 KB"
  | .misaligned => "semispace_size must be a multiple of the word size"
  | .tooLarge => "semispace_size exceeds the 31-bit address space"

end SettingsError

/-- A semispace has at least a kilobyte, whole words, and at most half of the address space. -/
def Settings.validate (s : Settings) : Except SettingsError Unit :=
  if s.semispaceSize < 1024 then .error .tooSmall
  else if s.semispaceSize % 4 ≠ 0 then .error .misaligned
  else if s.semispaceSize > 1073741824 then .error .tooLarge
  else .ok ()

/-- Counts kept about allocation and collection. -/
structure Stats where
  collections : Nat := 0
  bytesAllocated : Nat := 0
  objectsAllocated : Nat := 0
  /-- Allocated since the last collection. -/
  bytesSince : Nat := 0
  objectsSince : Nat := 0
  /-- Survivors of the last collection. -/
  bytesCopied : Nat := 0
  objectsCopied : Nat := 0
deriving DecidableEq

/-- Accounts for one new object. -/
def Stats.allocated (s : Stats) (bytes : Nat) : Stats :=
  { s with
    bytesAllocated := s.bytesAllocated + bytes
    objectsAllocated := s.objectsAllocated + 1
    bytesSince := s.bytesSince + bytes
    objectsSince := s.objectsSince + 1 }

/-- Accounts for one collection and starts counting anew. -/
def Stats.collected (s : Stats) (bytes objects : Nat) : Stats :=
  { s with
    collections := s.collections + 1
    bytesCopied := bytes
    objectsCopied := objects
    bytesSince := 0
    objectsSince := 0 }

/-- The object memory. -/
structure Memory where
  arena : Arena
  settings : Settings
  /-- Is the active semispace the upper one? -/
  upper : Bool
  /-- Offset of the next object. -/
  free : Nat
  stats : Stats
  /-- The next identity hash, before masking. -/
  hashCounter : UInt32

/-- The first identity hash. -/
def hashSeed : UInt32 := 314159265

/-- What the hash counter advances by. -/
def hashStep : UInt32 := 0x9E3779B9

/-- Identity hashes have 30 bits. -/
def hashMask : UInt32 := 0x3FFFFFFF

namespace Memory

/-- A memory without objects. -/
def empty (settings : Settings) : Memory where
  arena := Arena.empty
  settings
  upper := false
  free := 0
  stats := {}
  hashCounter := hashSeed

/-- A memory without objects, if the settings allow one. -/
def create (settings : Settings) : Except SettingsError Memory :=
  settings.validate.map fun _ => empty settings

/-- Bytes in each half of the arena. -/
@[inline] def capacity (m : Memory) : Nat := m.settings.semispaceSize

/-- Start of the active semispace. -/
@[inline] def start (m : Memory) : Nat := if m.upper then m.capacity else 0

/-- End of the active semispace. -/
@[inline] def limit (m : Memory) : Nat := m.start + m.capacity

/-- Start of the semispace that is not active. -/
@[inline] def otherStart (m : Memory) : Nat := if m.upper then 0 else m.capacity

/-- Bytes that objects cover. -/
def usedBytes (m : Memory) : Nat := m.free - m.start

/-- Bytes left in the active semispace. -/
def freeBytes (m : Memory) : Nat := m.limit - m.free

/-- Chooses whether running out of space starts a collection. -/
def setGcEnabled (m : Memory) (enabled : Bool) : Memory :=
  { m with settings := { m.settings with gcEnabled := enabled } }

/-- The word at an offset. -/
@[inline] def wordAt (m : Memory) (i : Nat) : UInt32 := m.arena.getWord i

/-- Puts a word at an offset. -/
@[inline] def writeWord (m : Memory) (i : Nat) (w : UInt32) : Memory :=
  { m with arena := m.arena.setWord i w }

/-- The size word of the object at an offset. -/
@[inline] def sizeWordAt (m : Memory) (offset : Nat) : UInt32 := m.wordAt (offset + 8)

/-- The element count of the object at an offset. -/
@[inline] def countAt (m : Memory) (offset : Nat) : Nat := SizeWord.count (m.sizeWordAt offset)

/-- The body kind of the object at an offset. -/
@[inline] def kindAt (m : Memory) (offset : Nat) : BodyKind := SizeWord.kind (m.sizeWordAt offset)

/-- The bytes that the object at an offset covers. -/
@[inline] def extentAt (m : Memory) (offset : Nat) : Nat :=
  extent (m.countAt offset) (m.kindAt offset)

/-- Every object covers at least its header. -/
theorem headerBytes_le_extentAt (m : Memory) (offset : Nat) : headerBytes ≤ m.extentAt offset :=
  headerBytes_le_extent _ _

/-- Header offsets from `cursor` on, as long as a whole header lies before `free`. -/
def headersFrom (m : Memory) (cursor : Nat) : List Nat :=
  if cursor + headerBytes ≤ m.free then cursor :: m.headersFrom (cursor + m.extentAt cursor) else []
termination_by m.free - cursor
decreasing_by
  have := m.headerBytes_le_extentAt cursor
  simp only [headerBytes] at *
  omega

/-- Header offsets of all objects, in address order. -/
def headers (m : Memory) : List Nat := m.headersFrom m.start

/-- All objects, in address order. -/
def objects (m : Memory) : List Value := m.headers.filterMap fun i => (Address.ofNat? i).map .ref

end Memory

end Smalltalk
