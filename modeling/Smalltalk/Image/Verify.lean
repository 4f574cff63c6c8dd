import Std.Data.HashSet
import Smalltalk.Image.Format
import Smalltalk.Machine.Basic

/-!
# What an image must satisfy

A machine that was read from an image is trusted only after a check: its objects lie one behind the
other and fill the used part of the memory exactly, and every reference, in a register, in a class
word or in a field, is an integer or the address of one of them.

## Main definitions

* `Memory.objectStarts`: the offsets at which objects start, if they fill the memory exactly
* `Machine.verify`
-/

namespace Smalltalk

namespace Memory

/-- Adds the starts of the objects from an offset on. -/
def objectStartsFrom (m : Memory) (offset : Nat) (starts : Std.HashSet Nat) :
    Except ImageFlaw (Std.HashSet Nat) :=
  if offset < m.free then
    if m.free < offset + headerBytes then .error .truncatedHeader
    else if m.free < offset + m.extentAt offset then .error .overlongObject
    else m.objectStartsFrom (offset + m.extentAt offset) (starts.insert offset)
  else .ok starts
termination_by m.free - offset
decreasing_by
  have := m.headerBytes_le_extentAt offset
  simp only [headerBytes] at *
  omega

/-- The offsets at which objects start. -/
def objectStarts (m : Memory) : Except ImageFlaw (Std.HashSet Nat) :=
  if m.usedBytes % 4 ≠ 0 then .error .misaligned else m.objectStartsFrom m.start ∅

/-- The references in an object: its class, and its fields if it has any. -/
def referencesAt (m : Memory) (offset : Nat) : List Value :=
  let fields := if m.kindAt offset = .pointers then m.countAt offset else 0
  Value.decode (m.wordAt offset) ::
    (List.range fields).map fun i => Value.decode (m.wordAt (offset + headerBytes + 4 * i))

end Memory

namespace Machine

/-- An integer, or the address of an object. -/
def checkReference (starts : Std.HashSet Nat) (v : Value) : Except ImageFlaw Unit :=
  match v.address? with
  | some a => if starts.contains a.offset then .ok () else .error .strayReference
  | none => .ok ()

/-- Checks the objects and all references. -/
def verify (m : Machine) : Except ImageFlaw Unit := do
  let starts ← m.memory.objectStarts
  m.registers.named.toList.forM (checkReference starts)
  m.memory.headers.forM fun offset => (m.memory.referencesAt offset).forM (checkReference starts)

end Machine

end Smalltalk
