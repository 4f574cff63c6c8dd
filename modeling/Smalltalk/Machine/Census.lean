import Std.Data.HashMap
import Smalltalk.Digest
import Smalltalk.Image.Format
import Smalltalk.Machine.Dictionary

/-!
# A count of all objects

The census of a machine says how many objects of each class there are, alive or not, and digests the
hashes and sizes of all of them in address order, so that two machines can be compared.
-/

namespace Smalltalk

/-- How many objects of each class there are, and a digest of them all. -/
structure Census where
  counts : Std.HashMap String Nat := ∅
  digest : UInt64 := Digest.empty

namespace Census

/-- Counts another object. -/
def add (c : Census) (m : Machine) (object : Value) : Except Fault Census := do
  let name := m.className (← m.classOf object)
  let hash ← m.memory.hash object
  let size ← m.memory.size object
  return {
    counts := c.counts.insert name (c.counts.getD name 0 + 1)
    digest := Digest.addAll c.digest (wordBytes hash ++ wordBytes (UInt32.ofNat size)) }

end Census

namespace Machine

/-- Counts all objects. -/
def census (m : Machine) : Except Fault Census :=
  m.memory.objects.foldlM (fun c object => c.add m object) {}

end Machine

end Smalltalk
