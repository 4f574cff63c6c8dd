import Smalltalk.Memory.Access
import Smalltalk.Memory.Allocation

/-!
# Handles

A host that uses an object memory by itself keeps the references it cares about in a table of
handles. They are the roots: a collection updates them, and what no handle leads to is gone. A
handle can be dropped; the numbers of the others stay as they are.
-/

namespace Smalltalk

/-- The references of a host, by number; those dropped are missing. -/
structure Handles where
  entries : Array (Option Value)

namespace Handles

/-- No handles. -/
def empty : Handles := ⟨#[]⟩

/-- The reference with a number. -/
def get? (h : Handles) (i : Nat) : Option Value := (h.entries[i]?).join

/-- Adds a reference under the next number. -/
def push (h : Handles) (v : Value) : Handles := ⟨h.entries.push (some v)⟩

/-- Drops the reference with a number. -/
def drop (h : Handles) (i : Nat) : Handles := ⟨h.entries.setIfInBounds i none⟩

/-- The references with new values for those that are there, in order. -/
def refill : List (Option Value) → List Value → List (Option Value)
  | [], _ => []
  | none :: entries, values => none :: refill entries values
  | some _ :: entries, v :: values => some v :: refill entries values
  | some v :: entries, [] => some v :: refill entries []

instance : RootSet Handles where
  toArray h := h.entries.filterMap id
  replace h roots := ⟨(refill h.entries.toList roots.toList).toArray⟩

/-- Adds a reference and answers its number. -/
def keep (v : Value) : Managed Handles Nat := do
  let i := (← get).roots.entries.size
  modify fun s => { s with roots := s.roots.push v }
  return i

/-- Makes an object and keeps it. -/
def allocate (cls : Value) (size : Nat) (kind : BodyKind) (fill : Value) :
    Managed Handles Value := do
  let v ← Smalltalk.allocate cls size kind fill
  discard (keep v)
  return v

end Handles

namespace Managed

/-- Looks at the memory. -/
def read {ρ α : Type} (f : Memory → Except Fault α) : Managed ρ α := fun s =>
  match f s.memory with
  | .ok a => .ok a s
  | .error e => .error e s

/-- An effect on the memory alone. -/
def onMemory {ρ α : Type} (act : Store α) : Managed ρ α := fun ⟨memory, roots⟩ =>
  match act memory with
  | .ok a memory => .ok a ⟨memory, roots⟩
  | .error e memory => .error e ⟨memory, roots⟩

end Managed

end Smalltalk
