import Smalltalk.Memory.Basic

/-!
# Copying collection

A collection swaps the roles of the semispaces, moves the objects that the roots refer to into the
newly active one, and then reads through the moved objects from the first to the last: each
reference it meets is moved too, behind all others, and replaced by the new address. When the
reading position meets `free`, everything reachable has been moved once.

An object that has been moved leaves its new address in its old class word, under the flag of
`SizeWord.forwarded`, so that a second reference to it finds the same copy.

## Main definitions

* `Collector`: a collection that is under way
* `Collector.relocate`: moves one object unless it has moved
* `Collector.scan`: reads through the moved objects
* `RootSet`: anything that owns references the collector must update
* `collect`: a whole collection
-/

namespace Smalltalk

/-- A collection that is under way. The active semispace of `memory` is the one objects are moved
to. -/
structure Collector where
  memory : Memory
  /-- The roots, those already visited replaced by their new addresses. -/
  roots : Array Value
  /-- How many objects have been moved. -/
  copied : Nat

/-- Effects of a collection that is under way. -/
abbrev Collecting := EStateM Fault Collector

namespace Collector

/-- Reads something off the state. -/
@[inline] def look {α : Type} (f : Collector → α) : Collecting α := fun s => .ok (f s) s

/-- Copies `length` bytes of the object at `old` to the address `new` at the end of the moved
objects, and leaves the new address behind. -/
def move (s : Collector) (old : Nat) (new : Address) (length : Nat) : Collector :=
  { s with
    copied := s.copied + 1
    memory :=
      { s.memory with
        free := new.offset + length
        arena :=
          let a := s.memory.arena.copyWords old new.offset (length / 4)
          (a.setWord (old + 8) (SizeWord.forward (a.getWord (old + 8)))).setWord old
            (Value.encode (.ref new)) } }

/-- The new reference of an object, which is moved unless it has been. Integers stay as they are. -/
def relocate (v : Value) : Collecting Value := fun s =>
  match v with
  | .small _ => .ok v s
  | .ref a =>
    if a.offset < s.memory.otherStart ∨
        s.memory.otherStart + s.memory.capacity < a.offset + headerBytes then
      .error (.danglingReference "collect" v) s
    else if SizeWord.forwarded (s.memory.sizeWordAt a.offset) then
      .ok (Value.decode (s.memory.wordAt a.offset)) s
    else if s.memory.limit < s.memory.free + s.memory.extentAt a.offset then
      .error .collectorOverflow s
    else
      match Address.ofNat? s.memory.free with
      | none => .error .collectorOverflow s
      | some new =>
        let length := s.memory.extentAt a.offset
        .ok (.ref new) (s.move a.offset new length)

/-- Relocates the reference stored at an offset. -/
def relocateAt (i : Nat) : Collecting Unit := do
  let v ← look fun s => Value.decode (s.memory.wordAt i)
  let v' ← relocate v
  modify fun s => { s with memory := s.memory.writeWord i v'.encode }

/-- Relocates `n` references stored from an offset on. -/
def relocateFrom (i : Nat) : Nat → Collecting Unit
  | 0 => pure ()
  | n + 1 => do
    relocateAt i
    relocateFrom (i + 4) n

/-- Relocates the class of the moved object at an offset and, if it has references, those. -/
def scanObject (offset : Nat) : Collecting Unit := do
  relocateAt offset
  let n ← look fun s =>
    if s.memory.kindAt offset = .pointers then s.memory.countAt offset else 0
  relocateFrom (offset + headerBytes) n

/-- Reads through the moved objects from `cursor` on and answers where it stopped. `limit` is the
end of the active semispace, which no moved object crosses. -/
def scan (limit cursor : Nat) : Collecting Nat := do
  let free ← look (·.memory.free)
  if cursor < free ∧ cursor < limit then
    scanObject cursor
    let ⟨length, _⟩ ← look fun s =>
      (⟨s.memory.extentAt cursor, s.memory.headerBytes_le_extentAt cursor⟩ :
        { n : Nat // headerBytes ≤ n })
    scan limit (cursor + length)
  else pure cursor
termination_by limit - cursor
decreasing_by
  unfold headerBytes at *
  omega

/-- Relocates the root with number `i`. -/
def relocateRoot (i : Nat) : Collecting Unit := fun s =>
  match s.roots[i]? with
  | none => .ok () s
  | some v =>
    match relocate v s with
    | .error e s => .error e s
    | .ok v' s => .ok () { s with roots := s.roots.setIfInBounds i v' }

/-- Relocates `n` roots from number `i` on. -/
def relocateRoots (i : Nat) : Nat → Collecting Unit
  | 0 => pure ()
  | n + 1 => do
    relocateRoot i
    relocateRoots (i + 1) n

/-- Accounts for a collection whose reading stopped at `cursor`. -/
def finish (cursor : Nat) : Collecting Unit := fun s =>
  if cursor ≠ s.memory.free ∨ s.memory.limit < s.memory.free then .error .collectorOverflow s
  else
    .ok () { s with
      memory := { s.memory with
        stats := s.memory.stats.collected (s.memory.free - s.memory.start) s.copied } }

/-- Swaps the semispaces; the newly active one is empty. -/
def flip (m : Memory) : Memory := { m with upper := !m.upper, free := m.otherStart }

/-- Everything that happens after the swap. -/
def run (count start limit : Nat) : Collecting Unit := do
  relocateRoots 0 count
  let cursor ← scan limit start
  finish cursor

end Collector

/-- Anything that owns references the collector must update. -/
class RootSet (ρ : Type) where
  /-- The references, in the order in which they are visited. -/
  toArray : ρ → Array Value
  /-- The owner with its references replaced, in the same order. -/
  replace : ρ → Array Value → ρ

/-- A plain row of references. -/
instance : RootSet (Array Value) where
  toArray := id
  replace _ roots := roots

/-- A memory and the roots that keep its objects alive. -/
structure Rooted (ρ : Type) where
  memory : Memory
  roots : ρ

/-- Effects on a memory with its roots. -/
abbrev Managed (ρ : Type) := EStateM Fault (Rooted ρ)

/-- Collects, keeping the `pinned` values alive besides the roots, and answers their new
references. -/
def collectWith {ρ : Type} [RootSet ρ] (pinned : Array Value) : Managed ρ (Array Value) := fun s =>
  let named := RootSet.toArray s.roots
  let count := named.size
  let memory := Collector.flip s.memory
  let start := memory.start
  let limit := memory.limit
  match Collector.run (count + pinned.size) start limit ⟨memory, named ++ pinned, 0⟩ with
  | .ok _ c =>
    .ok (c.roots.extract count c.roots.size)
      ⟨c.memory, RootSet.replace s.roots (c.roots.extract 0 count)⟩
  | .error e c => .error e ⟨c.memory, RootSet.replace s.roots (c.roots.extract 0 count)⟩

/-- Runs one full collection. -/
def collect {ρ : Type} [RootSet ρ] : Managed ρ Unit := do
  let _ ← collectWith #[]

end Smalltalk
