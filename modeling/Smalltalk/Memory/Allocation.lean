import Smalltalk.Memory.Collection

/-!
# Allocation

A new object goes to the offset `free` of the active semispace. If it does not fit there, one
collection is run, and the class and the fill value of the new object are treated as roots of it, so
that the object is made with the references they have afterwards. A request that still does not fit
is fatal.
-/

namespace Smalltalk

namespace Memory

/-- Would an object of so many bytes fit the active semispace? -/
def fits (m : Memory) (bytes : Nat) : Bool := m.free + bytes ≤ m.limit

/-- Puts a new object at the end of the others. References are set to `fill`, words and bytes to
zero. -/
def place (m : Memory) (cls : Value) (size : Nat) (kind : BodyKind) (fill : Value) : Memory :=
  let bytes := extent size kind
  let offset := m.free
  let hash := m.hashCounter &&& hashMask
  let filler := if kind = .pointers then fill.encode else 0
  { m with
    free := offset + bytes
    hashCounter := m.hashCounter + hashStep
    stats := m.stats.allocated bytes
    arena :=
      (((m.arena.setWord offset cls.encode).setWord (offset + 4) hash).setWord (offset + 8)
        (SizeWord.make size kind)).fillWords (offset + headerBytes) filler
          ((bytes - headerBytes) / 4) }

end Memory

/-- Puts a new object where it is known to fit. -/
def placeObject {ρ : Type} (cls : Value) (size : Nat) (kind : BodyKind) (fill : Value) :
    Managed ρ Value := fun s =>
  match Address.ofNat? s.memory.free with
  | none => .error (.memoryExhausted (extent size kind)) s
  | some a => .ok (.ref a) { s with memory := s.memory.place cls size kind fill }

/-- Makes an object of `size` elements, collecting once if it does not fit. -/
def allocate {ρ : Type} [RootSet ρ] (cls : Value) (size : Nat) (kind : BodyKind) (fill : Value) :
    Managed ρ Value := fun s =>
  let bytes := extent size kind
  if size > maxCount ∨ bytes > s.memory.capacity then .error (.memoryExhausted bytes) s
  else if s.memory.fits bytes then placeObject cls size kind fill s
  else if ¬ s.memory.settings.gcEnabled then .error (.memoryExhausted bytes) s
  else
    match collectWith #[cls, fill] s with
    | .error e s => .error e s
    | .ok pinned s =>
      if s.memory.fits bytes then
        placeObject (pinned.getD 0 cls) size kind (pinned.getD 1 fill) s
      else .error (.memoryExhausted bytes) s

end Smalltalk
