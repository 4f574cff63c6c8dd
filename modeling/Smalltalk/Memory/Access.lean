import Smalltalk.Memory.Basic

/-!
# Reading and writing objects

Every access goes through two checks. `Memory.header` asks that the reference is an address inside
the occupied part of the active semispace; `Memory.element` asks besides that the body has the
expected kind and that the index is below the element count. A check that fails names the operation
and changes nothing.

Readers are functions of the memory. Writers are effects on it, in `Store`, because a failed write
leaves the memory in place for whoever called.
-/

namespace Smalltalk

/-- Effects on an object memory. The memory survives a fault. -/
abbrev Store := EStateM Fault Memory

namespace Memory

/-- The header offset of a live object. -/
def header (m : Memory) (operation : String) (object : Value) : Except Fault Nat :=
  match object with
  | .small _ => .error (.notAnObject operation object)
  | .ref a =>
    if m.start ≤ a.offset ∧ a.offset + headerBytes ≤ m.free then .ok a.offset
    else .error (.danglingReference operation object)

/-- The offset of element `index` of a body of the expected kind. -/
def element (m : Memory) (operation : String) (object : Value) (index : Nat) (expected : BodyKind) :
    Except Fault Nat :=
  match m.header operation object with
  | .error e => .error e
  | .ok offset =>
    if m.kindAt offset ≠ expected then .error (.wrongKind operation expected)
    else if m.countAt offset ≤ index then
      .error (.indexOutOfRange operation index (m.countAt offset))
    else .ok (offset + headerBytes + index * expected.elementBytes)

/-! ### Readers -/

/-- The class of an object in the arena. Integers have no class word. -/
def classOf (m : Memory) (object : Value) : Except Fault Value :=
  match m.header "getClass" object with
  | .error e => .error e
  | .ok offset => .ok (Value.decode (m.wordAt offset))

/-- The identity hash. That of an integer is zero. -/
def hash (m : Memory) (object : Value) : Except Fault UInt32 :=
  match object with
  | .small _ => .ok 0
  | .ref _ =>
    match m.header "getHash" object with
    | .error e => .error e
    | .ok offset => .ok (m.wordAt (offset + 4))

/-- The number of body elements. Integers have none. -/
def size (m : Memory) (object : Value) : Except Fault Nat :=
  match object with
  | .small _ => .ok 0
  | .ref _ =>
    match m.header "getSize" object with
    | .error e => .error e
    | .ok offset => .ok (m.countAt offset)

/-- What the body is made of. -/
def kind (m : Memory) (object : Value) : Except Fault BodyKind :=
  match m.header "kind" object with
  | .error e => .error e
  | .ok offset => .ok (m.kindAt offset)

/-- A field of a pointer object. -/
def getPtr (m : Memory) (object : Value) (index : Nat) : Except Fault Value :=
  match m.element "getPtr" object index .pointers with
  | .error e => .error e
  | .ok i => .ok (Value.decode (m.wordAt i))

/-- An element of a word object. -/
def getWord (m : Memory) (object : Value) (index : Nat) : Except Fault UInt32 :=
  match m.element "getWord" object index .words with
  | .error e => .error e
  | .ok i => .ok (m.wordAt i)

/-- An element of a byte object. -/
def getByte (m : Memory) (object : Value) (index : Nat) : Except Fault UInt8 :=
  match m.element "getByte" object index .bytes with
  | .error e => .error e
  | .ok i => .ok (m.arena.get i)

/-- Where the body of a byte object starts, and how long it is. -/
def byteBody (m : Memory) (object : Value) : Except Fault (Nat × Nat) :=
  match m.header "bytes" object with
  | .error e => .error e
  | .ok offset =>
    if m.kindAt offset ≠ .bytes then .error (.wrongKind "bytes" .bytes)
    else .ok (offset + headerBytes, m.countAt offset)

/-- The whole body of a byte object. -/
def bytes (m : Memory) (object : Value) : Except Fault (List UInt8) :=
  match m.byteBody object with
  | .error e => .error e
  | .ok (i, n) => .ok (m.arena.getBytes i n)

/-! ### Writers -/

/-- Runs a write at the offset that a check has found. -/
@[inline] def writeAt (find : Memory → Except Fault Nat) (write : Nat → Memory → Memory) :
    Store Unit := fun m =>
  match find m with
  | .ok i => .ok () (write i m)
  | .error e => .error e m

/-- Changes the class of an object. -/
def setClass (object cls : Value) : Store Unit :=
  writeAt (·.header "setClass" object) fun i m => m.writeWord i cls.encode

/-- Changes the identity hash of an object, keeping 30 bits. -/
def setHash (object : Value) (hash : UInt32) : Store Unit :=
  writeAt (·.header "setHash" object) fun i m => m.writeWord (i + 4) (hash &&& hashMask)

/-- Changes a field of a pointer object. -/
def setPtr (object : Value) (index : Nat) (value : Value) : Store Unit :=
  writeAt (·.element "setPtr" object index .pointers) fun i m => m.writeWord i value.encode

/-- Changes an element of a word object. -/
def setWord (object : Value) (index : Nat) (word : UInt32) : Store Unit :=
  writeAt (·.element "setWord" object index .words) fun i m => m.writeWord i word

/-- Changes an element of a byte object. -/
def setByte (object : Value) (index : Nat) (byte : UInt8) : Store Unit :=
  writeAt (·.element "setByte" object index .bytes) fun i m =>
    { m with arena := m.arena.set i byte }

/-- Puts bytes at the start of the body of a byte object; what does not fit is dropped. -/
def setBytes (object : Value) (bytes : List UInt8) : Store Unit := fun m =>
  match m.byteBody object with
  | .ok (i, n) => .ok () { m with arena := m.arena.setBytes i (bytes.take n) }
  | .error e => .error e m

/-- Sets every byte of a byte object. -/
def fillBytes (object : Value) (byte : UInt8) : Store Unit := fun m =>
  match m.byteBody object with
  | .ok (i, n) => .ok () { m with arena := m.arena.setBytes i (List.replicate n byte) }
  | .error e => .error e m

end Memory

end Smalltalk
