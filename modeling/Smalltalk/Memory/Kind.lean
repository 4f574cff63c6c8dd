/-!
# Object headers

An object is a header of three words followed by its body. The words are the class, the identity
hash and the size word; the size word holds the number of body elements in its low 29 bits and two
flags that tell what the elements are. A third flag, the top bit, is set only while a collection
runs: it marks an object that has already been moved, and then the class word holds the new
address.

This module knows the numbers. `extent` is the one formula for how many bytes an object covers.
-/

namespace Smalltalk

/-- What the body of an object is made of. -/
inductive BodyKind where
  /-- Object references. -/
  | pointers
  /-- Uninterpreted 32-bit words. -/
  | words
  /-- Uninterpreted bytes. -/
  | bytes
deriving DecidableEq

namespace BodyKind

/-- The kind as it is named in messages. -/
def name : BodyKind → String
  | .pointers => "Pointers"
  | .words => "Words"
  | .bytes => "Bytes"

/-- Bytes per body element. -/
def elementBytes : BodyKind → Nat
  | .pointers => 4
  | .words => 4
  | .bytes => 1

/-- The flag of the size word that stands for the kind. Bytes have none. -/
def flag : BodyKind → UInt32
  | .pointers => 0x40000000
  | .words => 0x20000000
  | .bytes => 0

end BodyKind

/-- Bytes of a header: class word, hash word, size word. -/
def headerBytes : Nat := 12

/-- Bytes covered by an object with `count` elements, padded to a whole word. -/
def extent (count : Nat) (kind : BodyKind) : Nat :=
  (headerBytes + count * kind.elementBytes + 3) / 4 * 4

/-- The largest element count a size word can hold. -/
def maxCount : Nat := 536870911

namespace SizeWord

/-- The size word of a body. -/
def make (count : Nat) (kind : BodyKind) : UInt32 := UInt32.ofNat count ||| kind.flag

/-- The element count in the low 29 bits. -/
def count (w : UInt32) : Nat := (w &&& 0x1FFFFFFF).toNat

/-- The kind the flags stand for. The pointer flag wins. -/
def kind (w : UInt32) : BodyKind :=
  if w &&& 0x40000000 != 0 then .pointers
  else if w &&& 0x20000000 != 0 then .words
  else .bytes

/-- Has the object been moved by the running collection? -/
def forwarded (w : UInt32) : Bool := w &&& 0x80000000 != 0

/-- The size word of an object that has been moved. -/
def forward (w : UInt32) : UInt32 := w ||| 0x80000000

end SizeWord

/-- An object covers at least its header. -/
theorem headerBytes_le_extent (count : Nat) (kind : BodyKind) :
    headerBytes ≤ extent count kind := by
  unfold extent headerBytes; omega

/-- Objects cover whole words. -/
theorem four_dvd_extent (count : Nat) (kind : BodyKind) : 4 ∣ extent count kind :=
  ⟨_, Nat.mul_comm _ _⟩

end Smalltalk
