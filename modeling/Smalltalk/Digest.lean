/-!
# Digests

A digest is a number of 64 bits that stands for a row of bytes, for comparing long ones.
-/

namespace Smalltalk

namespace Digest

/-- The digest of no bytes. -/
def empty : UInt64 := 0xCBF29CE484222325

/-- The digest with another byte. -/
def add (digest : UInt64) (b : UInt8) : UInt64 := (digest ^^^ b.toUInt64) * 0x100000001B3

/-- The digest with more bytes. -/
def addAll (digest : UInt64) (bytes : List UInt8) : UInt64 := bytes.foldl add digest

/-- The digest of bytes. -/
def ofBytes (bytes : List UInt8) : UInt64 := addAll empty bytes

end Digest

end Smalltalk
