/-!
# Object references

Everything the machine stores in a field, a register or a stack slot is one 32-bit word. The top
bit tells integers from addresses: with it set, the lower 31 bits are an integer in two's
complement; with it clear, the word is the byte offset of an object header.

`Value` is that word taken apart. The ranges are part of the types `SmallInt` and `Address`, so a
`Value` and a word determine each other, and no code outside this module handles tag bits.

## Main definitions

* `SmallInt`, `Address`, `Value`: the two readings of a word
* `Value.encode`, `Value.decode`: between values and words

## Main results

* `Value.decode_encode`, `Value.encode_decode`: the two are inverse to each other
-/

namespace Smalltalk

/-- The integers that fit a reference: 31 bits in two's complement. -/
@[ext] structure SmallInt where
  /-- The integer itself. -/
  val : Int
  le_val : -1073741824 ≤ val
  val_lt : val < 1073741824
deriving DecidableEq

/-- The byte offset of an object header. The tag bit of an address is clear, so its word is never
read as an integer. -/
@[ext] structure Address where
  /-- Bytes from the start of the arena. -/
  offset : Nat
  offset_lt : offset < 2147483648
deriving DecidableEq

/-- An object reference: an immediate integer, or the address of an object. -/
inductive Value where
  | small (n : SmallInt)
  | ref (a : Address)
deriving DecidableEq

namespace SmallInt

/-- The integer as a reference integer, if it is in range. -/
def ofInt? : Int → Option SmallInt
  | .ofNat k => if h : k < 1073741824 then some ⟨(k : Int), by omega, by omega⟩ else none
  | .negSucc k => if h : k < 1073741824 then some ⟨-((k : Int) + 1), by omega, by omega⟩ else none

/-- Bytes are in range. -/
def ofByte (b : UInt8) : SmallInt :=
  ⟨(b.toNat : Int), by omega, by have := b.toNat_lt; omega⟩

end SmallInt

namespace Address

/-- The address of a byte offset, if it fits 31 bits. -/
def ofNat? (n : Nat) : Option Address :=
  if h : n < 2147483648 then some ⟨n, h⟩ else none

/-- Offset zero, where a fresh machine keeps nil. -/
def zero : Address := ⟨0, by decide⟩

end Address

/-- Lower-case hexadecimal digits, without leading zeros. -/
def hexDigits (n : Nat) : String := String.ofList (Nat.toDigits 16 n)

namespace Value

/-- The object at offset zero. It stands for nil before nil exists. -/
def zeroRef : Value := .ref Address.zero

/-- The value of an integer in range. -/
def ofInt? (n : Int) : Option Value := (SmallInt.ofInt? n).map .small

/-- The value of a count in range. -/
def ofNat? (n : Nat) : Option Value := ofInt? n

/-- The value of a byte. -/
def ofByte (b : UInt8) : Value := .small (SmallInt.ofByte b)

/-- Integers carry their own value and have no place in the arena. -/
def isSmall : Value → Bool
  | .small _ => true
  | .ref _ => false

/-- The integer a value stands for. -/
def int? : Value → Option Int
  | .small n => some n.val
  | .ref _ => none

/-- The address a value stands for. -/
def address? : Value → Option Address
  | .small _ => none
  | .ref a => some a

/-- The word of a value: an address is its own word, an integer is its 31-bit two's complement
under the tag bit. -/
def encode : Value → UInt32
  | .ref a => UInt32.ofNat a.offset
  | .small n =>
    if 0 ≤ n.val then UInt32.ofNat (2147483648 + n.val.toNat)
    else UInt32.ofNat (4294967296 - n.val.natAbs)

/-- The value of a word. Every word has one. -/
def decode (w : UInt32) : Value :=
  if h : w.toNat < 2147483648 then
    .ref ⟨w.toNat, h⟩
  else if h' : w.toNat < 3221225472 then
    .small ⟨((w.toNat - 2147483648 : Nat) : Int), by omega, by omega⟩
  else
    .small ⟨-((4294967296 - w.toNat : Nat) : Int), by have := w.toNat_lt; omega,
      by have := w.toNat_lt; omega⟩

/-- The word that holds the low 31 bits of `n` as an integer. -/
def tagged (n : UInt32) : Value := decode (n ||| 0x80000000)

/-- How a value is written in messages: the integer in decimal, or the address in hexadecimal. -/
def text : Value → String
  | .small n => toString n.val
  | .ref a => "@0x" ++ hexDigits a.offset

/-- The word of an integer as a number: negative integers come after the others. -/
theorem toNat_encode_small (n : SmallInt) :
    ((encode (.small n)).toNat : Int) =
      if 0 ≤ n.val then 2147483648 + n.val else 4294967296 + n.val := by
  have hl := n.le_val
  have hu := n.val_lt
  by_cases h : 0 ≤ n.val
  · rw [encode, if_pos h, if_pos h, UInt32.toNat_ofNat']
    omega
  · rw [encode, if_neg h, if_neg h, UInt32.toNat_ofNat']
    omega

/-- Taking apart the word of a value gives the value. -/
@[simp] theorem decode_encode (v : Value) : decode v.encode = v := by
  cases v with
  | ref a =>
    have h := a.offset_lt
    have hw : (UInt32.ofNat a.offset).toNat = a.offset := by
      rw [UInt32.toNat_ofNat']; omega
    simp [encode, decode, hw, h]
  | small n =>
    have hl := n.le_val
    have hu := n.val_lt
    have hw := toNat_encode_small n
    generalize (encode (.small n)) = w at hw
    unfold decode
    split
    · omega
    · split
      · exact congrArg Value.small (SmallInt.ext (by dsimp only; omega))
      · exact congrArg Value.small (SmallInt.ext (by dsimp only; omega))

/-- The word of the value of a word is that word. -/
@[simp] theorem encode_decode (w : UInt32) : (decode w).encode = w := by
  have h := w.toNat_lt
  unfold decode
  split
  · simp [encode]
  · split
    all_goals
      rw [← UInt32.toNat_inj, ← Int.natCast_inj, toNat_encode_small]
      dsimp only
      omega

/-- A tagged word is that of an integer. -/
theorem tagged_eq_small (n : UInt32) : ∃ k, tagged n = .small k := by
  have hle : 2147483648 ≤ (n ||| 0x80000000).toNat := by
    rw [UInt32.toNat_or]
    exact Nat.right_le_or
  unfold tagged decode
  rw [dif_neg (Nat.not_lt.2 hle)]
  split
  · exact ⟨_, rfl⟩
  · exact ⟨_, rfl⟩

attribute [irreducible] encode decode

end Value

end Smalltalk
