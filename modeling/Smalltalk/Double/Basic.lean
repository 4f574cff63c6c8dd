/-!
# Double precision numbers

The machine stores floating point numbers and reads them from source, and does no arithmetic with
them. So a `Double` is the 64 bits of the IEEE 754 format and nothing else: a sign bit, eleven bits
of exponent and 52 bits of fraction.

`Double.nearest` is the number closest to a quotient, computed exactly. Of two that are equally
close it is the one with an even last bit.
-/

namespace Smalltalk

/-- A double precision number, as its bits. -/
structure Double where
  bits : UInt64
deriving DecidableEq

namespace Double

/-- The number with the opposite sign. -/
def negate (x : Double) : Double := ⟨x.bits ^^^ 0x8000000000000000⟩

/-- The quotient of two numbers, rounded to the nearest whole number, a half to the even one. -/
def roundDiv (num den : Nat) : Nat :=
  let q := num / den
  let r := num % den
  if 2 * r > den ∨ (2 * r = den ∧ q % 2 = 1) then q + 1 else q

/-- The power of two that the last bit of the number nearest to `num / den` stands for, for positive
`num` and `den`. -/
def lastPlace (num den : Nat) : Int :=
  let e : Int := (num.log2 : Int) - (den.log2 : Int) - 52
  let full :=
    if e ≥ 0 then num ≥ den * Nat.pow 2 (52 + e.toNat)
    else num * Nat.pow 2 (-e).toNat ≥ den * Nat.pow 2 52
  max (if full then e else e - 1) (-1074)

/-- The number nearest to `num / den`, which must be below the largest number there is. -/
def nearest (num den : Nat) : Double :=
  if num = 0 then ⟨0⟩
  else
    let e := lastPlace num den
    let q :=
      if e ≥ 0 then roundDiv num (den * Nat.pow 2 e.toNat)
      else roundDiv (num * Nat.pow 2 (-e).toNat) den
    ⟨UInt64.ofNat ((e + 1074).toNat * Nat.pow 2 52 + q)⟩

/-- The number written as `digits` with the last `places` of them behind the point. -/
def ofDecimal (digits places : Nat) : Double := nearest digits (Nat.pow 10 places)

/-- The eight bytes of a number, least significant first. -/
def toBytes (x : Double) : List UInt8 :=
  [x.bits.toUInt8, (x.bits >>> 8).toUInt8, (x.bits >>> 16).toUInt8, (x.bits >>> 24).toUInt8,
    (x.bits >>> 32).toUInt8, (x.bits >>> 40).toUInt8, (x.bits >>> 48).toUInt8,
    (x.bits >>> 56).toUInt8]

/-- The number of eight bytes. -/
def ofBytes? : List UInt8 → Option Double
  | [a, b, c, d, e, f, g, h] =>
    some ⟨a.toUInt64 + (b.toUInt64 <<< 8) + (c.toUInt64 <<< 16) + (d.toUInt64 <<< 24)
      + (e.toUInt64 <<< 32) + (f.toUInt64 <<< 40) + (g.toUInt64 <<< 48) + (h.toUInt64 <<< 56)⟩
  | _ => none

end Double

end Smalltalk
