import Smalltalk.Double.Basic

/-!
# Doubles in decimal

A number is written with as few digits as identify it. The reals that round to it form an interval
around it, whose ends belong to it if its last bit is even. For one digit, two digits and so on, the
two decimals of that length next to the number are tried; the first length at which one of them lies
in the interval is taken, the nearer one if both do, and the larger one if they are equally near.

Digits are laid out with a point where the number has between one and sixteen places before it or up
to four zeros behind it, and with an exponent otherwise.

## Main definitions

* `Double.shortest`: the digits and the power of ten of the last one
* `Double.text`: the number in a message
-/

namespace Smalltalk

namespace Double

/-- The fraction bits. -/
def fraction (x : Double) : Nat := x.bits.toNat % Nat.pow 2 52

/-- The exponent bits. -/
def exponentField (x : Double) : Nat := x.bits.toNat / Nat.pow 2 52 % Nat.pow 2 11

/-- Is the sign bit set? -/
def isNegative (x : Double) : Bool := x.bits.toNat / Nat.pow 2 63 = 1

/-- The magnitude of a finite number is `significand · 2 ^ place`. -/
def significand (x : Double) : Nat :=
  if x.exponentField = 0 then x.fraction else x.fraction + Nat.pow 2 52

/-- The power of two of the last bit. -/
def place (x : Double) : Int :=
  if x.exponentField = 0 then -1074 else (x.exponentField : Int) - 1075

/-- Four times the distance from the number to the lower end of its interval, in last bits. Below a
power of two the next number is half as far away. -/
def lowerGap (x : Double) : Nat := if x.fraction = 0 ∧ x.exponentField > 1 then 1 else 2

/-- The number of decimal digits of a whole number; zero has none. -/
def digitCount (n : Nat) : Nat := if n = 0 then 0 else (Nat.toDigits 10 n).length

/-- The least `k`, from the given one on, with `1 ≤ num / den · 10 ^ k`, looking `fuel` times. -/
def scaleUp (num den k : Nat) : Nat → Nat
  | 0 => k
  | fuel + 1 => if num * Nat.pow 10 k ≥ den then k else scaleUp num den (k + 1) fuel

/-- The least `p` with `num / den < 10 ^ p`, for a quotient that is not below `10 ^ -400`. -/
def magnitude (num den : Nat) : Int :=
  if num ≥ den then (digitCount (num / den) : Int) else 1 - (scaleUp num den 1 400 : Int)

/-- The decimal of `n` digits that is chosen for the quotient `value / den`, if one lies between
`low / den` and `high / den`; the ends count if `closed`. It is answered with the power of ten of
its last digit. -/
def candidate (low value high den : Nat) (closed : Bool) (n : Nat) : Option (Nat × Int) :=
  let p := magnitude value den - (n : Int)
  let up := Nat.pow 10 (-p).toNat
  let unit := den * Nat.pow 10 p.toNat
  let d := value * up / unit
  let r := value * up % unit
  let above := if closed then d * unit ≥ low * up else d * unit > low * up
  let below := if closed then (d + 1) * unit ≤ high * up else (d + 1) * unit < high * up
  if above ∧ (¬ below ∨ 2 * r < unit) then some (d, p)
  else if below then some (d + 1, p)
  else none

/-- The first length, from `n` on, at which a decimal identifies the number, trying `fuel` lengths.
-/
def firstCandidate (low value high den : Nat) (closed : Bool) (n : Nat) : Nat → Nat × Int
  | 0 => (0, 0)
  | fuel + 1 =>
    match candidate low value high den closed n with
    | some c => c
    | none => firstCandidate low value high den closed (n + 1) fuel

/-- Moves trailing zeros from the digits to the power of ten. -/
def dropZeros (digits : Nat) (p : Int) : Nat → Nat × Int
  | 0 => (digits, p)
  | fuel + 1 => if digits % 10 = 0 then dropZeros (digits / 10) (p + 1) fuel else (digits, p)

/-- The fewest digits that identify a positive finite number, and the power of ten of the last. -/
def shortest (x : Double) : Nat × Int :=
  let m := x.significand
  let s := x.place - 2
  let up := Nat.pow 2 s.toNat
  let den := Nat.pow 2 (-s).toNat
  let (digits, p) :=
    firstCandidate ((4 * m - x.lowerGap) * up) (4 * m * up) ((4 * m + 2) * up) den (m % 2 = 0) 1 17
  dropZeros digits p 20

/-- `n` zeros. -/
def zeros (n : Nat) : String := String.ofList (List.replicate n '0')

/-- Digits and a power of ten, with at least one digit on either side of the point, or with an
exponent if the first digit is far from the point. -/
def layOut (digits : Nat) (p : Int) : String :=
  let ds := Nat.toDigits 10 digits
  let e := p + (ds.length : Int) - 1
  if e < -4 ∨ 16 ≤ e then
    let tail := if ds.length > 1 then "." ++ String.ofList (ds.drop 1) else ""
    String.ofList (ds.take 1) ++ tail ++ "e" ++ toString e
  else if p ≥ 0 then String.ofList ds ++ zeros p.toNat ++ ".0"
  else if e ≥ 0 then
    let whole := (e + 1).toNat
    String.ofList (ds.take whole) ++ "." ++ String.ofList (ds.drop whole)
  else "0." ++ zeros (-e - 1).toNat ++ String.ofList ds

/-- A number as messages show it. -/
def text (x : Double) : String :=
  let sign := if x.isNegative then "-" else ""
  if x.exponentField = 2047 then
    if x.fraction = 0 then sign ++ "inf" else "NaN"
  else if x.significand = 0 then sign ++ "0.0"
  else
    let (digits, p) := x.shortest
    sign ++ layOut digits p

end Double

end Smalltalk
