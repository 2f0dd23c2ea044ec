/-!
Floating point numbers of 64 bits, kept as their bits, and the reading of a decimal: the nearest
number wins, and of two nearest ones the one with the even significand.
-/

set_option autoImplicit false

namespace Tern

def pow2 (n : Nat) : Nat := Nat.pow 2 n

def pow10 (n : Nat) : Nat := Nat.pow 10 n

structure Binary64 where
  bits : UInt64
  deriving DecidableEq, Repr, Inhabited

namespace Binary64

def isNegative (x : Binary64) : Bool := x.bits.toNat / pow2 63 = 1

/-- The bits without the sign. -/
def magnitude (x : Binary64) : Nat := x.bits.toNat % pow2 63

def infiniteMagnitude : Nat := 2047 * pow2 52

def isInfinite (x : Binary64) : Bool := x.magnitude = infiniteMagnitude

def isNaN (x : Binary64) : Bool := infiniteMagnitude < x.magnitude

def ofMagnitude (negative : Bool) (magnitude : Nat) : Binary64 :=
  ⟨UInt64.ofNat (magnitude + if negative then pow2 63 else 0)⟩

/-- A finite magnitude is `m * 2 ^ (e - 1074)`; this is `(m, e)`. -/
def significand (magnitude : Nat) : Nat × Nat :=
  if magnitude < pow2 52 then (magnitude, 0)
  else (magnitude % pow2 52 + pow2 52, magnitude / pow2 52 - 1)

/-- The integer nearest to `num / den`, the even one of two. -/
def roundDiv (num den : Nat) : Nat :=
  let q := num / den
  let r := num % den
  if 2 * r < den then q
  else if den < 2 * r then q + 1
  else q + q % 2

/-- The largest `k` with `2 ^ k ≤ num / den`, for positive numbers. -/
def floorLog2 (num den : Nat) : Int :=
  let k : Int := (num.log2 : Int) - den.log2
  let fits := if 0 ≤ k then den * pow2 k.toNat ≤ num else den ≤ num * pow2 (-k).toNat
  if fits then k else k - 1

/-- The magnitude nearest to `num / den`. -/
def magnitudeOfRatio (num den : Nat) : Nat :=
  if num = 0 ∨ den = 0 then 0
  else
    let e : Int := max (-1074) (floorLog2 num den - 52)
    let m :=
      if 0 ≤ e then roundDiv num (den * pow2 e.toNat) else roundDiv (num * pow2 (-e).toNat) den
    let magnitude := if m < pow2 52 then m else (e + 1074).toNat * pow2 52 + m
    min magnitude infiniteMagnitude

/-- The number nearest to `± digits * 10 ^ exponent`. -/
def ofDecimal (negative : Bool) (digits : Nat) (exponent : Int) : Binary64 :=
  ofMagnitude negative <|
    if 0 ≤ exponent then magnitudeOfRatio (digits * pow10 exponent.toNat) 1
    else magnitudeOfRatio digits (pow10 (-exponent).toNat)

end Binary64

end Tern
