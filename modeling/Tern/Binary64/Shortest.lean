import Tern.Binary64

/-!
The text of a floating point number: the fewest digits that read back as the same number, and of
those the nearest to it, written without an exponent.
-/

set_option autoImplicit false

namespace Tern.Binary64

structure Decimal where
  digits : Nat
  exponent : Int
  deriving DecidableEq, Repr

/-- The multiple of `10 ^ exponent` nearest to the number of the given magnitude, a half going up,
if some multiple reads back as that magnitude. -/
def nearestAt? (magnitude : Nat) (exponent : Int) : Option Decimal :=
  let (m, e) := significand magnitude
  -- the number is `num / den` units of `10 ^ exponent`
  let (num, den) :=
    if 0 ≤ exponent then (m * pow2 e, pow2 1074 * pow10 exponent.toNat)
    else (m * pow2 e * pow10 (-exponent).toNat, pow2 1074)
  let below := num / den
  let above := below + 1
  let reads (d : Nat) : Bool := 0 < d && (ofDecimal false d exponent).magnitude = magnitude
  match reads below, reads above with
  | true, true => if 2 * (num % den) < den then some ⟨below, exponent⟩ else some ⟨above, exponent⟩
  | true, false => some ⟨below, exponent⟩
  | false, true => some ⟨above, exponent⟩
  | false, false => none

/-- The exponent `k` with `10 ^ k ≤ x < 10 ^ (k + 1)`, for the number `x` of that magnitude. -/
def floorLog10 (magnitude : Nat) : Int :=
  let (m, e) := significand magnitude
  let num := m * pow2 e
  let whole := num / pow2 1074
  if 0 < whole then (Nat.toDigits 10 whole).length - 1
  else
    -- `x < 1`: scale by a power of ten that makes every such number at least one
    (Nat.toDigits 10 (num * pow10 330 / pow2 1074)).length - 331

def shortest (magnitude : Nat) : Decimal :=
  let top := floorLog10 magnitude
  match (List.range 17).findSome? fun (n : Nat) => nearestAt? magnitude (top - n) with
  | some d => d
  | none => ⟨0, 0⟩

/-- Writes a decimal without an exponent and without needless zeros. -/
def Decimal.text (d : Decimal) : String :=
  let digits := Nat.toDigits 10 d.digits
  if 0 ≤ d.exponent then String.ofList (digits ++ List.replicate d.exponent.toNat '0')
  else
    let places := (-d.exponent).toNat
    let padded := List.replicate (places + 1 - digits.length) '0' ++ digits
    let whole := padded.take (padded.length - places)
    let fraction := (padded.drop (padded.length - places)).reverse.dropWhile (· = '0')
    if fraction.isEmpty then String.ofList whole
    else String.ofList (whole ++ '.' :: fraction.reverse)

def text (x : Binary64) : String :=
  let sign := if x.isNegative then "-" else ""
  if x.isNaN then "NaN"
  else if x.isInfinite then sign ++ "inf"
  else if x.magnitude = 0 then sign ++ "0"
  else sign ++ (shortest x.magnitude).text

end Tern.Binary64
