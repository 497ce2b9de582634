/-!
Double-precision numbers taken apart into sign, significand and exponent, and put
together again from an exact ratio, rounded to nearest with ties to even.
-/

namespace ReactiveMarkup.Number

/-- What the sixty-four bits of a number say. A finite number is
`± significand · 2 ^ exponent`. -/
inductive Parts where
  | nan
  | infinite (negative : Bool)
  | finite (negative : Bool) (significand : Nat) (exponent : Int)
  deriving Repr, DecidableEq

/-- The weight of the lowest significand bit of the smallest numbers. -/
def leastExponent : Int := -1074

/-- Reads sixty-four bits as sign, significand and exponent. -/
def Parts.ofBits (bits : Nat) : Parts :=
  let negative := decide (Nat.pow 2 63 ≤ bits % Nat.pow 2 64)
  let field : Nat := bits / Nat.pow 2 52 % Nat.pow 2 11
  let fraction : Nat := bits % Nat.pow 2 52
  if field = 2047 then
    if fraction = 0 then .infinite negative else .nan
  else if field = 0 then .finite negative fraction leastExponent
  else .finite negative (fraction + Nat.pow 2 52) ((field : Int) - 1075)

def parts (x : Float) : Parts := .ofBits x.toBits.toNat

def nan : Float := .ofBits 0x7ff8000000000000

/-- The number whose magnitude has the given bits. -/
def signed (negative : Bool) (magnitude : Nat) : Float :=
  .ofBits (UInt64.ofNat (magnitude + if negative then Nat.pow 2 63 else 0))

/-- The bits of infinity, above those of every finite magnitude. -/
def infiniteBits : Nat := 0x7ff0000000000000

/-- The quotient rounded to the nearest integer, a half to the even one. -/
def roundQuotient (numerator denominator : Nat) : Nat :=
  let quotient := numerator / denominator
  let twice := 2 * (numerator % denominator)
  if denominator < twice ∨ (twice = denominator ∧ quotient % 2 = 1) then quotient + 1 else quotient

/-- The bits of the number nearest to a positive ratio. Consecutive numbers have
consecutive bits, so a significand that rounds up to the next power of two needs
no adjustment: the carry runs into the exponent field. -/
def bitsOfRatio (numerator denominator : Nat) : Nat :=
  if numerator = 0 then 0
  else
    let estimate : Int := (Nat.log2 numerator : Int) - Nat.log2 denominator - 53
    let scaled (exponent : Int) : Nat × Nat :=
      (numerator * Nat.pow 2 (-exponent).toNat, denominator * Nat.pow 2 exponent.toNat)
    let start := max leastExponent estimate
    let (high, low) := scaled start
    let exponent := if Nat.pow 2 53 * low ≤ high then start + 1 else start
    let (high, low) := scaled exponent
    min infiniteBits (roundQuotient high low + (exponent - leastExponent).toNat * Nat.pow 2 52)

def ofRatio (negative : Bool) (numerator denominator : Nat) : Float :=
  signed negative (bitsOfRatio numerator denominator)

/-- The integer that a number is, if it is one. -/
def toInt? (x : Float) : Option Int :=
  match parts x with
  | .finite negative significand exponent =>
    let scale := Nat.pow 2 (-exponent).toNat
    if significand % scale = 0 then
      let magnitude : Int := (significand / scale * Nat.pow 2 exponent.toNat : Nat)
      some (if negative then -magnitude else magnitude)
    else none
  | _ => none

def isNaN (x : Float) : Bool := parts x == .nan

def isFinite (x : Float) : Bool :=
  match parts x with
  | .finite .. => true
  | _ => false

def ofNat (n : Nat) : Float := ofRatio false n 1

/-- The remainder of truncated division, which has the sign of the dividend. It is
exact: the remainder of two numbers is always a number. -/
def remainder (x y : Float) : Float :=
  match parts x, parts y with
  | .finite negative m e, .finite _ n f =>
    if n = 0 then nan
    else
      let low := min e f
      let rest := m * Nat.pow 2 (e - low).toNat % (n * Nat.pow 2 (f - low).toNat)
      ofRatio negative (rest * Nat.pow 2 low.toNat) (Nat.pow 2 (-low).toNat)
  | .finite .., .infinite _ => x
  | _, _ => nan

end ReactiveMarkup.Number
