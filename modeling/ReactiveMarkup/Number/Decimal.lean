import ReactiveMarkup.Number.Binary

/-!
Decimal text of numbers. Writing uses the fewest digits that read back as the same
number and never an exponent; reading rounds to the nearest number.
-/

namespace ReactiveMarkup.Number

/-- A decimal: `digits · 10 ^ exponent`. -/
structure Decimal where
  digits : Nat
  exponent : Int
  deriving Repr, DecidableEq

namespace Decimal

/-- The magnitude with the given significand and exponent, in full. -/
def exact (significand : Nat) (exponent : Int) : Decimal :=
  if 0 ≤ exponent then ⟨significand * Nat.pow 2 exponent.toNat, 0⟩
  else ⟨significand * Nat.pow 5 (-exponent).toNat, exponent⟩

/-- The reals that round to one number, in quarter units of its significand: all
between `low` and `high`, the ends included when `closed`. -/
structure Interval where
  low : Nat
  center : Nat
  high : Nat
  closed : Bool
  exponent : Int

/-- The neighbour below a power of two is half as far away as the one above. -/
def Interval.around (significand : Nat) (exponent : Int) : Interval where
  low := if significand = Nat.pow 2 52 ∧ leastExponent < exponent then 4 * significand - 1
    else 4 * significand - 2
  center := 4 * significand
  high := 4 * significand + 2
  closed := significand % 2 = 0
  exponent := exponent - 2

/-- Factors that compare quarter units with steps of `10 ^ place`: `x` quarter units are
`x · fst / snd` steps. -/
def Interval.scale (interval : Interval) (place : Int) : Nat × Nat :=
  (Nat.pow 2 interval.exponent.toNat * Nat.pow 10 (-place).toNat,
   Nat.pow 2 (-interval.exponent).toNat * Nat.pow 10 place.toNat)

def Interval.contains (interval : Interval) (decimal : Decimal) : Bool :=
  let (units, steps) := interval.scale decimal.exponent
  let position := decimal.digits * steps
  if interval.closed then interval.low * units ≤ position && position ≤ interval.high * units
  else interval.low * units < position && position < interval.high * units

/-- The decimal with last digit at `place` nearest to the center among those in the
interval. Only the two neighbours of the center can be. A tie goes up. -/
def Interval.nearest? (interval : Interval) (place : Int) : Option Decimal :=
  let (units, steps) := interval.scale place
  let center := interval.center * units
  let below : Decimal := ⟨center / steps, place⟩
  let above : Decimal := ⟨center / steps + 1, place⟩
  match interval.contains below, interval.contains above with
  | true, true => some (if 2 * (center % steps) < steps then below else above)
  | true, false => some below
  | false, true => some above
  | false, false => none

/-- The first hit on ever finer grids. -/
def Interval.search (interval : Interval) (fallback : Decimal) : Nat → Int → Decimal
  | 0, _ => fallback
  | steps + 1, place =>
    (interval.nearest? place).getD (interval.search fallback steps (place - 1))

/-- The fewest digits that read back as the given positive magnitude. Seventeen digits
always suffice, and the search starts at most three places too high. -/
def shortest (significand : Nat) (exponent : Int) : Decimal :=
  let bits : Int := Nat.log2 significand + exponent + 1
  (Interval.around significand exponent).search (exact significand exponent) 24
    (bits * 30103 / 100000 + 2)

/-- Digits without an exponent. -/
def text (decimal : Decimal) : String :=
  let digits := Nat.toDigits 10 decimal.digits
  let places := (-decimal.exponent).toNat
  let padded := List.replicate (places + 1 - digits.length) '0' ++ digits
  let whole := padded.take (padded.length - places)
  let fraction := padded.drop (padded.length - places)
  let whole := whole ++ List.replicate decimal.exponent.toNat '0'
  .ofList (if fraction.isEmpty then whole else whole ++ '.' :: fraction)

/-- A power of ten that a decimal is not below: `2 ^ 10` is above `10 ^ 3`. -/
def lowerPlace (decimal : Decimal) : Int :=
  (3 * Nat.log2 decimal.digits / 10 : Nat) + decimal.exponent

/-- A power of ten that a decimal is below: `2 ^ 100` is below `10 ^ 31`. -/
def upperPlace (decimal : Decimal) : Int :=
  (31 * (Nat.log2 decimal.digits + 1) / 100 + 1 : Nat) + decimal.exponent

/-- The nearest number. Magnitudes beyond every number are settled by their size alone, so
a huge exponent costs nothing. -/
def toFloat (negative : Bool) (decimal : Decimal) : Float :=
  if decimal.digits = 0 then signed negative 0
  else
    if 400 < decimal.lowerPlace then signed negative infiniteBits
    else if decimal.upperPlace < -400 then signed negative 0
    else ofRatio negative (decimal.digits * Nat.pow 10 decimal.exponent.toNat)
      (Nat.pow 10 (-decimal.exponent).toNat)

end Decimal

/-- The text of a number: the fewest digits that read back, and never an exponent. -/
def text (x : Float) : String :=
  match parts x with
  | .nan => "NaN"
  | .infinite negative => if negative then "-inf" else "inf"
  | .finite negative significand exponent =>
    let magnitude := if significand = 0 then "0" else (Decimal.shortest significand exponent).text
    if negative then "-" ++ magnitude else magnitude

def digitValue (c : Char) : Nat := c.toNat - '0'.toNat

/-- The number that decimal digits denote, taken one after another. -/
def digitwise (digits : List Char) : Nat :=
  digits.foldl (fun total c => 10 * total + digitValue c) 0

/-- The number that decimal digits denote, taken by halves down to a depth. -/
def halfwise : Nat → List Char → Nat
  | 0, digits => digitwise digits
  | depth + 1, digits =>
    if digits.length < 64 then digitwise digits
    else
      let low := digits.length / 2
      let high := digits.length - low
      halfwise depth (digits.take high) * Nat.pow 10 low + halfwise depth (digits.drop high)

/-- The number that a run of decimal digits denotes. Halves of a long run are put together
by few large multiplications. -/
def digitsValue (digits : List Char) : Nat := halfwise (Nat.log2 digits.length) digits

theorem foldl_digits (digits : List Char) (start : Nat) :
    digits.foldl (fun total c => 10 * total + digitValue c) start =
      start * Nat.pow 10 digits.length + digitwise digits := by
  induction digits generalizing start with
  | nil => simp [digitwise]
  | cons c rest ih =>
    have scaled : Nat.pow 10 (rest.length + 1) = Nat.pow 10 rest.length * 10 := rfl
    simp only [digitwise, List.foldl_cons, List.length_cons, scaled]
    rw [ih, ih (10 * 0 + digitValue c), Nat.add_mul, Nat.add_assoc, Nat.mul_comm 10 start,
      Nat.mul_assoc, Nat.mul_comm 10, Nat.mul_zero, Nat.zero_add]

theorem digitwise_append (high low : List Char) :
    digitwise (high ++ low) = digitwise high * Nat.pow 10 low.length + digitwise low := by
  rw [digitwise, List.foldl_append, foldl_digits]
  rfl

theorem halfwise_eq_digitwise (depth : Nat) (digits : List Char) :
    halfwise depth digits = digitwise digits := by
  induction depth generalizing digits with
  | zero => rfl
  | succ depth ih =>
    rw [halfwise]
    split
    · rfl
    · simp only [ih]
      have whole := digitwise_append (digits.take (digits.length - digits.length / 2))
        (digits.drop (digits.length - digits.length / 2))
      rw [List.take_append_drop, List.length_drop] at whole
      rw [whole]
      congr 3
      omega

/-- Reading by halves is reading digit by digit. -/
theorem digitsValue_eq_digitwise (digits : List Char) : digitsValue digits = digitwise digits :=
  halfwise_eq_digitwise _ digits

/-- The exponent that digits denote. Once it has reached 65536 no further digit counts,
which only a number with as many digits before its exponent can show. -/
def exponentValue (negative : Bool) (digits : List Char) : Int :=
  let magnitude : Nat :=
    digits.foldl (fun total c => if total < 65536 then 10 * total + digitValue c else total) 0
  if negative then -magnitude else magnitude

/-- Reads whole digits, digits after the point, and a decimal exponent. -/
def ofDigits (negative : Bool) (whole fraction : List Char) (exponent : Int) : Float :=
  Decimal.toFloat negative ⟨digitsValue (whole ++ fraction), exponent - fraction.length⟩

/-- Splits off an optional sign. -/
def readSign : List Char → Bool × List Char
  | '-' :: rest => (true, rest)
  | '+' :: rest => (false, rest)
  | chars => (false, chars)

/-- An exponent part: nothing, or a mark, an optional sign and digits up to the end. -/
def readExponent? : List Char → Option Int
  | [] => some 0
  | mark :: rest =>
    let (negative, digits) := readSign rest
    if (mark == 'e' || mark == 'E') && !digits.isEmpty && digits.all Char.isDigit then
      some (exponentValue negative digits)
    else none

/-- Reads digits with an optional point and exponent; at least one digit stands
before or after the point. -/
def readDecimal? (negative : Bool) (chars : List Char) : Option Float :=
  let whole := chars.takeWhile Char.isDigit
  let rest := chars.dropWhile Char.isDigit
  let (fraction, rest) := match rest with
    | '.' :: rest => (rest.takeWhile Char.isDigit, rest.dropWhile Char.isDigit)
    | _ => ([], rest)
  if whole.isEmpty && fraction.isEmpty then none
  else (readExponent? rest).map (ofDigits negative whole fraction)

/-- Reads a whole text as a number: a decimal, or the words for infinity and
not-a-number in any case. -/
def read? (source : String) : Option Float :=
  let (negative, chars) := readSign source.toList
  let word := chars.map Char.toLower
  if word = "inf".toList ∨ word = "infinity".toList then some (signed negative infiniteBits)
  else if word = "nan".toList then some nan
  else readDecimal? negative chars

end ReactiveMarkup.Number
