import DeferredTypes.Number.Binary64
import DeferredTypes.Number.Digits

/-! The shortest decimal that names a double. A decimal names a double if it lies in the interval of
numbers that round to it. Of the decimals with the fewest digits in that interval the nearest to the
double is taken; where two are equally near, a rule of the format decides. -/

namespace DeferredTypes

/-- The number `digits * 10 ^ exponent`. -/
structure Decimal where
  digits : Nat
  exponent : Int
  deriving DecidableEq

/-- Which of two equally near decimals is written. -/
inductive Tie
  | up
  | even
  deriving DecidableEq

/-- The count of decimal digits of a positive number. -/
def decimalLength (number : Nat) : Nat :=
  if number = 0 then 0 else decimalLength (number / 10) + 1

/-- The least `k` with `num / den < 10 ^ k`, for positive `num` and `den`. -/
def decimalMagnitude (num den : Nat) : Int :=
  if den ≤ num then decimalLength (num / den)
  else 1 - (decimalLength ((den + num - 1) / num - 1) : Int)

/-- Moves the zeros at the end of the digits into the exponent. -/
def Decimal.trim (x : Decimal) : Decimal :=
  if h : x.digits ≠ 0 ∧ x.digits % 10 = 0 then trim ⟨x.digits / 10, x.exponent + 1⟩ else x
termination_by x.digits
decreasing_by
  have := h.1
  omega

/-- The digits before and after the decimal point. There is at least one before it; behind it there may be
none. -/
def Decimal.split (x : Decimal) : List Digit × List Digit :=
  let digits := Digits.ofNat x.digits
  if 0 ≤ x.exponent then (digits ++ List.replicate x.exponent.toNat .zero, [])
  else
    let places := (-x.exponent).toNat
    let padded := List.replicate (places + 1 - digits.length) .zero ++ digits
    padded.splitAt (padded.length - places)

/-- The numbers that round to a double, as quotients by `den`. The ends belong to the interval if
`closed`. -/
structure RoundingInterval where
  low : Nat
  value : Nat
  high : Nat
  den : Nat
  closed : Bool

namespace RoundingInterval

def holds (interval : RoundingInterval) (num den : Nat) : Bool :=
  if interval.closed then
    interval.low * den ≤ num * interval.den ∧ num * interval.den ≤ interval.high * den
  else interval.low * den < num * interval.den ∧ num * interval.den < interval.high * den

/-- The interval of a positive magnitude. The gap below a power of two is half of the gap above it; an
even mantissa owns the ends of its interval, since a half rounds to it. -/
def ofMagnitude (x : Dyadic) : RoundingInterval :=
  let below := if x.mantissa = 1 <<< 52 ∧ -1074 < x.exponent then 1 else 2
  let scale := 1 <<< (x.exponent - 2).toNat
  { low := (4 * x.mantissa - below) * scale
    value := 4 * x.mantissa * scale
    high := (4 * x.mantissa + 2) * scale
    den := 1 <<< (2 - x.exponent).toNat
    closed := x.mantissa % 2 = 0 }

/-- The decimal with at most `count` digits that the format writes, if one lies in the interval: the
neighbours of the value on the grid of these decimals are tried, the nearer one first. -/
def decimal? (interval : RoundingInterval) (tie : Tie) (count : Nat) : Option Decimal :=
  let exponent := decimalMagnitude interval.value interval.den - count
  let num := interval.value * Nat.pow 10 (-exponent).toNat
  let den := interval.den * Nat.pow 10 exponent.toNat
  let low := num / den
  let twice := 2 * (num % den)
  let scaled (digits : Nat) : Nat × Nat :=
    (digits * Nat.pow 10 exponent.toNat, Nat.pow 10 (-exponent).toNat)
  let fits (digits : Nat) : Bool := interval.holds (scaled digits).1 (scaled digits).2
  let lowFirst := twice < den ∨ (twice = den ∧ tie = .even ∧ low % 2 = 0)
  let near := if lowFirst then low else low + 1
  let far := if lowFirst then low + 1 else low
  if fits near then some ⟨near, exponent⟩
  else if fits far then some ⟨far, exponent⟩
  else none

end RoundingInterval

/-- The shortest decimal that names a finite number, up to its sign. Seventeen digits always suffice. -/
def Binary64.shortest (tie : Tie) (x : Binary64) : Decimal :=
  if x.magnitude.mantissa = 0 then ⟨0, 0⟩
  else
    let interval := RoundingInterval.ofMagnitude x.magnitude
    match (List.range 17).findSome? fun count => interval.decimal? tie (count + 1) with
    | some decimal => decimal.trim
    | none => ⟨0, 0⟩

end DeferredTypes
