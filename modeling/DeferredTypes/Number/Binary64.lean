/-! Double-precision binary numbers as bit patterns, and rounding to them. The arithmetic is exact
arithmetic on natural numbers followed by one rounding to the nearest representable number. -/

namespace DeferredTypes

/-- A double-precision number, told apart by its bits: the two zeros differ, and so do two NaNs with
different payloads. -/
structure Binary64 where
  bits : UInt64
  deriving DecidableEq, Inhabited

/-- A magnitude `mantissa * 2 ^ exponent`. -/
structure Dyadic where
  mantissa : Nat
  exponent : Int
  deriving DecidableEq

/-- The quotient nearest to `num / den`; a half goes to the even neighbour. -/
def roundHalfEven (num den : Nat) : Nat :=
  let low := num / den
  let twice := 2 * (num % den)
  if twice < den ∨ (twice = den ∧ low % 2 = 0) then low else low + 1

/-- The greatest `e` with `2 ^ e ≤ num / den`, for positive `num` and `den`. -/
def floorLog2 (num den : Nat) : Int :=
  let guess : Int := (num.log2 : Int) - den.log2
  if den <<< guess.toNat ≤ num <<< (-guess).toNat then guess else guess - 1

namespace Binary64

/-- The sign bit. -/
def negative (x : Binary64) : Bool := x.bits.toNat >>> 63 = 1

/-- The biased exponent, which is all ones for infinities and NaNs. -/
def exponentField (x : Binary64) : Nat := (x.bits.toNat >>> 52) % 2048

def fractionField (x : Binary64) : Nat := x.bits.toNat % (1 <<< 52)

/-- Neither an infinity nor a NaN. -/
def isFinite (x : Binary64) : Bool := x.exponentField ≠ 2047

def isNaN (x : Binary64) : Bool := x.exponentField = 2047 ∧ x.fractionField ≠ 0

/-- The magnitude of a finite number. Numbers with the least exponent have no implicit leading bit. -/
def magnitude (x : Binary64) : Dyadic :=
  if x.exponentField = 0 then ⟨x.fractionField, -1074⟩
  else ⟨(1 <<< 52) + x.fractionField, (x.exponentField : Int) - 1075⟩

def infinity : Binary64 := ⟨0x7ff0000000000000⟩

/-- The same magnitude with the sign bit set. -/
def negate (x : Binary64) : Binary64 := ⟨x.bits ||| 0x8000000000000000⟩

/-- The number nearest to `num / den`, a half going to the even neighbour; infinity where the quotient
is beyond the greatest finite number. The spacing is `2 ^ q`, never finer than `2 ^ -1074`, and adding
the rounded mantissa to the shifted exponent carries into the exponent by itself. -/
def ofRatio (num den : Nat) : Binary64 :=
  if num = 0 then ⟨0⟩
  else
    let q : Int := max (floorLog2 num den - 52) (-1074)
    let mantissa := roundHalfEven (num <<< (-q).toNat) (den <<< q.toNat)
    let bits := ((q + 1074).toNat <<< 52) + mantissa
    if bits < infinity.bits.toNat then ⟨UInt64.ofNat bits⟩ else infinity

/-- The magnitude of a finite number as a quotient. -/
def ratio (x : Binary64) : Nat × Nat :=
  (x.magnitude.mantissa <<< x.magnitude.exponent.toNat, 1 <<< (-x.magnitude.exponent).toNat)

/-- The rounded product of two magnitudes. -/
def mul (x y : Binary64) : Binary64 :=
  ofRatio (x.ratio.1 * y.ratio.1) (x.ratio.2 * y.ratio.2)

/-- The rounded quotient of two magnitudes, for a divisor other than zero. -/
def div (x y : Binary64) : Binary64 :=
  ofRatio (x.ratio.1 * y.ratio.2) (x.ratio.2 * y.ratio.1)

/-- The power of ten nearest to `10 ^ n`. -/
def powerOfTen (n : Nat) : Binary64 := ofRatio (Nat.pow 10 n) 1

end Binary64

end DeferredTypes
