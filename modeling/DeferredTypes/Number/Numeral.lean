import DeferredTypes.Number.Shortest

/-! Written numbers: a sign, digits before and after the point, and an exponent. They are read as
integers or as doubles, and doubles are written as numerals. -/

namespace DeferredTypes

/-- A written number. Digits after the point are absent if there are none; an exponent may be there or
not, whatever its value. -/
structure Numeral where
  negative : Bool
  whole : List Digit
  fraction : List Digit
  exponent : Option Int
  deriving DecidableEq

namespace Numeral

/-- The digits at the beginning of a text, and the rest. -/
def takeDigits : List Char → List Digit × List Char
  | [] => ([], [])
  | c :: rest =>
      match Digit.ofChar? c with
      | some digit =>
          let (digits, rest) := takeDigits rest
          (digit :: digits, rest)
      | none => ([], c :: rest)

/-- An optional minus sign. -/
def takeSign : List Char → Bool × List Char
  | '-' :: rest => (true, rest)
  | rest => (false, rest)

/-- The digits before the point: at least one, and no zero in front of others. -/
def takeWhole (text : List Char) : Option (List Digit × List Char) :=
  match takeDigits text with
  | ([], _) => none
  | (first :: others, rest) =>
      if first = .zero ∧ others ≠ [] then none else some (first :: others, rest)

/-- A point and the digits after it, at least one; or nothing. -/
def takeFraction : List Char → Option (List Digit × List Char)
  | '.' :: text =>
      match takeDigits text with
      | ([], _) => none
      | (first :: others, rest) => some (first :: others, rest)
  | text => some ([], text)

/-- The sign of an exponent, plus if there is none. -/
def takeExponentSign : List Char → Bool × List Char
  | '-' :: rest => (true, rest)
  | '+' :: rest => (false, rest)
  | rest => (false, rest)

/-- The digits of an exponent, at least one. -/
def takeExponentDigits (negative : Bool) (text : List Char) : Option (Option Int × List Char) :=
  match takeDigits text with
  | ([], _) => none
  | (first :: others, rest) =>
      let value : Int := Digits.value (first :: others)
      some (some (if negative then -value else value), rest)

/-- An exponent; or nothing. -/
def takeExponent : List Char → Option (Option Int × List Char)
  | [] => some (none, [])
  | c :: text =>
      if c = 'e' ∨ c = 'E' then
        takeExponentDigits (takeExponentSign text).1 (takeExponentSign text).2
      else some (none, c :: text)

/-- The numeral at the beginning of a text, and the rest. -/
def scan? (text : List Char) : Option (Numeral × List Char) := do
  let (negative, text) := takeSign text
  let (whole, text) ← takeWhole text
  let (fraction, text) ← takeFraction text
  let (exponent, text) ← takeExponent text
  return (⟨negative, whole, fraction, exponent⟩, text)

theorem length_takeDigits (text : List Char) :
    (takeDigits text).1.length + (takeDigits text).2.length = text.length := by
  fun_induction takeDigits text with
  | case1 => rfl
  | case2 c rest digit hdigit digits rest' heq ih =>
      rw [heq] at ih
      simp only [List.length_cons] at ih ⊢
      omega
  | case3 => simp

theorem length_takeSign_le (text : List Char) : (takeSign text).2.length ≤ text.length := by
  unfold takeSign
  split <;> simp

theorem length_takeExponentSign_le (text : List Char) :
    (takeExponentSign text).2.length ≤ text.length := by
  unfold takeExponentSign
  split <;> simp

theorem length_lt_of_takeWhole {text rest : List Char} {digits : List Digit}
    (h : takeWhole text = some (digits, rest)) : rest.length < text.length := by
  have hlength := length_takeDigits text
  unfold takeWhole at h
  split at h
  · cases h
  · rename_i first others rest' heq
    split at h
    · cases h
    · cases h
      rw [heq] at hlength
      simp only [List.length_cons] at hlength
      omega

theorem length_le_of_takeFraction {text rest : List Char} {digits : List Digit}
    (h : takeFraction text = some (digits, rest)) : rest.length ≤ text.length := by
  unfold takeFraction at h
  split at h
  · rename_i text'
    have hlength := length_takeDigits text'
    split at h
    · cases h
    · rename_i first others rest' heq
      cases h
      rw [heq] at hlength
      simp only [List.length_cons] at hlength ⊢
      omega
  · cases h
    exact Nat.le_refl _

theorem length_le_of_takeExponentDigits {negative : Bool} {text rest : List Char} {exponent : Option Int}
    (h : takeExponentDigits negative text = some (exponent, rest)) : rest.length ≤ text.length := by
  have hlength := length_takeDigits text
  unfold takeExponentDigits at h
  split at h
  · cases h
  · rename_i first others rest' heq
    cases h
    rw [heq] at hlength
    simp only at hlength
    omega

theorem length_le_of_takeExponent {text rest : List Char} {exponent : Option Int}
    (h : takeExponent text = some (exponent, rest)) : rest.length ≤ text.length := by
  unfold takeExponent at h
  split at h
  · cases h
    exact Nat.le_refl _
  · rename_i c text'
    split at h
    · have hsign := length_takeExponentSign_le text'
      have hdigits := length_le_of_takeExponentDigits h
      rw [List.length_cons]
      omega
    · cases h
      exact Nat.le_refl _

/-- A numeral takes at least one character off a text. -/
theorem length_lt_of_scan? {text rest : List Char} {numeral : Numeral}
    (h : scan? text = some (numeral, rest)) : rest.length < text.length := by
  have hsign := length_takeSign_le text
  simp only [scan?, Option.bind_eq_bind, Option.bind_eq_some_iff] at h
  obtain ⟨⟨whole, afterWhole⟩, hwhole, ⟨fraction, afterFraction⟩, hfraction, ⟨exponent, afterExponent⟩,
    hexponent, hrest⟩ := h
  cases hrest
  have h1 := length_lt_of_takeWhole hwhole
  have h2 := length_le_of_takeFraction hfraction
  have h3 := length_le_of_takeExponent hexponent
  simp only at h2 h3 ⊢
  omega

/-- The text of a numeral; an exponent always carries its sign. -/
def text (numeral : Numeral) : String :=
  (if numeral.negative then "-" else "") ++ Digits.text numeral.whole ++
    (if numeral.fraction.isEmpty then "" else "." ++ Digits.text numeral.fraction) ++
    match numeral.exponent with
    | none => ""
    | some exponent =>
        "e" ++ (if exponent < 0 then "-" else "+") ++ Digits.text (Digits.ofNat exponent.natAbs)

def ofInt (number : Int) : Numeral := ⟨number < 0, Digits.ofNat number.natAbs, [], none⟩

/-- The natural number that digits alone stand for. -/
def toNat? (numeral : Numeral) : Option Nat :=
  if !numeral.negative ∧ numeral.fraction.isEmpty ∧ numeral.exponent = none then
    some (Digits.value numeral.whole)
  else none

/-- The 64-bit integer a numeral without point and exponent stands for. A negative zero is none. -/
def toInt64? (numeral : Numeral) : Option Int64 :=
  let value : Int := Digits.value numeral.whole
  if numeral.fraction.isEmpty ∧ numeral.exponent = none then
    if numeral.negative then
      if 0 < value ∧ value ≤ 1 <<< 63 then some (Int64.ofInt (-value)) else none
    else if value < 1 <<< 63 then some (Int64.ofInt value) else none
  else none

/-- Appends digits to a significand of 64 bits as long as they fit, and counts those that do. -/
def absorb (significand : Nat) : List Digit → Nat × Nat
  | [] => (significand, 0)
  | digit :: rest =>
      let next := 10 * significand + digit.val
      if next < UInt64.size then
        let (significand, kept) := absorb next rest
        (significand, kept + 1)
      else (significand, 0)

/-- The greatest power of ten below infinity. -/
def maxTenPower : Nat := 308

/-- A magnitude times a power of ten, if that is finite. -/
def scaleUp? (x : Binary64) (power : Nat) : Option Binary64 :=
  if power ≤ maxTenPower then
    let product := x.mul (.powerOfTen power)
    if product.isFinite then some product else none
  else if x = ⟨0⟩ then some x
  else none

/-- A magnitude over a power of ten. A power beyond the greatest is divided by in several steps, until
nothing is left of the magnitude. -/
def scaleDown (x : Binary64) (power : Nat) : Binary64 :=
  if power ≤ maxTenPower then x.div (.powerOfTen power)
  else if x = ⟨0⟩ then x
  else scaleDown (x.div (.powerOfTen maxTenPower)) (power - maxTenPower)
termination_by power
decreasing_by
  simp only [maxTenPower] at *
  omega

/-- The double a numeral is read as, unless it is too large. The leading digits, as many as fit into 64
bits, are rounded to a double, and so is the power of ten; their product or quotient is rounded again.
The result may differ from the nearest double in the last place. -/
def toBinary64? (numeral : Numeral) : Option Binary64 := do
  let (significand, kept) := absorb 0 numeral.whole
  let (significand, added) := absorb significand numeral.fraction
  let exponent : Int := (numeral.whole.length - kept : Nat) - added + numeral.exponent.getD 0
  let leading := Binary64.ofRatio significand 1
  let magnitude ← if 0 ≤ exponent then scaleUp? leading exponent.toNat
    else some (scaleDown leading (-exponent).toNat)
  return if numeral.negative then magnitude.negate else magnitude

/-- The numeral of a finite double: the fewest digits, of two equally near the even ones. It has an
exponent if its first digit stands before the place of `10 ^ -5` or after that of `10 ^ 15`, and digits
after the point otherwise. -/
def ofBinary64? (x : Binary64) : Option Numeral :=
  if x.isFinite then
    let decimal := x.shortest .even
    let digits := Digits.ofNat decimal.digits
    let leading : Int := digits.length - 1 + decimal.exponent
    if -5 ≤ leading ∧ leading < 16 then
      let (whole, fraction) := decimal.split
      some ⟨x.negative, whole, if fraction.isEmpty then [.zero] else fraction, none⟩
    else some ⟨x.negative, digits.take 1, digits.drop 1, some leading⟩
  else none

end Numeral

end DeferredTypes
