/-! Decimal digits, most significant first, and the decimal text of integers. -/

namespace DeferredTypes

abbrev Digit := Fin 10

namespace Digit

def zero : Digit := Fin.ofNat 10 0

def toChar (digit : Digit) : Char := Char.ofNat (48 + digit.val)

def ofChar? (c : Char) : Option Digit :=
  if 48 ≤ c.toNat ∧ c.toNat ≤ 57 then some (Fin.ofNat 10 (c.toNat - 48)) else none

theorem ofChar?_toChar : ∀ digit : Digit, ofChar? digit.toChar = some digit := by
  decide

end Digit

namespace Digits

/-- The number a list of digits stands for. -/
def value (digits : List Digit) : Nat :=
  digits.foldl (fun number digit => 10 * number + digit.val) 0

/-- The digits of a number, without leading zeros; zero has the one digit `0`. -/
def ofNat (number : Nat) : List Digit :=
  if number < 10 then [Fin.ofNat 10 number]
  else ofNat (number / 10) ++ [Fin.ofNat 10 number]

theorem value_append_singleton (digits : List Digit) (last : Digit) :
    value (digits ++ [last]) = 10 * value digits + last.val := by
  simp [value]

theorem value_ofNat (number : Nat) : value (ofNat number) = number := by
  fun_induction ofNat number with
  | case1 number h => simp [value, Nat.mod_eq_of_lt h]
  | case2 number h ih =>
      rw [value_append_singleton, ih]
      simp only [Fin.val_ofNat]
      omega

def text (digits : List Digit) : String :=
  String.ofList (digits.map Digit.toChar)

end Digits

/-- The decimal text of an integer; only negative ones carry a sign. -/
def integerText (number : Int) : String :=
  (if number < 0 then "-" else "") ++ Digits.text (Digits.ofNat number.natAbs)

end DeferredTypes
