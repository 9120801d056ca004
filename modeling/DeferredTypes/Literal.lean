import DeferredTypes.Number.Shortest

/-! Statically known scalars and the keys of array shapes, with their canonical text. -/

namespace DeferredTypes

/-- A statically known scalar value. -/
inductive Literal
  | int (value : Int64)
  | float (value : Binary64)
  | string (value : String)
  | bool (value : Bool)
  | null
  deriving DecidableEq, Inhabited

/-- The key of an entry of an array shape. -/
inductive Key
  | int (index : Int64)
  | string (name : String)
  deriving DecidableEq, Inhabited

/-- A decimal without an exponent; the point is written only if digits follow it. -/
def Decimal.positional (x : Decimal) : String :=
  let (whole, fraction) := x.split
  Digits.text whole ++ (if fraction.isEmpty then "" else "." ++ Digits.text fraction)

/-- The shortest text that names a number, never with an exponent; of two equally near decimals the
greater is taken. Zero keeps its sign, a NaN has none. -/
def Binary64.display (x : Binary64) : String :=
  if x.isNaN then "NaN"
  else (if x.negative then "-" else "") ++
    (if x.isFinite then (x.shortest .up).positional else "inf")

def Literal.display : Literal → String
  | .int value => "int(" ++ integerText value.toInt ++ ")"
  | .float value => "float(" ++ value.display ++ ")"
  | .string value => "string(" ++ value ++ ")"
  | .bool value => "bool(" ++ (if value then "true" else "false") ++ ")"
  | .null => "null"

def Key.display : Key → String
  | .int index => integerText index.toInt
  | .string name => name

end DeferredTypes
