import DeferredTypes.Number.Numeral

/-! Values of JSON texts. Numbers are kept as they are written, fields in their order and with
repetitions. -/

namespace DeferredTypes.Json

inductive Value
  | null
  | bool (value : Bool)
  | number (numeral : Numeral)
  | string (value : String)
  | array (items : List Value)
  | object (fields : List (String × Value))
  /-- A string, or an object with a name, in which an escape stands for half of a character. Such a
  value can be passed over but not read. -/
  | unreadable
  deriving Inhabited

namespace Value

mutual

/-- Whether a value can be kept for later: its numbers are within the range of doubles, its strings can be
read, and no more than so many arrays and objects are open at once. -/
def sound (level : Nat) : Value → Bool
  | .null | .bool _ | .string _ => true
  | .number numeral => numeral.toBinary64?.isSome
  | .array items => 0 < level && soundItems (level - 1) items
  | .object fields => 0 < level && soundFields (level - 1) fields
  | .unreadable => false

def soundItems (level : Nat) : List Value → Bool
  | [] => true
  | item :: rest => sound level item && soundItems level rest

def soundFields (level : Nat) : List (String × Value) → Bool
  | [] => true
  | (_, value) :: rest => sound level value && soundFields level rest

end

end Value

end DeferredTypes.Json
