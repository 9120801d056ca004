import DeferredTypes.Json.Value

/-! Writing JSON texts, all on one line or one item to a line. -/

namespace DeferredTypes.Json

def hexChar (digit : Nat) : Char :=
  if digit < 10 then Char.ofNat (48 + digit) else Char.ofNat (87 + digit)

/-- A character within quotes. Quotes, backslashes and control characters are escaped, nothing else. -/
def escapeChar (c : Char) : List Char :=
  if c = '"' then ['\\', '"']
  else if c = '\\' then ['\\', '\\']
  else if c = '\x08' then ['\\', 'b']
  else if c = '\x0c' then ['\\', 'f']
  else if c = '\n' then ['\\', 'n']
  else if c = '\r' then ['\\', 'r']
  else if c = '\t' then ['\\', 't']
  else if c.toNat < 0x20 then
    ['\\', 'u', '0', '0', hexChar (c.toNat / 16), hexChar (c.toNat % 16)]
  else [c]

def quote (text : String) : String :=
  "\"" ++ String.ofList (text.toList.flatMap escapeChar) ++ "\""

/-- How the parts of a value are set apart. -/
structure Layout where
  /-- What stands before an item or field, and before the bracket that closes them, by how many arrays
  and objects it stands in. -/
  newline : Nat → String
  /-- What stands between a name and its value. -/
  colon : String

namespace Layout

/-- Nothing between the tokens. -/
def compact : Layout := ⟨fun _ => "", ":"⟩

/-- Each item on a line of its own, indented by two blanks for each array or object it stands in. -/
def pretty : Layout := ⟨fun depth => "\n" ++ String.ofList (List.replicate (2 * depth) ' '), ": "⟩

end Layout

namespace Value

mutual

/-- The text of a value that stands in so many arrays and objects. What cannot be read is written as
null. -/
def write (layout : Layout) (depth : Nat) : Value → String
  | .null | .unreadable => "null"
  | .bool value => if value then "true" else "false"
  | .number numeral => numeral.text
  | .string value => quote value
  | .array [] => "[]"
  | .array (item :: rest) =>
      "[" ++ layout.newline (depth + 1) ++ write layout (depth + 1) item ++
        writeItems layout (depth + 1) rest ++ layout.newline depth ++ "]"
  | .object [] => "\x7b\x7d"
  | .object ((name, value) :: rest) =>
      "\x7b" ++ layout.newline (depth + 1) ++ quote name ++ layout.colon ++
        write layout (depth + 1) value ++ writeFields layout (depth + 1) rest ++
        layout.newline depth ++ "\x7d"

/-- The items after the first. -/
def writeItems (layout : Layout) (depth : Nat) : List Value → String
  | [] => ""
  | item :: rest =>
      "," ++ layout.newline depth ++ write layout depth item ++ writeItems layout depth rest

/-- The fields after the first. -/
def writeFields (layout : Layout) (depth : Nat) : List (String × Value) → String
  | [] => ""
  | (name, value) :: rest =>
      "," ++ layout.newline depth ++ quote name ++ layout.colon ++ write layout depth value ++
        writeFields layout depth rest

end

def text (layout : Layout) (value : Value) : String := value.write layout 0

end Value

end DeferredTypes.Json
