import DeferredTypes.Json.Token
import DeferredTypes.Json.Value

/-! Reading JSON texts. A machine takes one token after the other; the arrays and objects that are open
are on its stack, with the items and fields that are complete. -/

namespace DeferredTypes.Json

/-- An open array or object, with what is complete of it, the latest first. In an object, the value of
the named field is being read. -/
inductive Frame
  | items (done : List Value)
  | fields (done : List (Option String × Value)) (name : Option String)

/-- What may come next. -/
inductive State
  /-- A value. -/
  | wantValue (stack : List Frame)
  /-- A value or the end of the array. -/
  | wantItemOrEnd (stack : List Frame)
  /-- A name or the end of the object. -/
  | wantNameOrEnd (stack : List Frame)
  /-- A name. -/
  | wantName (stack : List Frame) (done : List (Option String × Value))
  /-- A colon. -/
  | wantColon (stack : List Frame) (done : List (Option String × Value)) (name : Option String)
  /-- What follows a complete value. -/
  | complete (stack : List Frame) (value : Value)

/-- The object with some fields; it cannot be read if one of the names cannot. -/
def Value.ofFields (fields : List (Option String × Value)) : Value :=
  match fields.mapM fun (name, value) => name.map fun name => (name, value) with
  | some fields => .object fields
  | none => .unreadable

namespace State

/-- Takes the first token of a value. -/
def beginValue (stack : List Frame) : Token → Option State
  | .openBracket => some (.wantItemOrEnd stack)
  | .openBrace => some (.wantNameOrEnd stack)
  | .null => some (.complete stack .null)
  | .bool value => some (.complete stack (.bool value))
  | .number numeral => some (.complete stack (.number numeral))
  | .string (some value) => some (.complete stack (.string value))
  | .string none => some (.complete stack .unreadable)
  | .closeBracket | .closeBrace | .colon | .comma => none

def step : State → Token → Option State
  | .wantValue stack, token => beginValue stack token
  | .wantItemOrEnd stack, .closeBracket => some (.complete stack (.array []))
  | .wantItemOrEnd stack, token => beginValue (.items [] :: stack) token
  | .wantNameOrEnd stack, .closeBrace => some (.complete stack (.object []))
  | .wantNameOrEnd stack, .string name => some (.wantColon stack [] name)
  | .wantName stack done, .string name => some (.wantColon stack done name)
  | .wantColon stack done name, .colon => some (.wantValue (.fields done name :: stack))
  | .complete (.items done :: stack) value, .comma => some (.wantValue (.items (value :: done) :: stack))
  | .complete (.items done :: stack) value, .closeBracket =>
      some (.complete stack (.array (value :: done).reverse))
  | .complete (.fields done name :: stack) value, .comma =>
      some (.wantName stack ((name, value) :: done))
  | .complete (.fields done name :: stack) value, .closeBrace =>
      some (.complete stack (.ofFields ((name, value) :: done).reverse))
  | _, _ => none

/-- The value that has been read once nothing is open. -/
def result? : State → Option Value
  | .complete [] value => some value
  | _ => none

def run (state : State) (text : List Char) : Option State :=
  match _hskip : text.dropWhile Token.isBlank with
  | [] => some state
  | first :: others =>
      match _hscan : Token.scan? (first :: others) with
      | none => none
      | some (token, rest) =>
          match state.step token with
          | none => none
          | some next => run next rest
termination_by text.length
decreasing_by
  have hlt := Token.length_lt_of_scan? _hscan
  have hle := (List.dropWhile_sublist Token.isBlank : (text.dropWhile Token.isBlank).Sublist text).length_le
  rw [_hskip] at hle
  omega

end State

/-- The value of a text, unless the text is not JSON. -/
def Value.ofText? (text : String) : Option Value :=
  (State.run (.wantValue []) text.toList).bind State.result?

end DeferredTypes.Json
