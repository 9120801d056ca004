import DeferredTypes.Dump.Basic
import DeferredTypes.Json.Writer

/-! The JSON form of types and dumps. A type is an object with its kind and, unless it is unknown, its
data. -/

namespace DeferredTypes

open Json (Value)

/-- A number, or null in place of a double that is not finite. -/
def Binary64.toValue (x : Binary64) : Value :=
  match Numeral.ofBinary64? x with
  | some numeral => .number numeral
  | none => .null

def Literal.toValue : Literal → Value
  | .int value => .object [("int", .number (.ofInt value.toInt))]
  | .float value => .object [("float", value.toValue)]
  | .string value => .object [("string", .string value)]
  | .bool value => .object [("bool", .bool value)]
  | .null => .string "null"

def Key.toValue : Key → Value
  | .int index => .number (.ofInt index.toInt)
  | .string name => .string name

def ChainOp.toValue : ChainOp → Value
  | .callResult => .string "call_result"
  | .memberCall method => .object [("member_call", .string method)]

/-- The owner is left out if there is none. -/
def Path.toValue (path : Path) : Value :=
  match path.owner with
  | none => .object [("name", .string path.name)]
  | some owner => .object [("owner", .string owner), ("name", .string path.name)]

namespace Ty

def tagged (kind : String) (data : Value) : Value :=
  .object [("kind", .string kind), ("data", data)]

mutual

def toValue : Ty → Value
  | .unknown => .object [("kind", .string "unknown")]
  | .literal value => tagged "literal" value.toValue
  | .object owner => tagged "object" (.string owner)
  | .array entries => tagged "array" (.array (entryValues entries))
  | .function params result =>
      tagged "function" (.object [("params", .array (paramValues params)), ("return", toValue result)])
  | .union members => tagged "union" (.array (memberValues members))
  | .reference target chain =>
      tagged "reference"
        (.object [("target", target.toValue), ("chain", .array (chain.map ChainOp.toValue))])

def entryValues : List (Key × Ty) → List Value
  | [] => []
  | (key, type) :: rest => .object [("key", key.toValue), ("type", toValue type)] :: entryValues rest

def paramValues : List (String × Ty) → List Value
  | [] => []
  | (name, type) :: rest =>
      .object [("name", .string name), ("type", toValue type)] :: paramValues rest

def memberValues : List Ty → List Value
  | [] => []
  | type :: rest => toValue type :: memberValues rest

end

def toJson (type : Ty) : String := type.toValue.text .compact

end Ty

namespace Dump

/-- An object with a field for each name. -/
def namesValue {α : Type} (value : α → Value) (names : OrderedMap String α) : Value :=
  .object (names.toList.map fun (name, item) => (name, value item))

def toValue (dump : Dump) : Value :=
  .object [
    ("functions", namesValue Ty.toValue dump.functions),
    ("classes", namesValue (namesValue Ty.toValue) dump.classes)]

/-- The JSON text of a dump, one item to a line. -/
def toJson (dump : Dump) : String := dump.toValue.text .pretty

end Dump

end DeferredTypes
