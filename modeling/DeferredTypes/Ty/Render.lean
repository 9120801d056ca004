import DeferredTypes.Ty.Union

/-! The canonical text of types. Only types without references have one; the display form, which
also shows references, agrees with it there. -/

namespace DeferredTypes.Ty

def displayOp : ChainOp → String
  | .callResult => "()"
  | .memberCall method => "->" ++ method ++ "()"

mutual

/-- The text of a type. Parameters are not shown. -/
def display : Ty → String
  | .unknown => "unknown"
  | .literal value => value.display
  | .object owner => owner
  | .array entries => "array\x7b" ++ displayEntries entries ++ "\x7d"
  | .function _ result => "(): " ++ display result
  | .union members => displayMembers members
  | .reference target chain =>
      "ref(" ++ target.display ++ ")" ++ String.join (chain.map displayOp)

/-- Entries `key: type` separated by commas. -/
def displayEntries : List (Key × Ty) → String
  | [] => ""
  | [(key, type)] => key.display ++ ": " ++ display type
  | (key, type) :: rest => key.display ++ ": " ++ display type ++ ", " ++ displayEntries rest

/-- Members separated by bars. -/
def displayMembers : List Ty → String
  | [] => ""
  | [type] => display type
  | type :: rest => display type ++ "|" ++ displayMembers rest

end

/-- The canonical text of a type, or the target of its first reference. -/
def render (type : Ty) : Except PreconditionError String :=
  match type.firstReference? with
  | some (target, _) => .error (.unresolvedReference target)
  | none => .ok type.display

/-- Adds the canonical text to a text. A type without one leaves the text as it was. -/
def renderInto (buffer : String) (type : Ty) : String × Option PreconditionError :=
  match type.render with
  | .ok text => (buffer ++ text, none)
  | .error error => (buffer, some error)

end DeferredTypes.Ty
