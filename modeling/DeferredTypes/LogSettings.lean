import DeferredTypes.Text.Blank

/-! What is logged and how, according to three variables of the environment: one of the program's own,
one it shares with other programs, and one for the format. -/

namespace DeferredTypes

inductive LogFormat
  | text
  /-- Indented by nesting. -/
  | tree
  | json
  deriving DecidableEq, Repr

/-- Letters `A` to `Z` in lower case. The words that lowered texts are compared with are made of letters
`a` to `z`, and of the characters outside ASCII only the Kelvin sign has one of these as its lower case,
`k`, which none of the words holds. So this decides as lower case of all scripts does. -/
def lowered (text : String) : String := text.map Char.toLower

/-- The format by its name, whatever the case; anything else is text. -/
def LogFormat.ofName (name : String) : LogFormat :=
  match lowered name with
  | "tree" => .tree
  | "json" => .json
  | _ => .text

/-- What is logged, and the form of it. -/
structure LogSettings where
  directives : String
  format : LogFormat
  deriving DecidableEq, Repr

namespace LogSettings

/-- The parts of the program that log. -/
def targets : List String := ["tyres_solver", "tyres_cli"]

def levels : List String := ["trace", "debug", "info", "warn", "error", "off"]

/-- A level by itself is meant for the parts of the program only. Anything else stands as it is. -/
def directivesOf (value : String) : String :=
  let level := lowered (Text.trim value)
  if level ∈ levels then String.intercalate "," (targets.map fun target => target ++ "=" ++ level)
  else value

/-- The settings of the variables. The program's own one counts before the shared one; without both
nothing is logged. -/
def ofVariables (own shared format : Option String) : Option LogSettings :=
  let settings directives := some ⟨directives, LogFormat.ofName (format.getD "")⟩
  match own, shared with
  | some value, _ => settings (directivesOf value)
  | none, some value => settings value
  | none, none => none

end LogSettings

end DeferredTypes
