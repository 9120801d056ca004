import DeferredTypes.Guard

/-! The arguments of the command line: the file of a dump, which symbols to print, the budget, and the
format. They are read from left to right. An argument is judged once the next one has been recognised, so an
argument that nobody knows is reported before a bad value in front of it. -/

namespace DeferredTypes.CommandLine

inductive Format
  /-- A line for each symbol. -/
  | text
  /-- A JSON object with a field for each symbol. -/
  | json
  deriving DecidableEq, Repr

/-- What is asked for. Without functions and classes all symbols are printed. -/
structure Arguments where
  dump : String
  functions : List String
  classes : List String
  maxDepth : Option Nat
  maxIterations : Option Nat
  format : Format
  deriving DecidableEq, Repr

/-- Why no types are printed for some arguments. -/
inductive Usage
  | unknownArgument
  | invalidValue
  | valueValidation
  | argumentConflict
  | tooManyValues
  | missingRequiredArgument
  | displayHelp
  | displayVersion
  deriving DecidableEq, Repr

/-- Asking for help or for the version is no mistake. -/
def Usage.exitCode : Usage → UInt32
  | .displayHelp | .displayVersion => 0
  | _ => 2

/-- The options that take a value. -/
inductive Setting
  | function
  | ofClass
  | maxDepth
  | maxIterations
  | format
  deriving DecidableEq

/-- The options by their long names. -/
inductive Flag
  | setting (setting : Setting)
  | help
  | version

def Flag.ofName? : String → Option Flag
  | "function" => some (.setting .function)
  | "class" => some (.setting .ofClass)
  | "max-depth" => some (.setting .maxDepth)
  | "max-iterations" => some (.setting .maxIterations)
  | "format" => some (.setting .format)
  | "help" => some .help
  | "version" => some .version
  | _ => none

/-- The form of an argument. -/
inductive Word
  /-- Two dashes: everything after them is a value. -/
  | separator
  /-- An option with its name, perhaps with a value attached. -/
  | long (name : String) (value : Option String)
  /-- One-letter options; only the first one matters, since all of them end the reading. -/
  | short (letter : Char)
  | plain (text : String)

def Word.ofString (text : String) : Word :=
  match text.toList with
  | ['-', '-'] => .separator
  | '-' :: '-' :: rest =>
      let name := String.ofList (rest.takeWhile (· ≠ '='))
      match rest.dropWhile (· ≠ '=') with
      | [] => .long name none
      | _ :: value => .long name (some (String.ofList value))
  | '-' :: letter :: _ => .short letter
  | _ => .plain text

/-- A limit: digits, perhaps after a sign, for a number that a count can hold. -/
def limit? (text : String) : Option Nat := do
  let (negative, digits) := match text.toList with
    | '-' :: rest => (true, rest)
    | '+' :: rest => (false, rest)
    | rest => (false, rest)
  let digits ← digits.mapM Digit.ofChar?
  let value := Digits.value digits
  if digits.isEmpty || maxCount < value || (negative && value ≠ 0) then none else some value

/-- An argument that has been recognised and not judged yet. -/
inductive Waiting
  | dump (text : String)
  | setting (setting : Setting) (value : Option String)

/-- The arguments read so far. -/
structure Draft where
  dump : Option String := none
  functions : List String := []
  classes : List String := []
  maxDepth : Option Nat := none
  maxIterations : Option Nat := none
  format : Option Format := none
  waiting : Option Waiting := none

namespace Draft

/-- The value of an option that may be given once. That it is given twice counts before its value. -/
def once {α : Type} (before value : Option α) (mistake : Usage) : Except Usage (Option α) :=
  match before, value with
  | some _, _ => .error .argumentConflict
  | none, some value => .ok (some value)
  | none, none => .error mistake

def formatOf? : String → Option Format
  | "text" => some .text
  | "json" => some .json
  | _ => none

/-- Takes the value of an option. -/
def assign (draft : Draft) (value : String) : Setting → Except Usage Draft
  | .function => .ok { draft with functions := draft.functions ++ [value] }
  | .ofClass => .ok { draft with classes := draft.classes ++ [value] }
  | .maxDepth => do
      return { draft with maxDepth := ← once draft.maxDepth (limit? value) .valueValidation }
  | .maxIterations => do
      return { draft with maxIterations := ← once draft.maxIterations (limit? value) .valueValidation }
  | .format => do
      return { draft with format := ← once draft.format (formatOf? value) .invalidValue }

/-- Judges the argument that is waiting. -/
def settle (draft : Draft) : Except Usage Draft :=
  let settled := { draft with waiting := none }
  match draft.waiting with
  | none => .ok settled
  | some (.dump text) =>
      if text.isEmpty then .error .invalidValue else .ok { settled with dump := some text }
  | some (.setting _ none) => .error .invalidValue
  | some (.setting setting (some value)) => settled.assign value setting

def hasDump (draft : Draft) : Bool :=
  match draft.waiting with
  | some (.dump _) => true
  | _ => draft.dump.isSome

def positional (draft : Draft) (text : String) : Except Usage Draft := do
  if draft.hasDump then throw .unknownArgument
  let draft ← draft.settle
  return { draft with waiting := some (.dump text) }

/-- Takes an argument that does not look like an option: the value of the option before it, or the
file. -/
def plain (draft : Draft) (text : String) : Except Usage Draft :=
  match draft.waiting with
  | some (.setting setting none) => .ok { draft with waiting := some (.setting setting (some text)) }
  | _ => draft.positional text

/-- Takes an option that ends the reading. It has no value. -/
def ending (draft : Draft) (value : Option String) (usage : Usage) : Except Usage Draft := do
  if value.isSome then throw .tooManyValues
  let _ ← draft.settle
  throw usage

def option (draft : Draft) (value : Option String) : Flag → Except Usage Draft
  | .setting setting => do
      let draft ← draft.settle
      let draft := { draft with waiting := some (.setting setting value) }
      if value.isSome then draft.settle else return draft
  | .help => draft.ending value .displayHelp
  | .version => draft.ending value .displayVersion

/-- Takes arguments, all of which are values. -/
def readValues (draft : Draft) : List String → Except Usage Draft
  | [] => draft.settle
  | text :: rest => do readValues (← draft.positional text) rest

def read (draft : Draft) : List String → Except Usage Draft
  | [] => draft.settle
  | text :: rest =>
      match Word.ofString text with
      | .separator => draft.readValues rest
      | .plain text => do read (← draft.plain text) rest
      | .long name value => do
          match Flag.ofName? name with
          | some flag => read (← draft.option value flag) rest
          | none => throw .unknownArgument
      | .short 'h' => draft.option none .help
      | .short 'V' => draft.option none .version
      | .short _ => .error .unknownArgument

end Draft

namespace Arguments

def parse (arguments : List String) : Except Usage Arguments := do
  let draft ← Draft.read {} arguments
  match draft.dump with
  | none => throw .missingRequiredArgument
  | some dump =>
      return {
        dump
        functions := draft.functions
        classes := draft.classes
        maxDepth := draft.maxDepth
        maxIterations := draft.maxIterations
        format := draft.format.getD .text }

def selectsEverything (arguments : Arguments) : Bool :=
  arguments.functions.isEmpty && arguments.classes.isEmpty

/-- The budget. A limit that is not given is as large as a count can be. -/
def profile (arguments : Arguments) : Profile :=
  match arguments.maxDepth, arguments.maxIterations with
  | none, none => .unbounded
  | maxDepth, maxIterations => .custom (maxDepth.getD maxCount) (maxIterations.getD maxCount)

end Arguments

end DeferredTypes.CommandLine
