import DeferredTypes.Source

/-! Dumps: the functions and classes of a program with the types a first analysis gave them, in the order
in which they were found. -/

namespace DeferredTypes

/-- The functions of a program by name, and the methods of its classes by class and name. -/
structure Dump where
  functions : OrderedMap String Ty
  classes : OrderedMap String (OrderedMap String Ty)
  deriving DecidableEq

namespace Dump

def empty : Dump := ⟨∅, ∅⟩

instance : Inhabited Dump := ⟨empty⟩

/-- Adds a function, or replaces its type. -/
def addFunction (dump : Dump) (name : String) (type : Ty) : Dump :=
  { dump with functions := dump.functions.insert name type }

/-- Adds a method, or replaces its type. -/
def addMethod (dump : Dump) (owner name : String) (type : Ty) : Dump :=
  { dump with
    classes := dump.classes.upsert owner fun methods => (methods.getD ∅).insert name type }

def add (dump : Dump) (path : Path) (type : Ty) : Dump :=
  match path.owner with
  | none => dump.addFunction path.name type
  | some owner => dump.addMethod owner path.name type

/-- The functions, then the methods class by class. -/
def symbols (dump : Dump) : List Path :=
  dump.functions.keys.map Path.function ++
    dump.classes.toList.flatMap fun (owner, methods) => methods.keys.map (Path.method owner)

/-- The type of a symbol, unknown if the dump has none. -/
def initialType (dump : Dump) (path : Path) : Ty :=
  let found := match path.owner with
    | none => dump.functions.find? path.name
    | some owner => (dump.classes.find? owner).bind fun methods => methods.find? path.name
  found.getD .unknown

def toSource (dump : Dump) : Source := ⟨dump.classes.keys, dump.symbols, dump.initialType⟩

def toGraph (dump : Dump) : Graph := .ofSource dump.toSource

end Dump

end DeferredTypes
