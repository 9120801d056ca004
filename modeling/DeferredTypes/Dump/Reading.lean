import DeferredTypes.Dump.Basic
import DeferredTypes.Json.Reader

/-! Reading types and dumps from JSON.

A record may be written as an object, in which fields that nobody knows are passed over, or as the array
of its fields in order. Arrays and objects may be nested up to a limit; what is passed over does not
count, and nothing in it is judged beyond its being JSON. A type whose data stand before its kind has them
set aside until the kind is known, and then they are judged as a whole. -/

namespace DeferredTypes.Dump

open Json (Value)

/-- Where a value is read. -/
structure Site where
  /-- How many more arrays and objects may be open at once. -/
  level : Nat
  /-- Whether the value has been set aside before it is read. -/
  aside : Bool

/-- How many arrays and objects may be open at once. -/
def nestingLimit : Nat := 127

namespace Site

def top : Site := ⟨nestingLimit, false⟩

/-- Within one more array or object. -/
def inside? (site : Site) : Option Site :=
  match site.level with
  | 0 => none
  | level + 1 => some { site with level }

end Site

/-- A way to read a value of some kind. -/
abbrev Decoder (α : Type) := Site → Value → Option α

namespace Decoder

variable {α : Type}

def string : Decoder String
  | _, .string value => some value
  | _, _ => none

def bool : Decoder Bool
  | _, .bool value => some value
  | _, _ => none

def int : Decoder Int64
  | _, .number numeral => numeral.toInt64?
  | _, _ => none

def float : Decoder Binary64
  | _, .number numeral => numeral.toBinary64?
  | _, _ => none

def list (item : Decoder α) : Decoder (List α) := fun site value =>
  match value with
  | .array items => do
      let site ← site.inside?
      items.mapM (item site)
  | _ => none

/-- An object with an item for each name. Of the items for one name the last counts. -/
def names (item : Decoder α) : Decoder (OrderedMap String α) := fun site value =>
  match value with
  | .object fields => do
      let site ← site.inside?
      let entries ← fields.mapM fun (name, value) => (item site value).map fun value => (name, value)
      return .ofList entries
  | _ => none

/-- The values of a field; one that is known must not be given twice. -/
def slot? (fields : List (String × Value)) (name : String) : Option (Option Value) :=
  match fields.filter fun field => field.1 = name with
  | [] => some none
  | [(_, value)] => some (some value)
  | _ => none

/-- The fields of a record, each with its value if it is there. -/
def slots (known : List String) : Decoder (Site × List (Option Value)) := fun site value =>
  match value with
  | .object fields => do
      let site ← site.inside?
      let values ← known.mapM (slot? fields)
      return (site, values)
  | .array items => do
      let site ← site.inside?
      if items.length ≤ known.length then
        return (site, items.map some ++ List.replicate (known.length - items.length) none)
      else none
  | _ => none

def required (item : Decoder α) (site : Site) (slot : Option Value) : Option α :=
  slot.bind (item site)

def optional (default : α) (item : Decoder α) (site : Site) : Option Value → Option α
  | none => some default
  | some value => item site value

/-- A case of several: its name alone, or an object with the name and what belongs to it. -/
def case : Decoder (Site × String × Option Value) := fun site value =>
  match value with
  | .string name => some (site, name, none)
  | .object [(name, payload)] => do
      let site ← site.inside?
      return (site, name, some payload)
  | _ => none

/-- A case to which nothing belongs. An empty object is taken for nothing only where it has been set
aside. -/
def nothing (site : Site) : Option Value → Option Unit
  | none => some ()
  | some .null => some ()
  | some (.object []) => if site.aside then some () else none
  | some _ => none

end Decoder

open Decoder

def literal : Decoder Literal := fun site value => do
  let (site, name, payload) ← Decoder.case site value
  match name with
  | "int" => (required int site payload).map Literal.int
  | "float" => (required float site payload).map Literal.float
  | "string" => (required Decoder.string site payload).map Literal.string
  | "bool" => (required Decoder.bool site payload).map Literal.bool
  | "null" => (nothing site payload).map fun _ => Literal.null
  | _ => none

def key : Decoder Key
  | _, .number numeral => numeral.toInt64?.map Key.int
  | _, .string name => some (.string name)
  | _, _ => none

def chainOp : Decoder ChainOp := fun site value => do
  let (site, name, payload) ← Decoder.case site value
  match name with
  | "call_result" => (nothing site payload).map fun _ => ChainOp.callResult
  | "member_call" => (required Decoder.string site payload).map ChainOp.memberCall
  | _ => none

/-- An owner may be null. -/
def owner : Decoder (Option String)
  | _, .null => some none
  | _, .string name => some (some name)
  | _, _ => none

def path : Decoder Path := fun site value => do
  match ← slots ["owner", "name"] site value with
  | (site, [ownerSlot, nameSlot]) =>
      return ⟨← optional none owner site ownerSlot, ← required Decoder.string site nameSlot⟩
  | _ => none

def reference : Decoder Ty := fun site value => do
  match ← slots ["target", "chain"] site value with
  | (site, [targetSlot, chainSlot]) =>
      let target ← required path site targetSlot
      let chain ← optional [] (list chainOp) site chainSlot
      return .reference target chain
  | _ => none

def entry (type : Decoder Ty) : Decoder (Key × Ty) := fun site value => do
  match ← slots ["key", "type"] site value with
  | (site, [keySlot, typeSlot]) => return (← required key site keySlot, ← required type site typeSlot)
  | _ => none

def param (type : Decoder Ty) : Decoder (String × Ty) := fun site value => do
  match ← slots ["name", "type"] site value with
  | (site, [nameSlot, typeSlot]) =>
      return (← required Decoder.string site nameSlot, ← required type site typeSlot)
  | _ => none

def signature (type : Decoder Ty) : Decoder Ty := fun site value => do
  match ← slots ["params", "return"] site value with
  | (site, [paramsSlot, resultSlot]) =>
      let params ← optional [] (list (param type)) site paramsSlot
      let result ← required type site resultSlot
      return .function params result
  | _ => none

inductive Kind
  | unknown
  | literal
  | object
  | array
  | function
  | union
  | reference
  deriving DecidableEq

namespace Kind

def all : List Kind := [.unknown, .literal, .object, .array, .function, .union, .reference]

def name : Kind → String
  | .unknown => "unknown"
  | .literal => "literal"
  | .object => "object"
  | .array => "array"
  | .function => "function"
  | .union => "union"
  | .reference => "reference"

def ofName? (name : String) : Option Kind := all.find? fun kind => kind.name = name

end Kind

/-- The kind of a type written as an object: a case to which nothing belongs. -/
def kind : Decoder Kind := fun site value => do
  let (site, name, payload) ← Decoder.case site value
  nothing site payload
  Kind.ofName? name

/-- The kind of a type written as an array: its name alone. Where the type has been set aside, the place of
the kind among all kinds, counted from zero, stands for the name. -/
def kindItem : Decoder Kind
  | _, .string name => Kind.ofName? name
  | site, .number numeral =>
      if site.aside then numeral.toNat?.bind fun place => Kind.all[place]? else none
  | _, _ => none

/-- Where the data of a type are read. If they stand before the kind they are set aside, which they must be
fit for. -/
def dataSite? (site : Site) (fields : List (String × Value)) (data : Value) : Option Site :=
  match fields.find? fun field => field.1 = "kind" || field.1 = "data" with
  | some ("data", _) =>
      if site.aside then some site
      else if data.sound site.level then some { site with aside := true } else none
  | _ => some site

/-- The kind of a type, and its data with the place where they are read. -/
def kindAndData : Decoder (Kind × Option (Site × Value)) := fun site value =>
  match value with
  | .object fields => do
      let site ← site.inside?
      let kindSlot ← slot? fields "kind"
      let dataSlot ← slot? fields "data"
      let found ← required kind site kindSlot
      match dataSlot with
      | none => return (found, none)
      | some data => return (found, some (← dataSite? site fields data, data))
  | .array [kindValue, data] => do
      let site ← site.inside?
      return (← kindItem site kindValue, some (site, data))
  | _ => none

/-- A type, given how the types in it are read. -/
def typeWith (inner : Decoder Ty) : Decoder Ty := fun site value => do
  match ← kindAndData site value with
  | (.unknown, none) => some .unknown
  | (.unknown, some (_, .null)) => some .unknown
  | (.unknown, _) => none
  | (_, none) => none
  | (.literal, some (site, data)) => (literal site data).map Ty.literal
  | (.object, some (site, data)) => (Decoder.string site data).map Ty.object
  | (.array, some (site, data)) => (list (entry inner) site data).map Ty.array
  | (.function, some (site, data)) => signature inner site data
  | (.union, some (site, data)) => (list inner site data).map Ty.union
  | (.reference, some (site, data)) => reference site data

/-- A type in which types are nested less than so many times. -/
def typeUpTo : Nat → Decoder Ty
  | 0 => fun _ _ => none
  | depth + 1 => typeWith (typeUpTo depth)

/-- A type. Each type within another is in at least one more object or array, so the limit on these bounds
how often types are nested. -/
def type : Decoder Ty := typeUpTo nestingLimit

def dump : Decoder Dump := fun site value => do
  match ← slots ["functions", "classes"] site value with
  | (site, [functionsSlot, classesSlot]) =>
      let functions ← optional ∅ (names type) site functionsSlot
      let classes ← optional ∅ (names (names type)) site classesSlot
      return ⟨functions, classes⟩
  | _ => none

/-- The dump of a JSON text, unless the text is none. -/
def ofJson? (text : String) : Option Dump := do dump .top (← Value.ofText? text)

end DeferredTypes.Dump

/-- The type of a JSON text, unless the text is none. -/
def DeferredTypes.Ty.ofJson? (text : String) : Option DeferredTypes.Ty := do
  DeferredTypes.Dump.type .top (← DeferredTypes.Json.Value.ofText? text)
