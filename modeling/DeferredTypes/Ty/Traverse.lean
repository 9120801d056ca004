import DeferredTypes.Ty.Basic

/-! Walking through types: rebuilding a type from its immediate parts, and all the types nested in
one, from the outside in and from left to right. -/

namespace DeferredTypes.Ty

/-- The same type with a function applied to its immediate parts, in order. Keys and names stay, and
so does the shape of a union. The effects of the function happen in that order, and a failure is the
last of them. -/
def traverse {m : Type → Type} [Monad m] (f : Ty → m Ty) : Ty → m Ty
  | .array entries => do
      let entries ← entries.mapM fun (key, type) => do return (key, ← f type)
      return .array entries
  | .function params result => do
      let params ← params.mapM fun (name, type) => do return (name, ← f type)
      let result ← f result
      return .function params result
  | .union members => do
      let members ← members.mapM f
      return .union members
  | type => pure type

/-- The same type with a function applied to its immediate parts. -/
def mapChildren (f : Ty → Ty) (type : Ty) : Ty :=
  Id.run (type.traverse fun child => pure (f child))

mutual

/-- A type and all the types nested in it, outside in and left to right. -/
def subterms : Ty → List Ty
  | .array entries => .array entries :: entrySubterms entries
  | .function params result => .function params result :: (paramSubterms params ++ subterms result)
  | .union members => .union members :: memberSubterms members
  | .unknown => [.unknown]
  | .literal value => [.literal value]
  | .object owner => [.object owner]
  | .reference target chain => [.reference target chain]

def entrySubterms : List (Key × Ty) → List Ty
  | [] => []
  | (_, type) :: rest => subterms type ++ entrySubterms rest

def paramSubterms : List (String × Ty) → List Ty
  | [] => []
  | (_, type) :: rest => subterms type ++ paramSubterms rest

def memberSubterms : List Ty → List Ty
  | [] => []
  | type :: rest => subterms type ++ memberSubterms rest

end

/-- Whether a type or one nested in it has a property. -/
def containsMatching (property : Ty → Bool) (type : Ty) : Bool :=
  type.subterms.any property

/-- Whether references are left; a type without them is final. -/
def containsReference (type : Ty) : Bool := type.containsMatching isReference

def containsUnknown (type : Ty) : Bool := type.containsMatching isUnknown

/-- The first reference of a type, outside in and left to right. -/
def firstReference? (type : Ty) : Option (Path × List ChainOp) :=
  type.subterms.findSome? fun
    | .reference target chain => some (target, chain)
    | _ => none

/-- Equality of union members. A type with something unknown in it equals nothing, not even itself:
what is unknown here may differ from what is unknown there. -/
def dedupEq (left right : Ty) : Bool :=
  !left.containsUnknown && left = right

theorem entrySubterms_eq (entries : List (Key × Ty)) :
    entrySubterms entries = (entries.map Prod.snd).flatMap subterms := by
  induction entries with
  | nil => simp [entrySubterms]
  | cons entry rest ih => simp [entrySubterms, ih]

theorem paramSubterms_eq (params : List (String × Ty)) :
    paramSubterms params = (params.map Prod.snd).flatMap subterms := by
  induction params with
  | nil => simp [paramSubterms]
  | cons param rest ih => simp [paramSubterms, ih]

theorem memberSubterms_eq (members : List Ty) :
    memberSubterms members = members.flatMap subterms := by
  induction members with
  | nil => simp [memberSubterms]
  | cons member rest ih => simp [memberSubterms, ih]

/-- What is nested in a type is the type itself and what is nested in its immediate parts. -/
theorem subterms_eq (type : Ty) : type.subterms = type :: type.children.flatMap subterms := by
  cases type <;>
    simp [subterms, children, entrySubterms_eq, paramSubterms_eq, memberSubterms_eq]

end DeferredTypes.Ty
