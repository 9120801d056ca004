import DeferredTypes.Ty.Traverse

/-! The canonical form of a union. Nested unions are laid open in place; what is unknown stands in
front, as often as it came; of equal other members the first is kept; a single member stands for
itself. -/

namespace DeferredTypes

/-- A step was asked for before its conditions were met. -/
inductive PreconditionError
  /-- A union needs at least one alternative. -/
  | emptyUnion
  /-- Only types without references have a canonical text. -/
  | unresolvedReference (target : Path)
  deriving DecidableEq

/-- The text of the error. -/
def PreconditionError.message : PreconditionError → String
  | .emptyUnion => "cannot canonicalize an empty union"
  | .unresolvedReference target =>
      "type still references `" ++ target.display ++ "`; resolve it before rendering"

namespace Ty

/-- The members of a union under construction. -/
structure UnionMembers where
  unknowns : List Ty
  others : List Ty

namespace UnionMembers

/-- Adds a member that is not a union. -/
def add (members : UnionMembers) : Ty → UnionMembers
  | .unknown => { members with unknowns := members.unknowns ++ [.unknown] }
  | type =>
      if members.others.any fun seen => seen.dedupEq type then members
      else { members with others := members.others ++ [type] }

mutual

/-- Adds an alternative; a union adds its members one by one. -/
def push (members : UnionMembers) : Ty → UnionMembers
  | .union inner => pushAll members inner
  | .unknown => members.add .unknown
  | .literal value => members.add (.literal value)
  | .object owner => members.add (.object owner)
  | .array entries => members.add (.array entries)
  | .function params result => members.add (.function params result)
  | .reference target chain => members.add (.reference target chain)

/-- Adds alternatives from left to right. -/
def pushAll (members : UnionMembers) : List Ty → UnionMembers
  | [] => members
  | type :: rest => pushAll (push members type) rest

end

end UnionMembers

/-- One type for several alternatives. -/
def canonicalizeUnion (alternatives : List Ty) : Except PreconditionError Ty :=
  let members := UnionMembers.pushAll ⟨[], []⟩ alternatives
  match members.unknowns ++ members.others with
  | [] => .error .emptyUnion
  | [type] => .ok type
  | types => .ok (.union types)

end Ty

end DeferredTypes
