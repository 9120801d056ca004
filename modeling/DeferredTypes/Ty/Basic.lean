import DeferredTypes.Path
import DeferredTypes.Literal

/-! Types of symbols. A first analysis gives every symbol a type that may hold references to other
symbols, to be replaced later by the types these turn out to have. -/

namespace DeferredTypes

/-- What happens to the target of a reference once its type is known. -/
inductive ChainOp
  /-- Take the result of calling it. -/
  | callResult
  /-- Call a method of the object it is. -/
  | memberCall (method : String)
  deriving DecidableEq, Inhabited

/-- The type of a symbol. -/
inductive Ty
  /-- Nothing is known. -/
  | unknown
  | literal (value : Literal)
  /-- An instance of a class. -/
  | object (owner : String)
  /-- An array shape; the order of the entries matters, and keys may repeat. -/
  | array (entries : List (Key × Ty))
  | function (params : List (String × Ty)) (result : Ty)
  | union (members : List Ty)
  /-- The type of another symbol after a chain of calls, not known yet. -/
  | reference (target : Path) (chain : List ChainOp)
  deriving Inhabited

namespace Ty

/-- The array shape with the keys `0`, `1`, ... -/
def list (items : List Ty) : Ty :=
  .array (items.mapIdx fun index item => (.int (Int64.ofNat index), item))

/-- A signature without parameters. -/
def returning (result : Ty) : Ty := .function [] result

/-- A reference to the result of calling a symbol. -/
def call (target : Path) : Ty := .reference target [.callResult]

def isUnknown : Ty → Bool
  | .unknown => true
  | _ => false

def isReference : Ty → Bool
  | .reference .. => true
  | _ => false

def returnType? : Ty → Option Ty
  | .function _ result => some result
  | _ => none

/-- The type of a call: the result of a signature; anything else is a call result already. -/
def callResult : Ty → Ty
  | .function _ result => result
  | type => type

/-- The immediate parts of a type in order, parameters before the result. A reference has none. -/
def children : Ty → List Ty
  | .array entries => entries.map Prod.snd
  | .function params result => params.map Prod.snd ++ [result]
  | .union members => members
  | _ => []

mutual

/-- Structural equality, floats compared by their bits. -/
def beq : Ty → Ty → Bool
  | .unknown, .unknown => true
  | .literal left, .literal right => left = right
  | .object left, .object right => left = right
  | .array left, .array right => beqEntries left right
  | .function params result, .function params' result' =>
      beqParams params params' && beq result result'
  | .union left, .union right => beqMembers left right
  | .reference target chain, .reference target' chain' => target = target' && chain = chain'
  | _, _ => false

def beqEntries : List (Key × Ty) → List (Key × Ty) → Bool
  | [], [] => true
  | (key, type) :: rest, (key', type') :: rest' =>
      key = key' && beq type type' && beqEntries rest rest'
  | _, _ => false

def beqParams : List (String × Ty) → List (String × Ty) → Bool
  | [], [] => true
  | (name, type) :: rest, (name', type') :: rest' =>
      name = name' && beq type type' && beqParams rest rest'
  | _, _ => false

def beqMembers : List Ty → List Ty → Bool
  | [], [] => true
  | type :: rest, type' :: rest' => beq type type' && beqMembers rest rest'
  | _, _ => false

end

mutual

theorem beq_iff : (left right : Ty) → (beq left right = true ↔ left = right)
  | .unknown, right => by cases right <;> simp [beq]
  | .literal _, right => by cases right <;> simp [beq]
  | .object _, right => by cases right <;> simp [beq]
  | .array entries, right => by cases right <;> simp [beq, beqEntries_iff entries]
  | .function params result, right => by
      cases right <;> simp [beq, beqParams_iff params, beq_iff result]
  | .union members, right => by cases right <;> simp [beq, beqMembers_iff members]
  | .reference _ _, right => by cases right <;> simp [beq]

theorem beqEntries_iff : (left right : List (Key × Ty)) → (beqEntries left right = true ↔ left = right)
  | [], right => by cases right <;> simp [beqEntries]
  | _ :: _, [] => by simp [beqEntries]
  | (key, type) :: rest, (key', type') :: rest' => by
      simp [beqEntries, beq_iff type, beqEntries_iff rest]

theorem beqParams_iff : (left right : List (String × Ty)) → (beqParams left right = true ↔ left = right)
  | [], right => by cases right <;> simp [beqParams]
  | _ :: _, [] => by simp [beqParams]
  | (name, type) :: rest, (name', type') :: rest' => by
      simp [beqParams, beq_iff type, beqParams_iff rest]

theorem beqMembers_iff : (left right : List Ty) → (beqMembers left right = true ↔ left = right)
  | [], right => by cases right <;> simp [beqMembers]
  | type :: rest, right => by cases right <;> simp [beqMembers, beq_iff type, beqMembers_iff rest]

end

instance : DecidableEq Ty := fun left right => decidable_of_iff _ (beq_iff left right)

end Ty

end DeferredTypes
