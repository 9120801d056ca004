import DeferredTypes.Resolution.Walk

/-! What a walk through a type asks of the graph. The walk meets the graph only where it follows a
reference or calls a method: it names a path, is told the type of the symbol there or that there is
none, and goes on from this reply. An inquiry is a walk with these questions left open. The same
inquiry serves every graph, so that runs over two graphs, or from two stacks, can be compared question
by question. -/

namespace DeferredTypes

/-- A computation that asks for the types of symbols. -/
inductive Inquiry (α : Type)
  | answer (value : α)
  /-- A type was not what a step needs. -/
  | refuse (error : PreconditionError)
  /-- The reply is the type of the symbol with this path, if the path was declared. -/
  | ask (path : Path) (rest : Option Ty → Inquiry α)

namespace Inquiry

variable {α β : Type}

/-- Goes on with what an inquiry finds. -/
def bind : Inquiry α → (α → Inquiry β) → Inquiry β
  | .answer value, next => next value
  | .refuse error, _ => .refuse error
  | .ask path rest, next => .ask path fun reply => (rest reply).bind next

def ofUnion (members : List Ty) : Inquiry Ty :=
  match Ty.canonicalizeUnion members with
  | .ok type => .answer type
  | .error error => .refuse error

/-- What a chain asks for once the type of its target is known. -/
def ofChain : List ChainOp → Ty → Inquiry Ty
  | [], type => .answer type
  | .callResult :: rest, type => ofChain rest type.callResult
  | .memberCall method :: rest, .object owner => .ask (.method owner method) fun
      | some type => ofChain rest type.callResult
      | none => .answer .unknown
  | .memberCall _ :: _, _ => .answer .unknown

mutual

/-- What a walk through a type asks for, in order. -/
def ofTy : Ty → Inquiry Ty
  | .unknown => .answer .unknown
  | .literal value => .answer (.literal value)
  | .object owner => .answer (.object owner)
  | .array entries => (ofEntries entries).bind fun entries => .answer (.array entries)
  | .function params result => (ofParams params).bind fun params =>
      (ofTy result).bind fun result => .answer (.function params result)
  | .union members => (ofMembers members).bind ofUnion
  | .reference target chain => .ask target fun
      | some type => ofChain chain type
      | none => .answer .unknown

def ofEntries : List (Key × Ty) → Inquiry (List (Key × Ty))
  | [] => .answer []
  | (key, type) :: rest => (ofTy type).bind fun type =>
      (ofEntries rest).bind fun rest => .answer ((key, type) :: rest)

def ofParams : List (String × Ty) → Inquiry (List (String × Ty))
  | [] => .answer []
  | (name, type) :: rest => (ofTy type).bind fun type =>
      (ofParams rest).bind fun rest => .answer ((name, type) :: rest)

def ofMembers : List Ty → Inquiry (List Ty)
  | [] => .answer []
  | type :: rest => (ofTy type).bind fun type =>
      (ofMembers rest).bind fun rest => .answer (type :: rest)

end

/-- Puts the questions to a resolution: paths are looked up as they come, and the symbols found are
resolved by the given function. -/
def run (symbol : SymbolId → Walk Ty) : Inquiry α → Walk α
  | .answer value => pure value
  | .refuse error => throw (.error (.precondition error))
  | .ask path rest => do
      let pass ← get
      match pass.graph.lookup path with
      | some id => do
          let type ← symbol id
          (rest (some type)).run symbol
      | none => do
          Walk.note (.missing path)
          (rest none).run symbol

variable (symbol : SymbolId → Walk Ty)

theorem run_bind (inquiry : Inquiry α) (next : α → Inquiry β) :
    (inquiry.bind next).run symbol = inquiry.run symbol >>= fun value => (next value).run symbol := by
  induction inquiry with
  | answer value => simp only [bind, run, pure_bind]
  | refuse error => rfl
  | ask path rest ih =>
      simp only [bind, run, bind_assoc]
      congr 1
      funext pass
      cases pass.graph.lookup path <;> simp only [ih, bind_assoc]

/-! The questions of a walk, put to a resolution, are the walk. -/

theorem run_ofUnion (members : List Ty) : (ofUnion members).run symbol = Walk.merge members := by
  rw [ofUnion, Walk.merge]
  cases Ty.canonicalizeUnion members <;> rfl

theorem run_ofChain (chain : List ChainOp) (type : Ty) :
    (ofChain chain type).run symbol = Walk.applyChain symbol chain type := by
  induction chain generalizing type with
  | nil => rfl
  | cons op rest ih =>
      cases op with
      | callResult => exact ih type.callResult
      | memberCall method =>
          cases type with
          | object owner =>
              simp only [ofChain, run, Walk.applyChain]
              congr 1
              funext pass
              rw [Graph.lookup_method]
              cases pass.graph.lookupMethod owner method with
              | some id => simp only [ih]
              | none => rfl
          | unknown | literal _ | array _ | function _ _ | union _ | reference _ _ => rfl

theorem run_reference (target : Path) (chain : List ChainOp) :
    (ofTy (.reference target chain)).run symbol = Walk.resolveReference symbol target chain := by
  rw [ofTy, run, Walk.resolveReference]
  congr 1
  funext pass
  cases pass.graph.lookup target with
  | some id => simp only [run_ofChain]
  | none => rfl

mutual

theorem run_ofTy : (type : Ty) → (ofTy type).run symbol = Walk.resolve symbol type
  | .unknown => rfl
  | .literal _ => rfl
  | .object _ => rfl
  | .array entries => by
      rw [ofTy, run_bind, run_ofEntries entries, Walk.resolve]
      rfl
  | .function params result => by
      rw [ofTy, run_bind, run_ofParams params, Walk.resolve]
      simp only [run_bind, run_ofTy result]
      rfl
  | .union members => by
      rw [ofTy, run_bind, run_ofMembers members, Walk.resolve]
      simp only [run_ofUnion]
  | .reference target chain => by rw [run_reference, Walk.resolve]

theorem run_ofEntries : (entries : List (Key × Ty)) →
    (ofEntries entries).run symbol = Walk.resolveEntries symbol entries
  | [] => rfl
  | (key, type) :: rest => by
      rw [ofEntries, run_bind, run_ofTy type, Walk.resolveEntries]
      simp only [run_bind, run_ofEntries rest]
      rfl

theorem run_ofParams : (params : List (String × Ty)) →
    (ofParams params).run symbol = Walk.resolveParams symbol params
  | [] => rfl
  | (name, type) :: rest => by
      rw [ofParams, run_bind, run_ofTy type, Walk.resolveParams]
      simp only [run_bind, run_ofParams rest]
      rfl

theorem run_ofMembers : (members : List Ty) →
    (ofMembers members).run symbol = Walk.resolveMembers symbol members
  | [] => rfl
  | type :: rest => by
      rw [ofMembers, run_bind, run_ofTy type, Walk.resolveMembers]
      simp only [run_bind, run_ofMembers rest]
      rfl

end

end Inquiry

end DeferredTypes
