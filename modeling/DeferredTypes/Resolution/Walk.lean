import DeferredTypes.Guard
import DeferredTypes.Resolution.Event

/-! One resolution. It walks through a type, follows each reference to the symbol it names, and takes
the type of that symbol: the stored one if that is final, else what walking through the stored one
gives.

A symbol is open while its type is being walked. A reference to an open symbol is unknown, for this
occurrence. What is found for a symbol is stored only if every such cut within its walk closed onto the
symbol itself or onto one opened after it: otherwise the answer depends on where the walk began.

A resolution ends because each symbol on the stack is open only once. The functions here pass along the
list of the symbols that are not open; opening one takes it off the list. -/

namespace DeferredTypes

/-- Why a resolution gave up. -/
inductive ResolveError
  /-- The budget did not suffice to open this symbol. -/
  | aborted (symbol : Path) (depth iterations : Nat)
  /-- A type was not what a step needs. -/
  | precondition (error : PreconditionError)
  deriving DecidableEq

def ResolveError.message : ResolveError → String
  | .aborted symbol depth iterations =>
      "resolution of `" ++ symbol.display ++ "` aborted after " ++ integerText iterations ++
        " steps at depth " ++ integerText depth ++ ": budget exhausted"
  | .precondition error => error.message

/-- A use of the interface that its contract excludes. -/
inductive Fault
  /-- A number that the graph has not given out. -/
  | unallocated (id : SymbolId)
  | guard (misuse : Guard.Misuse)
  deriving DecidableEq

/-- Why there is no answer. -/
inductive Halt
  | error (error : ResolveError)
  | fault (fault : Fault)
  deriving DecidableEq

/-- The state of one resolution. -/
structure Pass where
  graph : Graph
  /-- The open symbols. -/
  guard : Guard SymbolId
  /-- The lowest position onto which a cycle was cut since the innermost open symbol was opened. -/
  lowLink : Option Nat
  /-- What has happened, the latest first. -/
  journal : List Event
  deriving DecidableEq

namespace Pass

def start (graph : Graph) (limits : Limits) : Pass := ⟨graph, .start limits, none, []⟩

/-- The symbols of the graph that are not open. -/
def closed (pass : Pass) : List SymbolId :=
  pass.graph.ids.filter fun id => id ∉ pass.guard.stack

/-- Remembers a cut onto a position, if there was one. -/
def link (pass : Pass) (position : Option Nat) : Pass :=
  { pass with lowLink := Option.merge min pass.lowLink position }

def record (pass : Pass) (event : Event) : Pass :=
  { pass with journal := event :: pass.journal }

end Pass

/-- Runs an action and holds back the error it may end with. -/
def attempt {σ α : Type} (action : ExceptT Halt (StateM σ) α) :
    ExceptT Halt (StateM σ) (Except ResolveError α) :=
  tryCatch (Except.ok <$> action) fun
    | .error error => pure (.error error)
    | .fault fault => throw (.fault fault)

/-- A part of a resolution. What it did to the state stands, also where it gave up. -/
abbrev Walk := ExceptT Halt (StateM Pass)

namespace Walk

def note (event : Event) : Walk Unit := modify fun pass => pass.record event

/-- Answers a request for an open symbol. -/
def cut (id : SymbolId) (position : Nat) : Walk Ty := do
  modify fun pass => (pass.link (some position)).record (.cut id position)
  return .unknown

/-- Gives up because the budget does not suffice to open a symbol. -/
def abort {α : Type} (id : SymbolId) : Walk α := do
  let pass ← get
  match pass.graph.path? id with
  | some path => throw (.error (.aborted path pass.guard.depth pass.guard.iterations))
  | none => throw (.fault (.unallocated id))

def leave (id : SymbolId) : Walk Unit := do
  let pass ← get
  match pass.guard.leave id with
  | .ok guard => set ({ pass with guard }.record (.left id))
  | .error misuse => throw (.fault (.guard misuse))

/-- Ends with a result that was held back. -/
def conclude {α : Type} : Except ResolveError α → Walk α
  | .ok value => pure value
  | .error error => throw (.error error)

/-- Makes one type of the resolved members of a union. -/
def merge (members : List Ty) : Walk Ty :=
  match Ty.canonicalizeUnion members with
  | .ok type => pure type
  | .error error => throw (.error (.precondition error))

/-- Applies a chain to the type of its target, first to last. Where a method is called on something
that is not an object, or that has no such method, the rest of the chain is unknown. -/
def applyChain (symbol : SymbolId → Walk Ty) : List ChainOp → Ty → Walk Ty
  | [], type => pure type
  | .callResult :: rest, type => applyChain symbol rest type.callResult
  | .memberCall method :: rest, .object owner => do
      let pass ← get
      match pass.graph.lookupMethod owner method with
      | some id => do
          let type ← symbol id
          applyChain symbol rest type.callResult
      | none => do
          note (.missing (.method owner method))
          return .unknown
  | .memberCall _ :: _, _ => pure .unknown

/-- Follows a reference: the type of its target, then the chain. -/
def resolveReference (symbol : SymbolId → Walk Ty) (target : Path) (chain : List ChainOp) :
    Walk Ty := do
  let pass ← get
  match pass.graph.lookup target with
  | some id => do
      let type ← symbol id
      applyChain symbol chain type
  | none => do
      note (.missing target)
      return .unknown

mutual

/-- Replaces the references in a type, given how a symbol is resolved. Unions are made canonical once
all their members are known. -/
def resolve (symbol : SymbolId → Walk Ty) : Ty → Walk Ty
  | .unknown => pure .unknown
  | .literal value => pure (.literal value)
  | .object owner => pure (.object owner)
  | .array entries => do
      let entries ← resolveEntries symbol entries
      return .array entries
  | .function params result => do
      let params ← resolveParams symbol params
      let result ← resolve symbol result
      return .function params result
  | .union members => do
      let members ← resolveMembers symbol members
      merge members
  | .reference target chain => resolveReference symbol target chain

def resolveEntries (symbol : SymbolId → Walk Ty) : List (Key × Ty) → Walk (List (Key × Ty))
  | [] => pure []
  | (key, type) :: rest => do
      let type ← resolve symbol type
      let rest ← resolveEntries symbol rest
      return (key, type) :: rest

def resolveParams (symbol : SymbolId → Walk Ty) : List (String × Ty) → Walk (List (String × Ty))
  | [] => pure []
  | (name, type) :: rest => do
      let type ← resolve symbol type
      let rest ← resolveParams symbol rest
      return (name, type) :: rest

def resolveMembers (symbol : SymbolId → Walk Ty) : List Ty → Walk (List Ty)
  | [] => pure []
  | type :: rest => do
      let type ← resolve symbol type
      let rest ← resolveMembers symbol rest
      return type :: rest

end

/-- Keeps the type found for a symbol that was open at a position. If a cut within its walk closed onto
a symbol below that position, the type is provisional, and the cut counts for the symbols below. -/
def settle (id : SymbolId) (position : Nat) (inner : Option Nat) (type : Ty) : Walk Unit :=
  if inner.any (· < position) then
    modify fun pass => (pass.link inner).record (.provisional id)
  else
    modify fun pass => { pass with graph := pass.graph.set id type }.record (.stored id)

/-- Opens a symbol for the time of a walk and settles what the walk finds. However the walk ends, the
symbol is taken off the stack, and the cuts within it are put aside. -/
def withOpen (id : SymbolId) (body : Walk Ty) : Walk Ty := do
  let pass ← get
  let (entry, guard) := pass.guard.enter id
  set { pass with guard }
  match entry with
  | .cycle position => cut id position
  | .depthExceeded | .iterationExceeded => abort id
  | .entered => do
      let position := guard.depth - 1
      modify fun pass => { pass with lowLink := none }.record (.walked id position)
      let result ← attempt body
      leave id
      let inner := (← get).lowLink
      modify fun inside => { inside with lowLink := pass.lowLink }
      let type ← conclude result
      settle id position inner type
      return type

/-- The type of a symbol, given the symbols that are not open. An open symbol is cut before its stored
type is looked at, even if that is final. -/
def resolveSymbol (closed : List SymbolId) (id : SymbolId) : Walk Ty := do
  let pass ← get
  match pass.guard.position? id with
  | some position => cut id position
  | none =>
      if _h : id ∈ closed then
        match pass.graph.get? id with
        | some stored =>
            if stored.containsReference then
              withOpen id (resolve (fun next => resolveSymbol (closed.erase id) next) stored)
            else do
              note (.recalled id)
              return stored
        | none => throw (.fault (.unallocated id))
      else throw (.fault (.unallocated id))
termination_by closed.length
decreasing_by
  have hpos := List.length_pos_of_mem _h
  rw [List.length_erase_of_mem _h]
  omega

def symbol (id : SymbolId) : Walk Ty := do
  let pass ← get
  resolveSymbol pass.closed id

/-- A type with its references replaced. -/
def type (ty : Ty) : Walk Ty := do
  let pass ← get
  resolve (resolveSymbol pass.closed) ty

/-- Opens symbols from the outside, in order; repeated ones count once. Gives those that were opened and
the one, if any, for which the budget did not suffice. -/
def seed : List SymbolId → Walk (List SymbolId × Option SymbolId)
  | [] => pure ([], none)
  | id :: rest => do
      let pass ← get
      let (entry, guard) := pass.guard.enter id
      set { pass with guard }
      match entry with
      | .entered => do
          note (.seeded id)
          let (opened, denied) ← seed rest
          return (id :: opened, denied)
      | .cycle _ => seed rest
      | .depthExceeded | .iterationExceeded => return ([], some id)

def leaveAll : List SymbolId → Walk Unit
  | [] => pure ()
  | id :: rest => do
      leave id
      leaveAll rest

/-- A type with its references replaced, as seen from within some symbols that are open, the outermost
first: references to these are cut. -/
def typeWithin (visiting : List SymbolId) (ty : Ty) : Walk Ty := do
  let (opened, denied) ← seed visiting
  let result ← attempt (match denied with
    | some id => abort id
    | none => type ty)
  leaveAll opened.reverse
  conclude result

end Walk

end DeferredTypes
