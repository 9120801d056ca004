import DeferredTypes.Resolution.Walk

/-! Resolvers: a graph whose symbols become final as they are asked for, with a budget for each request
and counts over all of them. -/

namespace DeferredTypes

/-- A graph with the limits of each request and the counts so far. -/
structure Resolver where
  graph : Graph
  profile : Profile
  stats : Stats
  deriving DecidableEq

/-- A request to a resolver. What it did to the graph stands, also where it gave up. -/
abbrev Resolving := ExceptT Halt (StateM Resolver)

namespace Resolver

/-- A resolver that nobody has asked yet. -/
def start (graph : Graph) (profile : Profile) : Resolver := ⟨graph, profile, {}⟩

/-- Makes one resolution. At its end no symbol may be open. -/
def run {α : Type} (walk : Walk α) : Resolving α := do
  let resolver ← get
  let (outcome, pass) := StateT.run walk.run (Pass.start resolver.graph resolver.profile.limits)
  set { resolver with
    graph := pass.graph
    stats := resolver.stats.merge (Stats.ofJournal pass.journal) }
  match outcome, pass.guard.close with
  | .error (.fault fault), _ => throw (.fault fault)
  | _, .error misuse => throw (.fault (.guard misuse))
  | .error (.error error), .ok () => throw (.error error)
  | .ok value, .ok () => pure value

/-- A request that answers unknown where it would give up. -/
def degrade (request : Resolving Ty) : Resolving Ty :=
  tryCatch request fun
    | .error _ => pure .unknown
    | .fault fault => throw (.fault fault)

def tryResolve (id : SymbolId) : Resolving Ty := run (Walk.symbol id)

/-- The final type of a symbol, unknown where there is an error. -/
def resolve (id : SymbolId) : Resolving Ty := degrade (tryResolve id)

/-- The final type of the symbol with a path. A path that nobody declared counts as a missing target. -/
def resolvePath (path : Path) : Resolving Ty := do
  let resolver ← get
  match resolver.graph.lookup path with
  | some id => resolve id
  | none => do
      set { resolver with stats := resolver.stats.count (.missing path) }
      return .unknown

/-- Asks for every symbol in order. -/
def resolveAll : Resolving Unit := do
  (← get).graph.ids.forM fun id => discard (resolve id)

/-- Asks for every symbol in order, up to the first error. -/
def tryResolveAll : Resolving Unit := do
  (← get).graph.ids.forM fun id => discard (tryResolve id)

/-- A type with its references replaced, as seen from within some open symbols. -/
def tryResolveTypeWithin (type : Ty) (visiting : List SymbolId) : Resolving Ty :=
  run (Walk.typeWithin visiting type)

/-- A type with its references replaced, unknown where there is an error. -/
def resolveType (type : Ty) : Resolving Ty := degrade (tryResolveTypeWithin type [])

inductive Call
  | resolve (id : SymbolId)
  | tryResolve (id : SymbolId)
  | resolvePath (path : Path)
  | resolveAll
  | tryResolveAll
  | resolveType (type : Ty)
  | tryResolveTypeWithin (type : Ty) (visiting : List SymbolId)

/-- Answers a request; some hand out no type. -/
def Call.answer : Call → Resolving (Option Ty)
  | .resolve id => some <$> Resolver.resolve id
  | .tryResolve id => some <$> Resolver.tryResolve id
  | .resolvePath path => some <$> Resolver.resolvePath path
  | .resolveAll => do
      Resolver.resolveAll
      return none
  | .tryResolveAll => do
      Resolver.tryResolveAll
      return none
  | .resolveType type => some <$> Resolver.resolveType type
  | .tryResolveTypeWithin type visiting => some <$> Resolver.tryResolveTypeWithin type visiting

end Resolver

end DeferredTypes
