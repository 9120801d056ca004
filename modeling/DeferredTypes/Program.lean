import DeferredTypes.Resolver

/-! The types of a program, made final as they are asked for. Each question is a request of its own to a
new resolver; the counts add up. -/

namespace DeferredTypes

/-- The graph of a program, the limits of each resolution, and the counts so far. -/
structure Program where
  graph : Graph
  profile : Profile
  stats : Stats
  deriving DecidableEq

/-- A question about a program. What it did to the graph stands, also where it gave up. -/
abbrev Querying := ExceptT Halt (StateM Program)

namespace Program

/-- A program about which nothing has been asked. -/
def start (graph : Graph) (profile : Profile) : Program := ⟨graph, profile, {}⟩

/-- Puts requests to a new resolver over the graph, then adds up its counts. A fault loses them. -/
def withResolver {α : Type} (requests : Resolving α) : Querying α := do
  let program ← get
  let (outcome, resolver) := StateT.run requests.run (.start program.graph program.profile)
  match outcome with
  | .error (.fault fault) => do
      set { program with graph := resolver.graph }
      throw (.fault fault)
  | .error (.error error) => do
      set { program with graph := resolver.graph, stats := program.stats.merge resolver.stats }
      throw (.error error)
  | .ok value => do
      set { program with graph := resolver.graph, stats := program.stats.merge resolver.stats }
      return value

def resolve (id : SymbolId) : Querying Ty := withResolver (Resolver.resolve id)

def tryResolve (id : SymbolId) : Querying Ty := withResolver (Resolver.tryResolve id)

def resolveAll : Querying Unit := withResolver Resolver.resolveAll

def tryResolveAll : Querying Unit := withResolver Resolver.tryResolveAll

/-- The final type of a free function, unknown if there is none of that name. -/
def functionType (name : String) : Querying Ty := do
  match (← get).graph.lookupFunction name with
  | some id => resolve id
  | none => return .unknown

def tryFunctionType (name : String) : Querying Ty := do
  match (← get).graph.lookupFunction name with
  | some id => tryResolve id
  | none => return .unknown

/-- The final type of a method, unknown if the class has none of that name. -/
def methodType (owner name : String) : Querying Ty := do
  match (← get).graph.lookupMethod owner name with
  | some id => resolve id
  | none => return .unknown

def tryMethodType (owner name : String) : Querying Ty := do
  match (← get).graph.lookupMethod owner name with
  | some id => tryResolve id
  | none => return .unknown

/-- The methods of a class in the order of their declaration. -/
def methodNames (program : Program) (owner : String) : List String :=
  (program.graph.methodsOf owner).map Prod.fst

/-- The methods of a class with their final types, in the order of their declaration. -/
def methods (owner : String) : Querying (List (String × Ty)) := do
  ((← get).graph.methodsOf owner).mapM fun (name, id) => do return (name, ← resolve id)

end Program

end DeferredTypes
