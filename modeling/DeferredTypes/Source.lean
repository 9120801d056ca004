import DeferredTypes.Graph

/-! Where the symbols of a program come from: the classes and symbols that a first analysis found, and
the type that it gave to each symbol. -/

namespace DeferredTypes

/-- The findings of a first analysis. Classes and symbols may be listed repeatedly. -/
structure Source where
  classes : List String
  symbols : List Path
  initialType : Path → Ty

/-- The source that lists symbols with their types. Of several types for one path the last counts. -/
def Source.ofList (classes : List String) (entries : List (Path × Ty)) : Source where
  classes := classes
  symbols := entries.map Prod.fst
  initialType path := (entries.reverse.lookup path).getD .unknown

/-- The graph of a source: its classes are listed first, then its symbols are declared in order. -/
def Graph.ofSource (source : Source) : Graph :=
  let graph := source.classes.foldl Graph.declareClass Graph.empty
  source.symbols.foldl (fun graph path => (graph.declare path (source.initialType path)).2) graph

end DeferredTypes
