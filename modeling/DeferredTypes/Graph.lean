import DeferredTypes.OrderedMap
import DeferredTypes.Ty.Render

/-! The symbols of one program with their current types, numbered in the order of their first
declaration. Three maps lead to the numbers: one from the names of functions, one from the names of
classes and methods, and one from paths. They are written one by one, and a graph carries the proof that
they agree. Numbers have no bound here: graphs with more symbols than 32 bits can number are out of
scope. -/

namespace DeferredTypes

/-- The number of a symbol in its graph. -/
abbrev SymbolId := Nat

/-- A declared symbol and its current type. -/
structure Symbol where
  path : Path
  type : Ty
  deriving DecidableEq, Inhabited

/-- The number that the names in a path lead to. -/
def namedId? (functions : OrderedMap String SymbolId)
    (classes : OrderedMap String (OrderedMap String SymbolId)) : Path → Option SymbolId
  | ⟨none, name⟩ => functions.find? name
  | ⟨some owner, name⟩ => (classes.find? owner).bind fun methods => methods.find? name

section

variable (functions : OrderedMap String SymbolId) (classes : OrderedMap String (OrderedMap String SymbolId))

theorem namedId?_insert_function (name : String) (id : SymbolId) (path : Path) :
    namedId? (functions.insert name id) classes path =
      if path = .function name then some id else namedId? functions classes path := by
  obtain ⟨owner, other⟩ := path
  cases owner with
  | none =>
      rw [namedId?, namedId?, OrderedMap.find?_insert]
      simp only [Path.function, Path.mk.injEq, true_and]
  | some owner =>
      rw [if_neg (by simp [Path.function])]
      rfl

/-- A class that is not listed has no methods. -/
theorem find?_getD_empty (owner name : String) :
    ((classes.find? owner).getD ∅).find? name =
      (classes.find? owner).bind fun methods => methods.find? name := by
  cases classes.find? owner <;> rfl

theorem namedId?_insert_method (owner name : String) (id : SymbolId) (path : Path) :
    namedId? functions (classes.upsert owner fun methods => (methods.getD ∅).insert name id) path =
      if path = .method owner name then some id else namedId? functions classes path := by
  obtain ⟨owner', other⟩ := path
  cases owner' with
  | none =>
      rw [if_neg (by simp [Path.method])]
      rfl
  | some owner' =>
      rw [namedId?, namedId?, OrderedMap.find?_upsert]
      by_cases howner : owner' = owner
      · subst howner
        rw [if_pos rfl, Option.bind_some, OrderedMap.find?_insert, find?_getD_empty]
        simp only [Path.method, Path.mk.injEq, true_and]
      · rw [if_neg howner, if_neg (by simp [Path.method, howner])]

theorem namedId?_listClass (name : String) (path : Path) :
    namedId? functions (classes.upsert name fun methods => methods.getD ∅) path =
      namedId? functions classes path := by
  obtain ⟨owner, other⟩ := path
  cases owner with
  | none => rfl
  | some owner =>
      rw [namedId?, namedId?, OrderedMap.find?_upsert]
      by_cases howner : owner = name
      · subst howner
        rw [if_pos rfl, Option.bind_some, find?_getD_empty]
      · rw [if_neg howner]

end

/-- All symbols of a program. A class is listed when it is declared or when its first method is. Functions,
methods and paths have maps of their own; whatever writes to one of them shows that they agree still. -/
structure Graph where
  symbols : Array Symbol
  functions : OrderedMap String SymbolId
  classes : OrderedMap String (OrderedMap String SymbolId)
  byPath : OrderedMap Path SymbolId
  /-- A path leads to the same number as the names in it. -/
  agree : ∀ path, byPath.find? path = namedId? functions classes path
  deriving DecidableEq

namespace Graph

def empty : Graph where
  symbols := #[]
  functions := ∅
  classes := ∅
  byPath := ∅
  agree path := by
    obtain ⟨owner, name⟩ := path
    cases owner <;> rfl

instance : Inhabited Graph := ⟨empty⟩

def size (graph : Graph) : Nat := graph.symbols.size

/-- The numbers of all symbols in order. -/
def ids (graph : Graph) : List SymbolId := List.range graph.size

/-- The current type of a symbol; there is none for a number the graph has not given out. -/
def get? (graph : Graph) (id : SymbolId) : Option Ty := (graph.symbols[id]?).map Symbol.type

def path? (graph : Graph) (id : SymbolId) : Option Path := (graph.symbols[id]?).map Symbol.path

def set (graph : Graph) (id : SymbolId) (type : Ty) : Graph :=
  { graph with symbols := graph.symbols.modify id fun symbol => { symbol with type } }

/-- Replaces the type of a symbol that the graph has. -/
def set? (graph : Graph) (id : SymbolId) (type : Ty) : Option Graph :=
  if id < graph.size then some (graph.set id type) else none

def lookupFunction (graph : Graph) (name : String) : Option SymbolId := graph.functions.find? name

def lookupMethod (graph : Graph) (owner name : String) : Option SymbolId :=
  (graph.classes.find? owner).bind fun methods => methods.find? name

/-- The number of a symbol, by the map of the paths alone. -/
def lookup (graph : Graph) (path : Path) : Option SymbolId := graph.byPath.find? path

theorem lookup_function (graph : Graph) (name : String) :
    graph.lookup (.function name) = graph.lookupFunction name :=
  graph.agree (.function name)

theorem lookup_method (graph : Graph) (owner name : String) :
    graph.lookup (.method owner name) = graph.lookupMethod owner name :=
  graph.agree (.method owner name)

/-- Lists a class, with or without methods. -/
def declareClass (graph : Graph) (name : String) : Graph :=
  { graph with
    classes := graph.classes.upsert name fun methods => methods.getD ∅
    agree := fun path => by rw [namedId?_listClass, graph.agree] }

/-- Declares a symbol that is new to the graph: it gets the next number, by its names and by its path. -/
def append (graph : Graph) (path : Path) (type : Ty) : Graph :=
  let id := graph.size
  let symbols := graph.symbols.push ⟨path, type⟩
  match path with
  | ⟨none, name⟩ =>
      { graph with
        symbols
        functions := graph.functions.insert name id
        byPath := graph.byPath.insert (.function name) id
        agree := fun other => by rw [OrderedMap.find?_insert, namedId?_insert_function, graph.agree] }
  | ⟨some owner, name⟩ =>
      { graph with
        symbols
        classes := graph.classes.upsert owner fun methods => (methods.getD ∅).insert name id
        byPath := graph.byPath.insert (.method owner name) id
        agree := fun other => by rw [OrderedMap.find?_insert, namedId?_insert_method, graph.agree] }

/-- Declares a symbol and gives its number. A symbol declared before keeps its number and gets the new
type. -/
def declare (graph : Graph) (path : Path) (type : Ty) : SymbolId × Graph :=
  match graph.lookup path with
  | some id => (id, graph.set id type)
  | none => (graph.size, graph.append path type)

def declareFunction (graph : Graph) (name : String) (type : Ty) : SymbolId × Graph :=
  graph.declare (.function name) type

/-- Declares a method, and lists its class. -/
def declareMethod (graph : Graph) (owner name : String) (type : Ty) : SymbolId × Graph :=
  graph.declare (.method owner name) type

def hasClass (graph : Graph) (name : String) : Bool := graph.classes.contains name

/-- The listed classes in the order of their first mention. -/
def classNames (graph : Graph) : List String := graph.classes.keys

/-- The methods of a class in the order of their declaration; none for a class that is not listed. -/
def methodsOf (graph : Graph) (owner : String) : List (String × SymbolId) :=
  match graph.classes.find? owner with
  | some methods => methods.toList
  | none => []

/-- A symbol is final once its type holds no reference. -/
def isResolved? (graph : Graph) (id : SymbolId) : Option Bool :=
  (graph.get? id).map fun type => !type.containsReference

/-- The symbols that are not final yet. -/
def pending (graph : Graph) : List SymbolId :=
  graph.ids.filter fun id => graph.isResolved? id = some false

/-- All paths with the display text of their types. -/
def snapshot (graph : Graph) : List (Path × String) :=
  graph.symbols.toList.map fun symbol => (symbol.path, symbol.type.display)

end Graph

end DeferredTypes
