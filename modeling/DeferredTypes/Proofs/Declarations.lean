import DeferredTypes.Proofs.Run

/-! Graphs that come about by declarations. Their index is exact: a path leads to the symbol that has
it, and to no other. Over such a graph a walk meets only symbols that the graph has, so that no request
for a declared symbol faults. -/

namespace DeferredTypes

namespace Graph

/-- The graphs that come about from the one without symbols by declarations and by writes. -/
inductive Built : Graph → Prop
  | empty : Built empty
  | declareClass {graph : Graph} (name : String) (hgraph : Built graph) :
      Built (graph.declareClass name)
  | declare {graph : Graph} (path : Path) (type : Ty) (hgraph : Built graph) :
      Built (graph.declare path type).2
  | set {graph : Graph} (id : SymbolId) (type : Ty) (hgraph : Built graph) :
      Built (graph.set id type)

/-- A path leads to a number exactly if the symbol with this number has the path. -/
def Indexed (graph : Graph) : Prop :=
  ∀ path id, graph.lookup path = some id ↔ graph.path? id = some path

variable {graph : Graph} {path : Path} {id : SymbolId}

/-- A new symbol is found under its path; every other path leads where it led before. -/
theorem lookup_append (graph : Graph) (path : Path) (type : Ty) (other : Path) :
    (graph.append path type).lookup other =
      if other = path then some graph.size else graph.lookup other := by
  obtain ⟨owner, name⟩ := path
  cases owner <;> exact OrderedMap.find?_insert _ _ _ _

theorem symbols_append_eq_push (graph : Graph) (path : Path) (type : Ty) :
    (graph.append path type).symbols = graph.symbols.push ⟨path, type⟩ := by
  obtain ⟨owner, name⟩ := path
  cases owner <;> rfl

theorem symbols_append (graph : Graph) (path : Path) (type : Ty) (id : SymbolId) :
    (graph.append path type).symbols[id]? =
      if id = graph.size then some ⟨path, type⟩ else graph.symbols[id]? := by
  rw [symbols_append_eq_push, Array.getElem?_push]
  rfl

theorem path?_append (graph : Graph) (path : Path) (type : Ty) (id : SymbolId) :
    (graph.append path type).path? id = if id = graph.size then some path else graph.path? id := by
  rw [path?, symbols_append, apply_ite (Option.map Symbol.path)]
  rfl

theorem get?_append (graph : Graph) (path : Path) (type : Ty) (id : SymbolId) :
    (graph.append path type).get? id = if id = graph.size then some type else graph.get? id := by
  rw [get?, symbols_append, apply_ite (Option.map Symbol.type)]
  rfl

theorem lt_size_of_path? (hpath : graph.path? id = some path) : id < graph.size := by
  by_contra hsize
  rw [path?, Array.getElem?_eq_none (Nat.not_lt.mp hsize)] at hpath
  cases hpath

theorem exists_get? (hid : id < graph.size) : ∃ type, graph.get? id = some type :=
  ⟨_, by rw [get?, Array.getElem?_eq_getElem hid]; rfl⟩

namespace Indexed

theorem empty : Graph.empty.Indexed := by
  intro path id
  constructor <;> intro h <;> cases h

/-- The index stays exact if the new path led nowhere before. -/
theorem append (hgraph : graph.Indexed) (hnew : graph.lookup path = none) (type : Ty) :
    (graph.append path type).Indexed := by
  intro other id
  rw [lookup_append, path?_append]
  by_cases hid : id = graph.size
  · -- The new number is the one of the new path only: the graph had not given it out.
    have hfresh : graph.lookup other ≠ some id := by
      intro hlookup
      exact Nat.ne_of_lt (lt_size_of_path? ((hgraph other id).mp hlookup)) hid
    rw [if_pos hid]
    by_cases hother : other = path
    · simp [hother, hid]
    · simp [hother, hfresh, Ne.symm hother]
  · rw [if_neg hid, ← hgraph other id]
    by_cases hother : other = path
    · rw [if_pos hother, hother, hnew]
      simp [Ne.symm hid]
    · rw [if_neg hother]

theorem of_sameSymbols {later : Graph} (hgraph : graph.Indexed) (hsame : graph.SameSymbols later) :
    later.Indexed := by
  intro path id
  rw [hsame.lookup_eq, hsame.path]
  exact hgraph path id

theorem declareClass (hgraph : graph.Indexed) (name : String) : (graph.declareClass name).Indexed :=
  hgraph

theorem declare (hgraph : graph.Indexed) (path : Path) (type : Ty) :
    (graph.declare path type).2.Indexed := by
  unfold Graph.declare
  cases hlookup : graph.lookup path with
  | some id => exact hgraph.of_sameSymbols (.set graph id type)
  | none => exact hgraph.append hlookup type

theorem lt_size (hgraph : graph.Indexed) (hlookup : graph.lookup path = some id) : id < graph.size :=
  lt_size_of_path? ((hgraph path id).mp hlookup)

end Indexed

/-- The index of a graph is exact, whatever the declarations that led to it. -/
theorem Built.indexed (hgraph : graph.Built) : graph.Indexed := by
  induction hgraph with
  | empty => exact .empty
  | declareClass name _ ih => exact ih.declareClass name
  | declare path type _ ih => exact ih.declare path type
  | set id type _ ih => exact ih.of_sameSymbols (.set _ id type)

end Graph

/-! ### Declared symbols do not fault -/

namespace Task

/-- A symbol that is asked for is one of the graph. -/
def Declared (graph : Graph) : Task → Prop
  | .symbol id => id < graph.size
  | .inquiry _ => True

variable {task : Task} {pass after : Pass} {result : Except Halt Ty} {events : List Event}

/-- Over an exact index a run for a declared symbol does not fault. -/
theorem Runs.not_faulty (run : task.Runs pass result events after) (hgraph : pass.graph.Indexed)
    (htask : task.Declared pass.graph) : ¬Faulty result := by
  induction run with
  | cut | recalled | exhausted | answer | refuse => exact fun h => h
  | unallocated _ hget => exact absurd htask (Graph.not_lt_size_of_get? hget)
  | walked _ _ _ ih => exact ih hgraph trivial
  | missing _ _ ih => exact ih hgraph trivial
  | halted hlookup _ ih => exact ih hgraph (hgraph.lt_size hlookup)
  | found _ hsymbol _ _ ihrest => exact ihrest (hgraph.of_sameSymbols hsymbol.sameSymbols) trivial

end Task

end DeferredTypes
