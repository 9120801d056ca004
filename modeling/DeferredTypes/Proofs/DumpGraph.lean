import DeferredTypes.CommandLine.Report
import DeferredTypes.Proofs.GraphIndex

/-! The graph of a dump. It comes about by one change for each class and each symbol, so the index of the
graph lists what the dump lists, in the same order, and the symbols that arguments select can be read off
the dump. -/

namespace DeferredTypes

/-! ### Sources -/

/-- The changes that lead to the graph of a source. -/
def Source.changes (source : Source) : List Graph.Change :=
  source.classes.map .declareClass ++
    source.symbols.map fun path => .declare path (source.initialType path)

namespace Graph

/-- The graph of a source is what its changes lead to. -/
theorem after?_changes (source : Source) : after? source.changes = some (ofSource source) := by
  rw [after?, Source.changes, List.foldlM_append, List.foldlM_map]
  have hclasses : source.classes.foldlM (fun graph name => Change.apply graph (.declareClass name)) empty =
      some (source.classes.foldl declareClass empty) := List.foldlM_pure
  rw [hclasses]
  change List.foldlM Change.apply _ (source.symbols.map _) = _
  rw [List.foldlM_map]
  exact List.foldlM_pure

/-- The graph of a source is in agreement with itself and with the source. -/
theorem coherent_ofSource (source : Source) : Coherent source.changes (ofSource source) :=
  .of_after? (after?_changes source)

/-- What classes have no part in is a matter of the symbols. -/
theorem filterMap_changes {β : Type} {f : Change → Option β} (hclass : ∀ name, f (.declareClass name) = none)
    (source : Source) :
    source.changes.filterMap f =
      source.symbols.filterMap fun path => f (.declare path (source.initialType path)) := by
  rw [Source.changes, List.filterMap_append, List.filterMap_map, List.filterMap_map]
  have hclasses : source.classes.filterMap (f ∘ Change.declareClass) = [] := by
    rw [List.filterMap_eq_nil_iff]
    exact fun name _ => hclass name
  rw [hclasses]
  rfl

theorem filterMap_path?_changes (source : Source) :
    source.changes.filterMap Change.path? = source.symbols := by
  rw [filterMap_changes fun _ => rfl]
  exact List.filterMap_some

/-- Every symbol of a source is declared once, in the order of first mention. -/
theorem paths_ofSource (source : Source) : (ofSource source).paths = source.symbols.eraseDups := by
  rw [(coherent_ofSource source).paths, filterMap_path?_changes]

/-! ### Paths by owner -/

variable {graph : Graph}

theorem paths_eq_filterMap (graph : Graph) : graph.paths = graph.ids.filterMap graph.path? := by
  have hids : graph.ids.map graph.path? = graph.paths.map some := by
    apply List.ext_getElem?
    intro id
    rw [List.getElem?_map, List.getElem?_map, getElem?_paths, ids]
    by_cases hid : id < graph.size
    · obtain ⟨type, hget⟩ := exists_get? hid
      obtain ⟨path, hpath⟩ := exists_path hget
      simp [hid, hpath]
    · have hnone : graph.path? id = none := by
        cases hpath : graph.path? id with
        | none => rfl
        | some path => exact absurd (lt_size_of_path? hpath) hid
      simp [hid, hnone]
  have hpaths : (graph.ids.map graph.path?).filterMap id = (graph.paths.map some).filterMap id := by
    rw [hids]
  simpa [List.filterMap_map] using hpaths.symm

/-- The methods of a class in the index are the paths that the class owns, in order. -/
theorem Listed.filterMap_methodsOf (hgraph : graph.Listed) (owner : String) :
    (graph.methodsOf owner).filterMap (fun (_, id) => graph.path? id) =
      graph.paths.filter fun path => path.owner = some owner := by
  have hmethods : graph.methodsOf owner = graph.owned (some owner) := hgraph (some owner)
  rw [hmethods, owned, List.filterMap_filterMap, paths_eq_filterMap, List.filter_filterMap]
  apply List.filterMap_congr
  intro id _
  cases hpath : graph.path? id with
  | none => rfl
  | some path =>
      by_cases howner : path.owner = some owner
      · simp [howner, hpath, Option.filter]
      · simp [howner, Option.filter]

theorem Indexed.mem_paths_iff (hgraph : graph.Indexed) {path : Path} :
    path ∈ graph.paths ↔ ∃ id, graph.lookup path = some id := by
  rw [mem_paths]
  exact exists_congr fun id => (hgraph path id).symm

end Graph

/-! ### Dumps -/

namespace Dump

/-- The methods of a class in the order of the dump; a class that the dump has not has none. -/
def methodNames (dump : Dump) (owner : String) : List String :=
  ((dump.classes.find? owner).map OrderedMap.keys).getD []

theorem filter_symbols (dump : Dump) (owner : String) :
    (dump.symbols.filter fun path => path.owner = some owner) =
      (dump.methodNames owner).map (Path.method owner) := by
  have hfunctions : ((dump.functions.keys.map Path.function).filter fun path =>
      decide (path.owner = some owner)) = [] := by
    rw [List.filter_eq_nil_iff]
    intro path hpath
    obtain ⟨name, -, rfl⟩ := List.mem_map.mp hpath
    simp [Path.function]
  rw [symbols, List.filter_append, hfunctions, List.nil_append, List.filter_flatMap]
  have hclass : ∀ entry : String × OrderedMap String Ty,
      ((entry.2.keys.map (Path.method entry.1)).filter fun path => decide (path.owner = some owner)) =
        if entry.1 = owner then entry.2.keys.map (Path.method owner) else [] := by
    intro entry
    by_cases howner : entry.1 = owner
    · rw [if_pos howner, howner, List.filter_eq_self]
      intro path hpath
      obtain ⟨name, -, rfl⟩ := List.mem_map.mp hpath
      simp [Path.method]
    · rw [if_neg howner, List.filter_eq_nil_iff]
      intro path hpath
      obtain ⟨name, -, rfl⟩ := List.mem_map.mp hpath
      simpa [Path.method] using howner
  simp only [hclass]
  have hpart := dump.classes.flatMap_of_key owner fun methods => methods.keys.map (Path.method owner)
  rw [hpart, methodNames]
  cases dump.classes.find? owner <;> rfl

theorem nodup_symbols (dump : Dump) : dump.symbols.Nodup := by
  rw [symbols, List.nodup_append]
  refine ⟨dump.functions.nodup_keys.map fun _ _ h => (Path.mk.inj h).2, ?_, ?_⟩
  · rw [List.nodup_flatMap]
    constructor
    · intro entry _
      exact entry.2.nodup_keys.map fun _ _ h => (Path.mk.inj h).2
    · refine (List.pairwise_map.mp dump.classes.nodup_keys).imp ?_
      intro left right hne path hleft hright
      obtain ⟨_, -, rfl⟩ := List.mem_map.mp hleft
      obtain ⟨_, -, heq⟩ := List.mem_map.mp hright
      exact hne (Option.some.inj (Path.mk.inj heq).1).symm
  · intro left hleft right hright heq
    obtain ⟨_, -, rfl⟩ := List.mem_map.mp hleft
    obtain ⟨_, -, hmethod⟩ := List.mem_flatMap.mp hright
    obtain ⟨_, -, rfl⟩ := List.mem_map.mp hmethod
    cases heq

theorem paths_toGraph (dump : Dump) : dump.toGraph.paths = dump.symbols := by
  rw [toGraph, Graph.paths_ofSource]
  exact eraseDups_of_nodup dump.nodup_symbols

theorem indexed_toGraph (dump : Dump) : dump.toGraph.Indexed := (Graph.coherent_ofSource _).indexed

theorem methods_toGraph (dump : Dump) (owner : String) :
    (dump.toGraph.methodsOf owner).filterMap (fun (_, id) => dump.toGraph.path? id) =
      (dump.methodNames owner).map (Path.method owner) := by
  have hlisted : dump.toGraph.Listed := (Graph.coherent_ofSource _).listed
  rw [hlisted.filterMap_methodsOf, paths_toGraph, filter_symbols]

/-- The symbols that arguments ask for, by the dump alone: all of them if no function and no class is
named; otherwise the named functions, whether the dump has them or not, and then the methods of the named
classes. -/
def selection (dump : Dump) (arguments : CommandLine.Arguments) : List Path :=
  if arguments.functions = [] ∧ arguments.classes = [] then dump.symbols
  else
    arguments.functions.map Path.function ++
      arguments.classes.flatMap fun owner => (dump.methodNames owner).map (Path.method owner)

/-- What a command line selects in the graph can be read off the dump. -/
theorem selected_toGraph (dump : Dump) (arguments : CommandLine.Arguments) :
    CommandLine.selected dump.toGraph arguments = dump.selection arguments := by
  have hall : arguments.selectsEverything = true ↔ arguments.functions = [] ∧ arguments.classes = [] := by
    simp [CommandLine.Arguments.selectsEverything]
  rw [CommandLine.selected, selection]
  simp only [methods_toGraph, hall]
  congr 1
  exact dump.paths_toGraph

end Dump

end DeferredTypes
