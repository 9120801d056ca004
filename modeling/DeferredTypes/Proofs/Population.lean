import DeferredTypes.Proofs.DumpGraph

/-! How graphs are filled. A source numbers its symbols by their first occurrence. A dump lists functions
and methods in maps of their own, so that the graph of a dump numbers the functions first and then the
methods class by class, whatever the order in which they were added; the type of each is the one that was
added last. -/

namespace DeferredTypes

/-! ### Sources -/

namespace Graph

theorem filterMap_mention?_changes (source : Source) :
    source.changes.filterMap Change.mention? = source.classes ++ source.symbols.filterMap Path.owner := by
  rw [Source.changes, List.filterMap_append, List.filterMap_map, List.filterMap_map]
  exact congrArg₂ (· ++ ·) List.filterMap_some rfl

theorem filterMap_write?_changes (source : Source) (graph : Graph) :
    source.changes.filterMap (Change.write? graph) =
      source.symbols.map fun path => (path, source.initialType path) := by
  rw [filterMap_changes fun _ => rfl]
  exact congrFun List.filterMap_eq_map' source.symbols

theorem classNames_ofSource (source : Source) :
    (ofSource source).classNames = (source.classes ++ source.symbols.filterMap Path.owner).eraseDups := by
  rw [(coherent_ofSource source).classes, filterMap_mention?_changes]

end Graph

/-- The symbols of a source have their initial types, and there are no others. -/
theorem Graph.typeOf?_ofSource (source : Source) (path : Path) :
    (ofSource source).typeOf? path =
      if path ∈ source.symbols then some (source.initialType path) else none := by
  rw [(coherent_ofSource source).types, filterMap_write?_changes, ← List.map_reverse, lookup_map_self]
  simp only [List.mem_reverse]

/-! ### Dumps -/

namespace Dump

/-- What the dump lists under an owner: the functions, or the methods of a class. -/
def under (dump : Dump) : Option String → OrderedMap String Ty
  | none => dump.functions
  | some owner => (dump.classes.find? owner).getD ∅

theorem initialType_eq (dump : Dump) (path : Path) :
    dump.initialType path = ((dump.under path.owner).find? path.name).getD .unknown := by
  obtain ⟨_ | owner, name⟩ := path
  · rfl
  · change ((dump.classes.find? owner).bind fun methods => methods.find? name).getD .unknown =
      (((dump.classes.find? owner).getD ∅).find? name).getD .unknown
    cases dump.classes.find? owner <;> rfl

theorem symbols_eq (dump : Dump) :
    dump.symbols = (dump.under none).keys.map (Path.mk none) ++
      dump.classes.keys.flatMap fun owner => (dump.under (some owner)).keys.map (Path.mk (some owner)) := by
  rw [symbols, show dump.classes.keys = dump.classes.toList.map Prod.fst from rfl, List.flatMap_map]
  refine congrArg (_ ++ ·) (List.flatMap_congr fun entry hentry => ?_)
  rw [under, OrderedMap.mem_toList_iff.mp hentry]
  rfl

inductive Addition
  | function (name : String) (type : Ty)
  | method (owner name : String) (type : Ty)

namespace Addition

def path : Addition → Path
  | .function name _ => .function name
  | .method owner name _ => .method owner name

def type : Addition → Ty
  | .function _ type | .method _ _ type => type

def apply (dump : Dump) : Addition → Dump
  | .function name type => dump.addFunction name type
  | .method owner name type => dump.addMethod owner name type

/-- An addition writes under the owner of its path and nowhere else. -/
theorem under_apply (dump : Dump) (addition : Addition) (owner : Option String) :
    (apply dump addition).under owner = if owner = addition.path.owner
      then (dump.under owner).insert addition.path.name addition.type else dump.under owner := by
  cases addition with
  | function name type => cases owner <;> rfl
  | method owner' name type =>
      cases owner with
      | none => rfl
      | some owner =>
          simp only [apply, addMethod, under, path, Path.method, OrderedMap.find?_upsert, Option.some.injEq]
          by_cases howner : owner = owner'
          · rw [if_pos howner, if_pos howner, howner]
            rfl
          · rw [if_neg howner, if_neg howner]

theorem classes_apply (dump : Dump) (addition : Addition) :
    (apply dump addition).classes.keys = enlist dump.classes.keys addition.path.owner := by
  cases addition with
  | function name type => rfl
  | method owner name type => exact OrderedMap.keys_upsert _ _ _

end Addition

def filled (additions : List Addition) : Dump := additions.foldl Addition.apply empty

theorem filled_append_singleton (additions : List Addition) (last : Addition) :
    filled (additions ++ [last]) = last.apply (filled additions) := by
  rw [filled, List.foldl_append]
  rfl

theorem classes_filled (additions : List Addition) :
    (filled additions).classes.keys = (additions.filterMap fun addition => addition.path.owner).eraseDups := by
  induction additions using List.reverseRecOn with
  | nil => rfl
  | append_singleton additions last ih =>
      rw [filled_append_singleton, Addition.classes_apply, ih, eraseDups_filterMap_append]

/-- Symbols are listed under their owner in the order of their first addition. -/
theorem under_filled (additions : List Addition) (owner : Option String) :
    ((filled additions).under owner).keys.map (Path.mk owner) =
      ((additions.map Addition.path).filter fun path => path.owner = owner).eraseDups := by
  induction additions using List.reverseRecOn with
  | nil => cases owner <;> rfl
  | append_singleton additions last ih =>
      rw [filled_append_singleton, Addition.under_apply, List.map_append, List.filter_append]
      -- The last call writes under the owner of its symbol and nowhere else.
      by_cases howner : owner = last.path.owner
      · have hlast : ([last].map Addition.path).filter (fun path => path.owner = owner) = [last.path] := by
          simp [howner]
        have hpath : Path.mk owner last.path.name = last.path := by rw [howner]
        rw [if_pos howner, hlast, eraseDups_append_singleton, ← ih, ← hpath]
        exact OrderedMap.map_keys_insert _ _ _ fun _ _ h => (Path.mk.inj h).2
      · have hlast : ([last].map Addition.path).filter (fun path => path.owner = owner) = [] := by
          simp [Ne.symm howner]
        rw [if_neg howner, hlast, List.append_nil, ih]

/-- The type that was added last counts. -/
theorem find?_filled (additions : List Addition) (path : Path) :
    ((filled additions).under path.owner).find? path.name =
      (additions.map fun addition => (addition.path, addition.type)).reverse.lookup path := by
  induction additions using List.reverseRecOn with
  | nil => obtain ⟨_ | owner, name⟩ := path <;> rfl
  | append_singleton additions last ih =>
      rw [filled_append_singleton, Addition.under_apply, List.map_append, List.reverse_append,
        List.map_singleton, List.reverse_singleton, List.singleton_append, List.lookup_cons]
      by_cases hpath : path = last.path
      · rw [if_pos (congrArg Path.owner hpath), OrderedMap.find?_insert, hpath]
        simp
      · -- under the owner of the last symbol only its own name is written
        rw [beq_eq_false_iff_ne.mpr hpath, ← ih]
        split
        · rename_i howner
          have hname : path.name ≠ last.path.name := fun hname => hpath (congrArg₂ Path.mk howner hname)
          rw [OrderedMap.find?_insert, if_neg hname]
        · rfl

/-- The order in which a dump lists the symbols that were added to it: the functions, then class after class
the methods, each in the order of first additions. -/
def listing (paths : List Path) : List Path :=
  (paths.filter fun path => path.owner = none).eraseDups ++
    (paths.filterMap Path.owner).eraseDups.flatMap fun owner =>
      (paths.filter fun path => path.owner = some owner).eraseDups

theorem mem_listing {paths : List Path} {path : Path} : path ∈ listing paths ↔ path ∈ paths := by
  simp only [listing, List.mem_append, List.mem_flatMap, List.mem_eraseDups, List.mem_filter,
    List.mem_filterMap, decide_eq_true_eq]
  constructor
  · rintro (⟨hpath, -⟩ | ⟨owner, -, hpath, -⟩)
    · exact hpath
    · exact hpath
  · intro hpath
    cases howner : path.owner with
    | none => exact .inl ⟨hpath, rfl⟩
    | some owner => exact .inr ⟨owner, ⟨path, hpath, howner⟩, hpath, rfl⟩

theorem symbols_filled (additions : List Addition) :
    (filled additions).symbols = listing (additions.map Addition.path) := by
  rw [symbols_eq, under_filled, classes_filled, listing, List.filterMap_map]
  refine congrArg (_ ++ ·) (List.flatMap_congr fun owner _ => ?_)
  exact under_filled additions (some owner)

theorem paths_filled (additions : List Addition) :
    (filled additions).toGraph.paths = listing (additions.map Addition.path) := by
  rw [paths_toGraph, symbols_filled]

/-- Of the additions for one path the last gives the type. -/
theorem typeOf?_filled (additions : List Addition) (path : Path) :
    (filled additions).toGraph.typeOf? path =
      (additions.map fun addition => (addition.path, addition.type)).reverse.lookup path := by
  have hadded : path ∈ (filled additions).symbols ↔
      ((additions.map fun addition => (addition.path, addition.type)).reverse.lookup path).isSome = true := by
    rw [symbols_filled, mem_listing, List.lookup_isSome_iff]
    simp only [List.mem_reverse, List.mem_map, exists_exists_and_eq_and, beq_iff_eq]
    exact exists_congr fun _ => and_congr_right fun _ => eq_comm
  rw [toGraph, Graph.typeOf?_ofSource]
  change (if path ∈ (filled additions).symbols then some ((filled additions).initialType path) else none) = _
  rw [initialType_eq, find?_filled]
  simp only [hadded]
  cases (additions.map fun addition => (addition.path, addition.type)).reverse.lookup path <;> rfl

end Dump

/-- Filling a graph is faithful. After any series of calls that add functions and methods to the dump without
symbols, the graph of the dump has the added symbols and no others, numbered in this order: the functions,
then class after class the methods, each in the order of first additions; the type of each is the one that
was added last. The graph of a source numbers the symbols that the source lists by their first occurrence,
has for each the type that the source gives it, and lists the classes of the source and then the further
owners of methods, each once, in the order of their first mention. -/
theorem population_faithful :
    (∀ additions : List Dump.Addition,
      let graph := (Dump.filled additions).toGraph
      let added := additions.map Dump.Addition.path
      (∀ id, graph.path? id = (Dump.listing added)[id]?) ∧
      (∀ path, graph.lookup path = (Dump.listing added).idxOf? path) ∧
      (∀ path, (∃ id, graph.lookup path = some id) ↔ path ∈ added) ∧
      ∀ path, (graph.lookup path).bind graph.get? =
        (additions.map fun addition => (addition.path, addition.type)).reverse.lookup path) ∧
    ∀ source : Source,
      let graph := Graph.ofSource source
      (∀ id, graph.path? id = source.symbols.eraseDups[id]?) ∧
      (∀ path, graph.lookup path = source.symbols.eraseDups.idxOf? path) ∧
      (∀ path, (graph.lookup path).bind graph.get? =
        if path ∈ source.symbols then some (source.initialType path) else none) ∧
      graph.classNames = (source.classes ++ source.symbols.filterMap Path.owner).eraseDups := by
  constructor
  · intro additions graph added
    have hpaths : graph.paths = Dump.listing added := Dump.paths_filled additions
    have hindexed : graph.Indexed := (Dump.filled additions).indexed_toGraph
    refine ⟨fun id => ?_, fun path => ?_, fun path => ?_, Dump.typeOf?_filled additions⟩
    · rw [← hpaths, Graph.getElem?_paths]
    · rw [← hpaths, hindexed.lookup_eq_idxOf?]
    · rw [← hindexed.mem_paths_iff, hpaths, Dump.mem_listing]
  · intro source graph
    have hpaths : graph.paths = source.symbols.eraseDups := Graph.paths_ofSource source
    have hindexed : graph.Indexed := (Graph.coherent_ofSource source).indexed
    refine ⟨fun id => ?_, fun path => ?_, Graph.typeOf?_ofSource source, Graph.classNames_ofSource source⟩
    · rw [← hpaths, Graph.getElem?_paths]
    · rw [← hpaths, hindexed.lookup_eq_idxOf?]

end DeferredTypes
