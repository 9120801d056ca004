import DeferredTypes.Proofs.Collections
import DeferredTypes.Proofs.Locality

/-! The index of a graph after a series of changes. The table of the symbols and the maps of the functions,
of the classes and of the paths are kept apart, and each change writes to them one by one. Each map holds
what the table has, and no map holds anything else. What a graph lists is thereby a matter of its history
alone: the symbols in the order of their first declaration, the classes in the order of their first mention,
and for each symbol the type that was written last. -/

namespace DeferredTypes

namespace Graph

/-! ### Changes -/

inductive Change
  | declare (path : Path) (type : Ty)
  | declareFunction (name : String) (type : Ty)
  | declareMethod (owner name : String) (type : Ty)
  | declareClass (name : String)
  | set (id : SymbolId) (type : Ty)

namespace Change

/-- The graph after a change. The type of a symbol that the graph has not cannot be set. -/
def apply (graph : Graph) : Change → Option Graph
  | .declare path type => some (graph.declare path type).2
  | .declareFunction name type => some (graph.declareFunction name type).2
  | .declareMethod owner name type => some (graph.declareMethod owner name type).2
  | .declareClass name => some (graph.declareClass name)
  | .set id type => graph.set? id type

def path? : Change → Option Path
  | .declare path _ => some path
  | .declareFunction name _ => some (.function name)
  | .declareMethod owner name _ => some (.method owner name)
  | .declareClass _ | .set _ _ => none

/-- The class that is mentioned: by itself, or as the owner of a method. -/
def mention? : Change → Option String
  | .declareClass name => some name
  | change => change.path?.bind Path.owner

/-- The path whose type is written, and this type. Numbers are those of the symbols of the graph. -/
def write? (graph : Graph) : Change → Option (Path × Ty)
  | .declare path type => some (path, type)
  | .declareFunction name type => some (.function name, type)
  | .declareMethod owner name type => some (.method owner name, type)
  | .declareClass _ => none
  | .set id type => (graph.path? id).map fun path => (path, type)

/-- A change declares a symbol, lists a class, or sets the type of a symbol that is there. -/
theorem apply_cases {graph later : Graph} {change : Change} (happly : change.apply graph = some later) :
    (∃ path type, later = (graph.declare path type).2 ∧ change.path? = some path ∧
      change.mention? = path.owner ∧ ∀ any, change.write? any = some (path, type)) ∨
    (∃ name, change = .declareClass name ∧ later = graph.declareClass name) ∨
    ∃ id type, change = .set id type ∧ id < graph.size ∧ later = graph.set id type := by
  cases change with
  | declare path type => exact Or.inl ⟨path, type, (Option.some.inj happly).symm, rfl, rfl, fun _ => rfl⟩
  | declareFunction name type =>
      exact Or.inl ⟨.function name, type, (Option.some.inj happly).symm, rfl, rfl, fun _ => rfl⟩
  | declareMethod owner name type =>
      exact Or.inl ⟨.method owner name, type, (Option.some.inj happly).symm, rfl, rfl, fun _ => rfl⟩
  | declareClass name => exact Or.inr (Or.inl ⟨name, rfl, (Option.some.inj happly).symm⟩)
  | set id type =>
      right
      right
      change (if id < graph.size then some (graph.set id type) else none) = some later at happly
      split at happly
      · exact ⟨id, type, rfl, ‹_›, (Option.some.inj happly).symm⟩
      · cases happly

end Change

/-- The graph after some changes, if all of them can be made. -/
def after? (changes : List Change) : Option Graph := changes.foldlM Change.apply empty

theorem after?_append_singleton {changes : List Change} {change : Change} {later : Graph}
    (hlater : after? (changes ++ [change]) = some later) :
    ∃ graph, after? changes = some graph ∧ change.apply graph = some later := by
  rw [after?, List.foldlM_append] at hlater
  obtain ⟨graph, hgraph, hchange⟩ := Option.bind_eq_some_iff.mp hlater
  refine ⟨graph, hgraph, ?_⟩
  simpa using hchange

/-! ### What a graph lists -/

/-- The paths of the symbols in the order of their numbers. -/
def paths (graph : Graph) : List Path := graph.symbols.toList.map Symbol.path

/-- The symbols with an owner, or the functions, by the table of the symbols: names and numbers. -/
def owned (graph : Graph) (owner : Option String) : List (String × SymbolId) :=
  graph.ids.filterMap fun id =>
    (graph.path? id).bind fun path => if path.owner = owner then some (path.name, id) else none

/-- The symbols with an owner, or the functions, as they are listed in the index. -/
def listing (graph : Graph) : Option String → List (String × SymbolId)
  | none => graph.functions.toList
  | some owner => graph.methodsOf owner

variable {graph later : Graph} {path : Path} {id : SymbolId} {type : Ty} {owner : Option String}

theorem getElem?_paths (graph : Graph) (id : SymbolId) : graph.paths[id]? = graph.path? id := by
  rw [paths, List.getElem?_map, Array.getElem?_toList, path?]

theorem mem_paths : path ∈ graph.paths ↔ ∃ id, graph.path? id = some path := by
  rw [List.mem_iff_getElem?]
  simp only [getElem?_paths]

/-- A path leads to its place in the order of the numbers. -/
theorem Indexed.lookup_eq_idxOf? (hgraph : graph.Indexed) (path : Path) :
    graph.lookup path = graph.paths.idxOf? path := by
  cases hindex : graph.paths.idxOf? path with
  | none =>
      rw [List.idxOf?_eq_none_iff, mem_paths] at hindex
      cases hlookup : graph.lookup path with
      | none => rfl
      | some id => exact absurd ⟨id, (hgraph path id).mp hlookup⟩ hindex
  | some id =>
      obtain ⟨hid, hpath, -⟩ := List.idxOf?_eq_some_iff.mp hindex
      rw [hgraph, ← getElem?_paths, List.getElem?_eq_getElem hid, hpath]

theorem mem_owned {name : String} : (name, id) ∈ graph.owned owner ↔ graph.path? id = some ⟨owner, name⟩ := by
  simp only [owned, ids, List.mem_filterMap, List.mem_range, Option.bind_eq_some_iff]
  constructor
  · rintro ⟨other, -, path, hpath, hentry⟩
    split at hentry
    · rename_i howner
      obtain ⟨rfl, rfl⟩ := Prod.mk.inj (Option.some.inj hentry)
      rw [hpath, ← howner]
    · cases hentry
  · intro hpath
    exact ⟨id, lt_size_of_path? hpath, _, hpath, if_pos rfl⟩

theorem pairwise_owned (graph : Graph) (owner : Option String) :
    ((graph.owned owner).map Prod.snd).Pairwise (· < ·) := by
  rw [List.pairwise_map]
  refine List.pairwise_lt_range.filterMap _ ?_
  intro left right hlt entry hentry entry' hentry'
  obtain ⟨path, -, hleft⟩ := Option.bind_eq_some_iff.mp hentry
  obtain ⟨path', -, hright⟩ := Option.bind_eq_some_iff.mp hentry'
  split at hleft
  · split at hright
    · obtain rfl := Option.some.inj hleft
      obtain rfl := Option.some.inj hright
      exact hlt
    · cases hright
  · cases hleft

/-! #### Symbols that are there -/

theorem paths_of_sameSymbols (hsame : graph.SameSymbols later) : later.paths = graph.paths := by
  apply List.ext_getElem?
  intro id
  rw [getElem?_paths, getElem?_paths, hsame.path]

theorem owned_of_sameSymbols (hsame : graph.SameSymbols later) : later.owned owner = graph.owned owner := by
  rw [owned, owned, hsame.ids_eq, funext hsame.path]

theorem listing_of_sameSymbols (hsame : graph.SameSymbols later) :
    later.listing owner = graph.listing owner := by
  cases owner with
  | none => rw [listing, listing, hsame.functions]
  | some owner => rw [listing, listing, methodsOf, methodsOf, hsame.classes]

theorem classNames_of_sameSymbols (hsame : graph.SameSymbols later) :
    later.classNames = graph.classNames := by
  rw [classNames, classNames, hsame.classes]

/-! #### A new symbol -/

theorem paths_append (graph : Graph) (path : Path) (type : Ty) :
    (graph.append path type).paths = graph.paths ++ [path] := by
  rw [paths, symbols_append_eq_push, Array.toList_push, List.map_append]
  rfl

theorem size_append (graph : Graph) (path : Path) (type : Ty) :
    (graph.append path type).size = graph.size + 1 := by
  rw [size, symbols_append_eq_push, Array.size_push, size]

/-- A new symbol is the last of its owner. -/
theorem owned_append (graph : Graph) (path : Path) (type : Ty) (owner : Option String) :
    (graph.append path type).owned owner =
      graph.owned owner ++ (if path.owner = owner then some (path.name, graph.size) else none).toList := by
  rw [owned, ids, size_append, List.range_succ, List.filterMap_append, owned]
  congr 1
  · apply List.filterMap_congr
    intro id hid
    rw [path?_append, if_neg (Nat.ne_of_lt (List.mem_range.mp hid))]
  · simp only [List.filterMap_cons, path?_append, if_true, List.filterMap_nil, Option.bind_some]
    split <;> simp_all

/-- The methods of a class in the index; a class that is not listed has none. -/
def methodMap (graph : Graph) (owner : String) : OrderedMap String SymbolId :=
  (graph.classes.find? owner).getD ∅

theorem methodsOf_eq (graph : Graph) (owner : String) :
    graph.methodsOf owner = (graph.methodMap owner).toList := by
  rw [methodsOf, methodMap]
  cases graph.classes.find? owner <;> rfl

theorem lookupMethod_eq (graph : Graph) (owner name : String) :
    graph.lookupMethod owner name = (graph.methodMap owner).find? name :=
  (find?_getD_empty graph.classes owner name).symm

theorem methodMap_append_method (graph : Graph) (owner name : String) (type : Ty) (other : String) :
    (graph.append (.method owner name) type).methodMap other =
      if other = owner then (graph.methodMap owner).insert name graph.size else graph.methodMap other := by
  have hfind : (graph.append (.method owner name) type).classes.find? other =
      if other = owner then some ((graph.methodMap owner).insert name graph.size)
      else graph.classes.find? other := OrderedMap.find?_upsert _ _ _ _
  rw [methodMap, hfind]
  split <;> rfl

theorem methodMap_declareClass (graph : Graph) (name other : String) :
    (graph.declareClass name).methodMap other = graph.methodMap other := by
  have hfind : (graph.declareClass name).classes.find? other =
      if other = name then some (graph.methodMap name) else graph.classes.find? other :=
    OrderedMap.find?_upsert _ _ _ _
  rw [methodMap, hfind]
  split
  · rename_i hother
    rw [hother]
    rfl
  · rfl

/-- In the index, too, a new symbol is the last of its owner: its name was not listed before. -/
theorem listing_append (hnew : graph.lookup path = none) (type : Ty) (owner : Option String) :
    (graph.append path type).listing owner =
      graph.listing owner ++ (if path.owner = owner then some (path.name, graph.size) else none).toList := by
  obtain ⟨owner', name⟩ := path
  cases owner' with
  | none =>
      cases owner with
      | none =>
          have hname : name ∉ graph.functions.keys := by
            rw [← OrderedMap.find?_eq_none_iff]
            exact (graph.lookup_function name).symm.trans hnew
          exact OrderedMap.toList_upsert_of_not_mem hname _
      | some owner => exact (List.append_nil _).symm
  | some owner' =>
      cases owner with
      | none => exact (List.append_nil _).symm
      | some owner =>
          rw [listing, listing, methodsOf_eq, methodsOf_eq]
          change ((graph.append (.method owner' name) type).methodMap owner).toList = _
          rw [methodMap_append_method]
          by_cases howner : owner = owner'
          · have hname : name ∉ (graph.methodMap owner').keys := by
              rw [← OrderedMap.find?_eq_none_iff, ← lookupMethod_eq]
              exact (graph.lookup_method owner' name).symm.trans hnew
            rw [if_pos howner, howner, if_pos rfl]
            exact OrderedMap.toList_upsert_of_not_mem hname _
          · rw [if_neg howner, if_neg fun h => howner (Option.some.inj h).symm]
            exact (List.append_nil _).symm

theorem listing_declareClass (graph : Graph) (name : String) (owner : Option String) :
    (graph.declareClass name).listing owner = graph.listing owner := by
  cases owner with
  | none => rfl
  | some owner => rw [listing, listing, methodsOf_eq, methodsOf_eq, methodMap_declareClass]

/-! #### Declarations -/

theorem paths_declare (hgraph : graph.Indexed) (path : Path) (type : Ty) :
    (graph.declare path type).2.paths = enlist graph.paths (some path) := by
  rw [enlist]
  unfold Graph.declare
  cases hlookup : graph.lookup path with
  | some id =>
      rw [if_pos (mem_paths.mpr ⟨id, (hgraph path id).mp hlookup⟩)]
      exact paths_of_sameSymbols (.set graph id type)
  | none =>
      have hpath : path ∉ graph.paths := by
        intro hmem
        obtain ⟨id, hid⟩ := mem_paths.mp hmem
        rw [(hgraph path id).mpr hid] at hlookup
        cases hlookup
      rw [if_neg hpath]
      exact paths_append graph path type

theorem classNames_append (graph : Graph) (path : Path) (type : Ty) :
    (graph.append path type).classNames = enlist graph.classNames path.owner := by
  obtain ⟨owner, name⟩ := path
  cases owner with
  | none => rfl
  | some owner => exact OrderedMap.keys_upsert _ _ _

theorem classNames_declare (graph : Graph) (path : Path) (type : Ty) :
    (graph.declare path type).2.classNames = enlist graph.classNames path.owner := by
  unfold Graph.declare
  cases hlookup : graph.lookup path with
  | none => exact classNames_append graph path type
  | some id =>
      refine (classNames_of_sameSymbols (.set graph id type)).trans ?_
      obtain ⟨owner, name⟩ := path
      cases owner with
      | none => rfl
      | some owner =>
          exact (if_pos (mem_classNames_of_lookupMethod ((graph.lookup_method owner name).symm.trans hlookup))).symm

theorem classNames_declareClass (graph : Graph) (name : String) :
    (graph.declareClass name).classNames = enlist graph.classNames (some name) :=
  OrderedMap.keys_upsert _ _ _

/-! ### One change -/

/-- What the index lists is what the table of the symbols has. -/
def Listed (graph : Graph) : Prop := ∀ owner, graph.listing owner = graph.owned owner

theorem Listed.of_sameSymbols (hgraph : graph.Listed) (hsame : graph.SameSymbols later) : later.Listed := by
  intro owner
  rw [listing_of_sameSymbols hsame, owned_of_sameSymbols hsame]
  exact hgraph owner

theorem Listed.declare (hgraph : graph.Listed) (path : Path) (type : Ty) :
    (graph.declare path type).2.Listed := by
  unfold Graph.declare
  cases hlookup : graph.lookup path with
  | some id => exact hgraph.of_sameSymbols (.set graph id type)
  | none =>
      intro owner
      rw [listing_append hlookup, owned_append, hgraph owner]

theorem Listed.declareClass (hgraph : graph.Listed) (name : String) : (graph.declareClass name).Listed := by
  intro owner
  rw [listing_declareClass]
  exact hgraph owner

theorem Listed.empty : Graph.empty.Listed := by
  intro owner
  cases owner <;> rfl

theorem Built.listed (hgraph : graph.Built) : graph.Listed := by
  induction hgraph with
  | empty => exact .empty
  | declareClass name _ ih => exact ih.declareClass name
  | declare path type _ ih => exact ih.declare path type
  | set id type _ ih => exact ih.of_sameSymbols (.set _ id type)

/-- The graph is in agreement with itself and with the changes that led to it. -/
structure Coherent (changes : List Change) (graph : Graph) : Prop where
  indexed : graph.Indexed
  listed : graph.Listed
  paths : graph.paths = (changes.filterMap Change.path?).eraseDups
  classes : graph.classNames = (changes.filterMap Change.mention?).eraseDups
  types : ∀ path, graph.typeOf? path = (changes.filterMap (Change.write? graph)).reverse.lookup path
  allocated : ∀ id type, Change.set id type ∈ changes → id < graph.size

/-- Symbols keep their numbers and paths. -/
structure Extends (before after : Graph) : Prop where
  size : before.size ≤ after.size
  path : ∀ id < before.size, after.path? id = before.path? id

theorem SameSymbols.extends (hsame : graph.SameSymbols later) : graph.Extends later :=
  ⟨Nat.le_of_eq hsame.size.symm, fun id _ => hsame.path id⟩

theorem extends_append (graph : Graph) (path : Path) (type : Ty) :
    graph.Extends (graph.append path type) := by
  constructor
  · rw [size_append]
    exact Nat.le_succ _
  · intro id hid
    rw [path?_append, if_neg (Nat.ne_of_lt hid)]

theorem extends_declare (graph : Graph) (path : Path) (type : Ty) :
    graph.Extends (graph.declare path type).2 := by
  unfold Graph.declare
  cases graph.lookup path with
  | some id => exact (SameSymbols.set graph id type).extends
  | none => exact extends_append graph path type

theorem extends_declareClass (graph : Graph) (name : String) : graph.Extends (graph.declareClass name) :=
  ⟨Nat.le_refl _, fun _ _ => rfl⟩

namespace Coherent

variable {changes : List Change} {change : Change}

theorem empty : Coherent [] Graph.empty where
  indexed := .empty
  listed := .empty
  paths := rfl
  classes := rfl
  types path := typeOf?_empty path
  allocated := nofun

theorem allocated_step (hgraph : Coherent changes graph) (hextends : graph.Extends later)
    (hchange : ∀ id type, change = .set id type → id < graph.size) :
    ∀ id type, .set id type ∈ changes ++ [change] → id < later.size := by
  intro id type hmem
  apply Nat.lt_of_lt_of_le _ hextends.size
  rcases List.mem_append.mp hmem with hmem | hmem
  · exact hgraph.allocated id type hmem
  · exact hchange id type (List.mem_singleton.mp hmem).symm

/-- A change that writes no type leaves the types as they were, any other one writes one of them. -/
theorem types_step (hgraph : Coherent changes graph) (hextends : graph.Extends later)
    (htypes : ∀ path, later.typeOf? path =
      ((change.write? later).toList.lookup path).or (graph.typeOf? path)) (path : Path) :
    later.typeOf? path = ((changes ++ [change]).filterMap (Change.write? later)).reverse.lookup path := by
  -- The symbols that were set before have the paths they had then.
  have hwrites : changes.filterMap (Change.write? later) = changes.filterMap (Change.write? graph) := by
    apply List.filterMap_congr
    intro change hchange
    cases change with
    | declare _ _ | declareFunction _ _ | declareMethod _ _ _ | declareClass _ => rfl
    | set id type =>
        rw [Change.write?, Change.write?, hextends.path id (hgraph.allocated id type hchange)]
  have hlast : ([change].filterMap (Change.write? later)).reverse = (change.write? later).toList := by
    cases hwrite : change.write? later <;> simp [hwrite]
  rw [htypes, hgraph.types, List.filterMap_append, hwrites, List.reverse_append, hlast, List.lookup_append]

theorem declare (hgraph : Coherent changes graph) {path : Path} {type : Ty}
    (hpath : change.path? = some path) (hmention : change.mention? = path.owner)
    (hwrite : ∀ any, change.write? any = some (path, type)) :
    Coherent (changes ++ [change]) (graph.declare path type).2 where
  indexed := hgraph.indexed.declare path type
  listed := hgraph.listed.declare path type
  paths := by rw [paths_declare hgraph.indexed, hgraph.paths, eraseDups_filterMap_append, hpath]
  classes := by rw [classNames_declare, hgraph.classes, eraseDups_filterMap_append, hmention]
  types := by
    apply hgraph.types_step (extends_declare graph path type)
    intro other
    rw [hgraph.indexed.typeOf?_declare, hwrite]
    by_cases hother : other = path
    · simp [hother]
    · simp [hother, List.lookup_cons, beq_eq_false_iff_ne.mpr hother]
  allocated := by
    apply hgraph.allocated_step (extends_declare graph path type)
    rintro id type rfl
    cases hpath

theorem declareClass (hgraph : Coherent changes graph) (name : String) :
    Coherent (changes ++ [.declareClass name]) (graph.declareClass name) where
  indexed := hgraph.indexed.declareClass name
  listed := hgraph.listed.declareClass name
  paths := by
    rw [eraseDups_filterMap_append, ← hgraph.paths]
    rfl
  classes := by
    rw [classNames_declareClass, hgraph.classes, eraseDups_filterMap_append]
    rfl
  types := by
    apply hgraph.types_step (extends_declareClass graph name)
    exact typeOf?_declareClass graph name
  allocated := hgraph.allocated_step (extends_declareClass graph name) nofun

theorem set (hgraph : Coherent changes graph) (hid : id < graph.size) (type : Ty) :
    Coherent (changes ++ [.set id type]) (graph.set id type) where
  indexed := hgraph.indexed.of_sameSymbols (.set graph id type)
  listed := hgraph.listed.of_sameSymbols (.set graph id type)
  paths := by
    rw [paths_of_sameSymbols (.set graph id type), hgraph.paths, eraseDups_filterMap_append]
    rfl
  classes := by
    rw [classNames_of_sameSymbols (.set graph id type), hgraph.classes, eraseDups_filterMap_append]
    rfl
  types := by
    obtain ⟨stored, hget⟩ := exists_get? hid
    obtain ⟨path, hpath⟩ := exists_path hget
    apply hgraph.types_step (SameSymbols.set graph id type).extends
    intro other
    rw [hgraph.indexed.typeOf?_set hpath, Change.write?, (SameSymbols.set graph id type).path, hpath]
    by_cases hother : other = path
    · simp [hother]
    · simp [hother, List.lookup_cons, beq_eq_false_iff_ne.mpr hother]
  allocated := by
    apply hgraph.allocated_step (SameSymbols.set graph id type).extends
    rintro other stored heq
    rw [← (Change.set.inj heq).1]
    exact hid

/-- A change that can be made keeps the agreement. -/
theorem step (hgraph : Coherent changes graph) (happly : change.apply graph = some later) :
    Coherent (changes ++ [change]) later := by
  obtain ⟨path, type, rfl, hpath, hmention, hwrite⟩ | ⟨name, rfl, rfl⟩ | ⟨id, type, rfl, hid, rfl⟩ :=
    Change.apply_cases happly
  · exact hgraph.declare hpath hmention hwrite
  · exact hgraph.declareClass name
  · exact hgraph.set hid type

theorem of_after? (hgraph : after? changes = some graph) : Coherent changes graph := by
  induction changes using List.reverseRecOn generalizing graph with
  | nil =>
      obtain rfl := Option.some.inj hgraph
      exact .empty
  | append_singleton changes change ih =>
      obtain ⟨before, hbefore, happly⟩ := after?_append_singleton hgraph
      exact (ih hbefore).step happly

end Coherent

/-- **The index of a graph is coherent.** After any changes that can be made from the graph without
symbols: the path of each symbol leads to it, and a path leads to a symbol of the graph with this path
only, so that no two symbols share a path; functions and methods are found by their names as they are by
their paths; the map of the paths holds exactly the paths of the symbols, the functions are exactly the
symbols without an owner, the methods of a class exactly those that it owns, the last two in the order of
their numbers; symbols are numbered by their first declaration; the classes are listed once each, in the
order of their first mention, the owners of all methods among them; and the type of a path is the one that
was written last. The number of the symbols is not bounded. -/
theorem index_coherent {changes : List Change} {graph : Graph} (hgraph : after? changes = some graph) :
    (∀ id < graph.size, ∃ path, graph.path? id = some path ∧ graph.lookup path = some id) ∧
    (∀ path id, graph.lookup path = some id → id < graph.size ∧ graph.path? id = some path) ∧
    (∀ left right path, graph.path? left = some path → graph.path? right = some path → left = right) ∧
    (∀ name, graph.lookupFunction name = graph.lookup (.function name)) ∧
    (∀ owner name, graph.lookupMethod owner name = graph.lookup (.method owner name)) ∧
    (∀ path id, (path, id) ∈ graph.byPath.toList ↔ graph.path? id = some path) ∧
    ((∀ name id, (name, id) ∈ graph.functions.toList ↔ graph.path? id = some (.function name)) ∧
      (graph.functions.toList.map Prod.snd).Pairwise (· < ·)) ∧
    (∀ owner,
      (∀ name id, (name, id) ∈ graph.methodsOf owner ↔ graph.path? id = some (.method owner name)) ∧
      ((graph.methodsOf owner).map Prod.snd).Pairwise (· < ·)) ∧
    (∀ path, graph.lookup path = (changes.filterMap Change.path?).eraseDups.idxOf? path) ∧
    (graph.classNames = (changes.filterMap Change.mention?).eraseDups ∧ graph.classNames.Nodup ∧
      ∀ id owner name, graph.path? id = some (.method owner name) → owner ∈ graph.classNames) ∧
    ∀ path, (graph.lookup path).bind graph.get? =
      (changes.filterMap (Change.write? graph)).reverse.lookup path := by
  obtain ⟨hindexed, hlisted, hpaths, hclasses, htypes, -⟩ := Coherent.of_after? hgraph
  have hfunctions : graph.functions.toList = graph.owned none := hlisted none
  have hmethods : ∀ owner, graph.methodsOf owner = graph.owned (some owner) := fun owner =>
    hlisted (some owner)
  refine ⟨?_, ?_, ?_, ?_, ?_, ?_, ?_, ?_, ?_, ⟨hclasses, ?_, ?_⟩, htypes⟩
  · intro id hid
    obtain ⟨type, hget⟩ := exists_get? hid
    obtain ⟨path, hpath⟩ := exists_path hget
    exact ⟨path, hpath, (hindexed path id).mpr hpath⟩
  · intro path id hlookup
    exact ⟨hindexed.lt_size hlookup, (hindexed path id).mp hlookup⟩
  · intro left right path hleft hright
    have hsame := ((hindexed path left).mpr hleft).symm.trans ((hindexed path right).mpr hright)
    exact Option.some.inj hsame
  · intro name
    exact (graph.lookup_function name).symm
  · intro owner name
    exact (graph.lookup_method owner name).symm
  · intro path id
    exact OrderedMap.mem_toList_iff.trans (hindexed path id)
  · rw [hfunctions]
    exact ⟨fun name id => mem_owned, pairwise_owned graph none⟩
  · intro owner
    rw [hmethods]
    exact ⟨fun name id => mem_owned, pairwise_owned graph (some owner)⟩
  · rw [← hpaths]
    exact hindexed.lookup_eq_idxOf?
  · exact graph.classes.nodup_keys
  · intro id owner name hpath
    have hlookup := (hindexed (.method owner name) id).mpr hpath
    rw [lookup_method] at hlookup
    exact mem_classNames_of_lookupMethod hlookup

/-- A function and a method share a name, the method of a class without a name comes before its class, and
both the function and the method are written twice. -/
theorem index_coherent_redeclared :
    let changes : List Change :=
      [.declareClass "Store", .declareFunction "get" (.call (.function "get")),
        .declareMethod "" "get" (.object "Store"), .declareClass "",
        .declareMethod "Store" "get" (.union []), .declare (.function "get") (.literal .null),
        .set 1 .unknown]
    ∃ graph, after? changes = some graph ∧
      graph.lookup (.function "get") = some 0 ∧ graph.lookup (.method "Store" "get") = some 2 ∧
      graph.lookupMethod "Store" "get" = some 2 ∧ (Path.method "" "get", 1) ∈ graph.byPath.toList ∧
      graph.classNames = ["Store", ""] ∧
      ((graph.methodsOf "").map Prod.snd).Pairwise (· < ·) ∧
      (graph.lookup (.function "get")).bind graph.get? = some (.literal .null) ∧
      (graph.lookup (.method "" "get")).bind graph.get? = some .unknown := by
  intro changes
  have hmade : (after? changes).isSome = true := by decide +kernel
  obtain ⟨graph, hgraph⟩ := Option.isSome_iff_exists.mp hmade
  have hpath : graph.path? 1 = some (.method "" "get") := by
    have h : (after? changes).bind (·.path? 1) = some (.method "" "get") := by decide +kernel
    rwa [hgraph] at h
  obtain ⟨-, -, -, -, hmethod, hpaths, -, hmethods, hplace, ⟨hclasses, -, -⟩, htype⟩ := index_coherent hgraph
  have hwrites : changes.filterMap (Change.write? graph) =
      [(.function "get", .call (.function "get")), (.method "" "get", .object "Store"),
        (.method "Store" "get", .union []), (.function "get", .literal .null),
        (.method "" "get", .unknown)] := by
    simp [changes, List.filterMap_cons, Change.write?, hpath]
  refine ⟨graph, hgraph, ?_, ?_, ?_, (hpaths _ 1).mpr hpath, ?_, (hmethods "").2, ?_, ?_⟩
  · rw [hplace]
    decide +kernel
  · rw [hplace]
    decide +kernel
  · rw [hmethod, hplace]
    decide +kernel
  · rw [hclasses]
    decide +kernel
  · rw [htype, hwrites]
    decide +kernel
  · rw [htype, hwrites]
    decide +kernel

end Graph

end DeferredTypes
