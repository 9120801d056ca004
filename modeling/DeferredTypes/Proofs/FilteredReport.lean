import DeferredTypes.Proofs.Layers
import DeferredTypes.Proofs.Replay
import DeferredTypes.Proofs.Report

/-! What a selection of symbols shows of the types that are printed when all symbols are. The type of a
symbol in a cycle of several symbols depends on where the cycle was entered first, so a selection that
enters it elsewhere may print another type. Nothing else shows: a symbol is printed as it would be by
itself, unless a symbol of such a cycle that it needs was made final before. -/

namespace DeferredTypes

/-- What resolutions make of a graph, in so far as it does not depend on their order. -/
structure Graph.Becomes (graph later : Graph) : Prop where
  keeps : graph.Keeps later
  precedes : graph.Precedes later
  filled : graph.FilledOn {id | graph.Layered id} later

theorem Graph.Becomes.refl (graph : Graph) : graph.Becomes graph := ⟨.refl graph, .refl graph, .refl graph _⟩

theorem Program.Asks.becomes {graph : Graph} {program after : Program} {path : Path} {type : Ty}
    (hasks : program.Asks path (.ok type) after) (hbecomes : graph.Becomes program.graph) :
    graph.Becomes after.graph := by
  cases hasks with
  | undeclared => exact hbecomes
  | resolved _ run =>
      exact ⟨run.keeps hbecomes.keeps (fun _ hopen => by cases hopen), run.precedes hbecomes.precedes,
        run.filledOn (fun _ hopen => by cases hopen) hbecomes.precedes hbecomes.filled⟩

namespace CommandLine

variable {graph : Graph} {program after : Program} {path : Path} {paths done rest : List Path}
  {entries : List Entry} {id : SymbolId}

/-- A report without errors changes the graph in a way that does not depend on its order. -/
theorem becomes_of_resolveEntries (hgraph : program.graph.Indexed)
    (hbecomes : graph.Becomes program.graph)
    (hreport : outcome (resolveEntries paths) program = (.ok entries, after)) :
    graph.Becomes after.graph := by
  induction paths generalizing program entries with
  | nil =>
      cases hreport
      exact hbecomes
  | cons path rest ih =>
      obtain ⟨type, middle, more, hasks, hrest, -⟩ := resolveEntries_cons_ok hgraph hreport
      exact ih (hgraph.of_sameSymbols hasks.continues.sameSymbols) (hasks.becomes hbecomes) hrest

/-- The entries of some symbols are those of the first ones and then those of the others. -/
theorem resolveEntries_append (done rest : List Path) :
    resolveEntries (done ++ rest) = do
      let firsts ← resolveEntries done
      let others ← resolveEntries rest
      return firsts ++ others := by
  induction done with
  | nil => simp [resolveEntries]
  | cons path done ih => simp [resolveEntries, ih]

/-- A report without errors can be made in two parts. -/
theorem resolveEntries_append_ok
    (hreport : outcome (resolveEntries (done ++ rest)) program = (.ok entries, after)) :
    ∃ firsts middle others, outcome (resolveEntries done) program = (.ok firsts, middle) ∧
      outcome (resolveEntries rest) middle = (.ok others, after) ∧ entries = firsts ++ others := by
  rw [resolveEntries_append] at hreport
  rcases hdone : outcome (resolveEntries done) program with ⟨failure | firsts, middle⟩
  · rw [outcome_bind_of_error hdone] at hreport
    cases hreport
  · rw [outcome_bind_of_ok hdone] at hreport
    rcases hrest : outcome (resolveEntries rest) middle with ⟨failure | others, last⟩
    · rw [outcome_bind_of_error hrest] at hreport
      cases hreport
    · rw [outcome_bind_of_ok hrest] at hreport
      cases hreport
      exact ⟨firsts, middle, others, rfl, hrest, rfl⟩

/-- The graph when a report, made without a budget, comes to a path for the first time. -/
def reached (graph : Graph) (paths : List Path) (path : Path) : Graph :=
  (outcome (resolveEntries (paths.takeWhile (· ≠ path))) (.start graph .unbounded)).2.graph

/-- When a report comes to a symbol for the first time, it resolves the symbol over the graph reached by
then. -/
theorem exists_run_of_report (hgraph : graph.Indexed)
    (hreport : outcome (resolveEntries paths) (.start graph .unbounded) = (.ok entries, after))
    (hpath : path ∈ paths) (hlookup : graph.lookup path = some id) :
    graph.Becomes (reached graph paths path) ∧
      ∃ type events last, ⟨path, type.display⟩ ∈ entries ∧ (Task.symbol id).Runs
        (.start (reached graph paths path) Profile.unbounded.limits) (.ok type) events last := by
  obtain ⟨rest, hpaths⟩ := exists_eq_takeWhile_append hpath
  rw [hpaths] at hreport
  obtain ⟨firsts, middle, others, hfirsts, hothers, rfl⟩ := resolveEntries_append_ok hreport
  obtain ⟨hcontinues, -, -⟩ := holds_of_resolveEntries hgraph hfirsts
  obtain ⟨type, next, more, hasks, -, rfl⟩ :=
    resolveEntries_cons_ok (hgraph.of_sameSymbols hcontinues.sameSymbols) hothers
  have hlookup' : middle.graph.lookup path = some id :=
    (hcontinues.sameSymbols.lookup_eq path).trans hlookup
  rw [reached, hfirsts]
  refine ⟨becomes_of_resolveEntries hgraph (.refl graph) hfirsts, ?_⟩
  cases hasks with
  | undeclared hnone => cases hlookup'.symm.trans hnone
  | resolved hfound run =>
      obtain rfl := Option.some.inj (hlookup'.symm.trans hfound)
      rw [hcontinues.profile] at run
      exact ⟨type, _, _, List.mem_append_right _ List.mem_cons_self, run⟩

theorem not_aborted_alone (hroom : graph.size ≤ maxCount) (id : SymbolId) :
    ¬Aborted (graph.alone id).1 := by
  obtain ⟨_, _, _, run⟩ := (Task.symbol id).exists_run (.start graph Profile.unbounded.limits)
  rw [(Graph.alone_eq run).1]
  exact run.not_aborted (.start hroom)

/-- A layered symbol that is printed is untangled. -/
theorem untangled_of_layered (hgraph : graph.Indexed) (hroom : graph.size ≤ maxCount)
    (hreport : outcome (resolveEntries paths) (.start graph .unbounded) = (.ok entries, after))
    (hpath : path ∈ paths) (hlookup : graph.lookup path = some id) (hlayered : graph.Layered id) :
    graph.Untangled id := by
  obtain ⟨hbecomes, type, events, last, -, run⟩ := exists_run_of_report hgraph hreport hpath hlookup
  obtain ⟨hyields, -⟩ := run.yields_of_layered hlayered List.not_mem_nil
    (fun _ hopen => by cases hopen) hbecomes.precedes hbecomes.filled
  exact hlayered.untangled hyields (not_aborted_alone hroom id)

/-- An untangled symbol is printed as it would be by itself, and so is any other one that is spared by the
symbols before it. -/
theorem mem_of_spares (hgraph : graph.Indexed) (hroom : graph.size ≤ maxCount)
    (hreport : outcome (resolveEntries paths) (.start graph .unbounded) = (.ok entries, after))
    (hpath : path ∈ paths) (hlookup : graph.lookup path = some id)
    (hfree : graph.Untangled id ∨ graph.Spares (reached graph paths path) id) :
    ∃ type, (graph.alone id).1 = .ok type ∧ ⟨path, type.display⟩ ∈ entries := by
  obtain ⟨hbecomes, type, events, last, hmem, run⟩ := exists_run_of_report hgraph hreport hpath hlookup
  exact ⟨type, Graph.alone_of_run hbecomes.keeps hfree (not_aborted_alone hroom id) run, hmem⟩

theorem exists_outcome_resolveEntries {dump : Dump} {arguments : Arguments} {profile : Profile}
    (hreport : (outcome (resolveSelected arguments) (.start dump.toGraph profile)).1 = .ok entries) :
    ∃ after, outcome (resolveEntries (dump.selection arguments)) (.start dump.toGraph profile) =
      (.ok entries, after) := by
  rw [outcome_resolveSelected] at hreport
  exact ⟨_, Prod.ext hreport rfl⟩

/-- **What a selection shows.** Take a dump of no more symbols than a count can hold, and let the report of
the selected symbols and the report of all symbols both be made without a budget and end well. A selected
symbol of the dump has the same entry in both if it is layered: it leads to no two symbols that depend on
each other. More generally it has the same entry if it is untangled, that is, if its resolution by itself
leaves no type provisional; and also if both reports spare it: of the symbols that its resolution by itself
walks, only untangled ones are final when the report comes to it. -/
theorem resolveSelected_filtered {dump : Dump} {arguments : Arguments} {entries all : List Entry}
    {entry : Entry} {id : SymbolId} (hroom : dump.symbols.length ≤ maxCount)
    (hselected : (outcome (resolveSelected arguments) (.start dump.toGraph .unbounded)).1 = .ok entries)
    (hall : (outcome (resolveSelected { arguments with functions := [], classes := [] })
      (.start dump.toGraph .unbounded)).1 = .ok all)
    (hentry : entry ∈ entries) (hdeclared : dump.toGraph.lookup entry.path = some id)
    (hfree : dump.toGraph.Layered id ∨ dump.toGraph.Untangled id ∨
      dump.toGraph.Spares (reached dump.toGraph (dump.selection arguments) entry.path) id ∧
      dump.toGraph.Spares (reached dump.toGraph dump.symbols entry.path) id) :
    entry ∈ all := by
  have hgraph := dump.indexed_toGraph
  have hsize : dump.toGraph.size ≤ maxCount := by
    rw [← dump.paths_toGraph, Graph.paths, List.length_map] at hroom
    exact hroom
  obtain ⟨after, hselected⟩ := exists_outcome_resolveEntries hselected
  obtain ⟨last, hall⟩ := exists_outcome_resolveEntries hall
  obtain ⟨-, hpaths, hholds⟩ := holds_of_resolveEntries hgraph hselected
  have hpath : entry.path ∈ dump.selection arguments := hpaths ▸ List.mem_map_of_mem hentry
  have hsymbol : entry.path ∈ dump.symbols := by
    rw [← dump.paths_toGraph]
    exact hgraph.mem_paths_iff.mpr ⟨id, hdeclared⟩
  replace hfree := hfree.elim
    (fun hlayered => Or.inl (untangled_of_layered hgraph hsize hall hsymbol hdeclared hlayered))
    fun hfree => hfree
  obtain ⟨type, halone, hmem⟩ :=
    mem_of_spares hgraph hsize hselected hpath hdeclared (hfree.imp_right And.left)
  obtain ⟨type', halone', hmem'⟩ :=
    mem_of_spares hgraph hsize hall hsymbol hdeclared (hfree.imp_right And.right)
  obtain rfl := Except.ok.inj (halone.symm.trans halone')
  have hrendered : entry.rendered = type.display := (hholds entry hentry).rendered_eq (hholds _ hmem) rfl
  rw [← hrendered] at hmem'
  exact hmem'

/-- Two functions that call each other, the first of which also calls one that calls itself. The first is
selected after the third: this one is untangled, and the cycle is entered at the same function as when all
are printed. -/
theorem resolveSelected_filtered_cycle :
    let dump := ((Dump.empty.addFunction "count"
      (.returning (.union [.call (.function "count"), .literal (.int 0)]))).addFunction "even"
      (.returning (.union [.call (.function "odd"), .call (.function "count")]))).addFunction "odd"
      (.returning (.union [.call (.function "even"), .literal (.int 1)]))
    let arguments : Arguments := ⟨"dump.json", ["count", "even"], [], none, none, .text⟩
    let entry : Entry := ⟨.function "even", "(): unknown|unknown|int(1)|int(0)"⟩
    ∃ entries all,
      (outcome (resolveSelected arguments) (.start dump.toGraph .unbounded)).1 = .ok entries ∧
      (outcome (resolveSelected { arguments with functions := [], classes := [] })
        (.start dump.toGraph .unbounded)).1 = .ok all ∧
      entry ∈ entries ∧ ¬dump.toGraph.Untangled 1 ∧ entry ∈ all := by
  intro dump arguments entry
  let entries : List Entry := [⟨.function "count", "(): unknown|int(0)"⟩, entry]
  have hselected : (outcome (resolveSelected arguments) (.start dump.toGraph .unbounded)).1 =
      .ok entries := by decide +kernel
  have hall : (outcome (resolveSelected { arguments with functions := [], classes := [] })
      (.start dump.toGraph .unbounded)).1 =
        .ok (entries ++ [⟨.function "odd", "(): unknown|unknown|int(1)|int(0)"⟩]) := by decide +kernel
  have hcount : dump.toGraph.Untangled 0 := by
    have hjournal : (dump.toGraph.alone 0).2.journal =
        [.stored 0, .left 0, .cut 0 0, .walked 0 0] := by decide +kernel
    refine ⟨⟨.returning (.union [.unknown, .literal (.int 0)]), by decide +kernel⟩, ?_⟩
    simp [hjournal]
  have hjournal : (dump.toGraph.alone 1).2.journal =
      [.stored 1, .left 1, .stored 0, .left 0, .cut 0 1, .walked 0 1, .provisional 2, .left 2, .cut 1 0,
        .walked 2 1, .walked 1 0] := by decide +kernel
  have htangled : ¬dump.toGraph.Untangled 1 := by
    rintro ⟨-, hkept⟩
    apply hkept 2
    simp [hjournal]
  have hspares : ∀ later : Graph, later.get? 1 = dump.toGraph.get? 1 →
      later.get? 2 = dump.toGraph.get? 2 → dump.toGraph.Spares later 1 := by
    intro later hone htwo other position hwalked
    rw [hjournal] at hwalked
    simp only [List.mem_cons, Event.walked.injEq, reduceCtorEq, false_or, or_false,
      List.not_mem_nil] at hwalked
    rcases hwalked with ⟨rfl, -⟩ | ⟨rfl, -⟩ | ⟨rfl, -⟩
    · exact Or.inl hcount
    · exact Or.inr htwo
    · exact Or.inr hone
  refine ⟨entries, _, hselected, hall, List.mem_cons_of_mem _ List.mem_cons_self, htangled, ?_⟩
  exact resolveSelected_filtered (by decide +kernel) hselected hall
    (List.mem_cons_of_mem _ List.mem_cons_self) (by decide +kernel : _ = some 1)
    (Or.inr (Or.inr ⟨hspares _ (by decide +kernel) (by decide +kernel),
      hspares _ (by decide +kernel) (by decide +kernel)⟩))

/-- Two functions that call each other. The second, selected alone, is where the cycle is entered; when all
are printed, the first is, and the second has another type. -/
theorem resolveSelected_filtered_entered_elsewhere :
    let dump := (Dump.empty.addFunction "a"
      (.returning (.union [.call (.function "b"), .literal (.int 1)]))).addFunction "b"
      (.returning (.union [.call (.function "a"), .literal (.int 2)]))
    let arguments : Arguments := ⟨"dump.json", ["b"], [], none, none, .text⟩
    (outcome (resolveSelected arguments) (.start dump.toGraph .unbounded)).1 =
      .ok [⟨.function "b", "(): unknown|int(1)|int(2)"⟩] ∧
    (outcome (resolveSelected { arguments with functions := [], classes := [] })
      (.start dump.toGraph .unbounded)).1 =
      .ok [⟨.function "a", "(): unknown|int(2)|int(1)"⟩, ⟨.function "b", "(): unknown|int(2)|int(1)"⟩] := by
  decide +kernel

end CommandLine

end DeferredTypes
