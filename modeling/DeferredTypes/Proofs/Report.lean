import DeferredTypes.Proofs.DumpGraph
import DeferredTypes.Proofs.FinalAnswers

/-! What is printed about the symbols of a dump. Each selected symbol is resolved by a question of its own,
one after the other over the same graph. A final type stays as it is, so the entry of a symbol holds still
when all questions have been asked, and a type that was handed out has a canonical text. -/

namespace DeferredTypes

/-! ### Questions -/

namespace Program

variable {program : Program}

/-- The program after a resolution that left this graph and added these events. -/
def advance (program : Program) (graph : Graph) (events : List Event) : Program :=
  { program with graph, stats := program.stats.merge (Stats.ofJournal events) }

theorem outcome_withResolver {α : Type} {requests : Resolving α} {result : Except Halt α}
    {resolver : Resolver}
    (hrequests : outcome requests (.start program.graph program.profile) = (result, resolver))
    (hresult : ¬Faulty result) :
    outcome (withResolver requests) program =
      (result, { program with graph := resolver.graph, stats := program.stats.merge resolver.stats }) := by
  rw [outcome] at hrequests
  rw [withResolver, outcome_get_bind, hrequests]
  rcases result with (error | fault) | value
  · rfl
  · exact absurd trivial hresult
  · rfl

theorem outcome_tryResolve {id : SymbolId} {result : Except Halt Ty} {events : List Event} {after : Pass}
    (run : (Task.symbol id).Runs (.start program.graph program.profile.limits) result events after)
    (hresult : ¬Faulty result) :
    outcome (tryResolve id) program = (result, program.advance after.graph events) := by
  have hrequest : outcome (Resolver.tryResolve id) (.start program.graph program.profile) = _ :=
    Resolver.outcome_tryResolve run
  rw [tryResolve, outcome_withResolver hrequest hresult]
  have hstats : (Resolver.start program.graph program.profile).stats.merge (Stats.ofJournal events) =
      Stats.ofJournal events := Stats.zero_merge _
  rw [Resolver.advance, hstats]
  rfl

/-- What a question about a path can come to: nobody declared the path, or its symbol is resolved. -/
inductive Asks (program : Program) (path : Path) : Except Halt Ty → Program → Prop
  | undeclared (hlookup : program.graph.lookup path = none) : Asks program path (.ok .unknown) program
  | resolved {id result events after} (hlookup : program.graph.lookup path = some id)
      (run : (Task.symbol id).Runs (.start program.graph program.profile.limits) result events after)
      (hresult : ¬Faulty result) : Asks program path result (program.advance after.graph events)

/-- The budget stays, and symbols become final. -/
structure Continues (before after : Program) : Prop where
  profile : after.profile = before.profile
  writes : ∃ writes, before.graph.Finalization writes after.graph

namespace Continues

variable {first second third : Program}

theorem refl (program : Program) : program.Continues program := ⟨rfl, [], .none⟩

theorem trans (left : first.Continues second) (right : second.Continues third) : first.Continues third := by
  obtain ⟨writes, hwrites⟩ := left.writes
  obtain ⟨more, hmore⟩ := right.writes
  exact ⟨right.profile.trans left.profile, writes ++ more, hwrites.append hmore⟩

theorem sameSymbols (hcontinues : first.Continues second) : first.graph.SameSymbols second.graph := by
  obtain ⟨_, hwrites⟩ := hcontinues.writes
  exact hwrites.sameSymbols

end Continues

theorem Asks.continues {path : Path} {result : Except Halt Ty} {after : Program}
    (hasks : program.Asks path result after) : program.Continues after := by
  cases hasks with
  | undeclared => exact .refl program
  | resolved _ run =>
      obtain ⟨writes, hwrites, -⟩ := run.finalization trivial
      exact ⟨rfl, writes, hwrites⟩

theorem Asks.final {path : Path} {type : Ty} {after : Program}
    (hasks : program.Asks path (.ok type) after) : type.Final := by
  cases hasks with
  | undeclared => rfl
  | resolved _ run => exact run.final trivial rfl

end Program

namespace CommandLine

variable {program middle after : Program} {path : Path} {id : SymbolId}

theorem outcome_finalType_of_none (hlookup : program.graph.lookup path = none) :
    outcome (finalType path) program = (.ok .unknown, program) := by
  rw [finalType, outcome_get_bind, hlookup]
  rfl

theorem outcome_finalType_of_some (hlookup : program.graph.lookup path = some id) :
    outcome (finalType path) program = outcome (Program.tryResolve id) program := by
  rw [finalType, outcome_get_bind, hlookup]

/-- Over an exact index a question comes to one of these two, without a fault. -/
theorem asks_of_finalType {result : Except Halt Ty} (hgraph : program.graph.Indexed)
    (houtcome : outcome (finalType path) program = (result, after)) : program.Asks path result after := by
  cases hlookup : program.graph.lookup path with
  | none =>
      rw [outcome_finalType_of_none hlookup] at houtcome
      cases houtcome
      exact .undeclared hlookup
  | some id =>
      obtain ⟨found, events, last, run⟩ :=
        (Task.symbol id).exists_run (.start program.graph program.profile.limits)
      have hfound : ¬Faulty found := run.not_faulty hgraph (hgraph.lt_size hlookup)
      rw [outcome_finalType_of_some hlookup, Program.outcome_tryResolve run hfound] at houtcome
      cases houtcome
      exact .resolved hlookup run hfound

/-! ### One entry -/

/-- The entry of a symbol is the text of the final type that the graph holds for it; nobody knows the type
of a symbol that was not declared. -/
def Entry.Holds (entry : Entry) (graph : Graph) : Prop :=
  (graph.lookup entry.path = none ∧ entry.rendered = "unknown") ∨
    ∃ type, graph.typeOf? entry.path = some type ∧ type.Final ∧ entry.rendered = type.display

namespace Entry.Holds

variable {entry left right : Entry} {graph : Graph}

/-- An entry that holds goes on to hold, since final types stay. -/
theorem later (hentry : entry.Holds program.graph) (hcontinues : program.Continues after) :
    entry.Holds after.graph := by
  obtain ⟨writes, hwrites⟩ := hcontinues.writes
  have hlookup := hwrites.sameSymbols.lookup_eq entry.path
  obtain ⟨hnone, hunknown⟩ | ⟨type, htype, hfinal, hrendered⟩ := hentry
  · exact Or.inl ⟨hlookup.trans hnone, hunknown⟩
  · obtain ⟨id, hid, hget⟩ := Option.bind_eq_some_iff.mp htype
    refine Or.inr ⟨type, ?_, hfinal, hrendered⟩
    rw [Graph.typeOf?_of_lookup (hlookup.trans hid)]
    exact hwrites.get?_of_final hget hfinal

theorem of_asks {type : Ty} (hasks : program.Asks path (.ok type) after) :
    Entry.Holds ⟨path, type.display⟩ after.graph := by
  have hcontinues := hasks.continues
  have hfinal := hasks.final
  cases hasks with
  | undeclared hlookup => exact Or.inl ⟨hlookup, rfl⟩
  | resolved hlookup run =>
      refine Or.inr ⟨type, ?_, hfinal, rfl⟩
      rw [Graph.typeOf?_of_lookup ((hcontinues.sameSymbols.lookup_eq path).trans hlookup)]
      exact run.get?_of_ok rfl

/-- Entries of one symbol agree. -/
theorem rendered_eq (hleft : left.Holds graph) (hright : right.Holds graph)
    (hpath : left.path = right.path) : left.rendered = right.rendered := by
  unfold Entry.Holds at hleft hright
  rw [hpath] at hleft
  obtain ⟨hnone, hunknown⟩ | ⟨type, htype, -, hrendered⟩ := hleft
  · obtain ⟨-, hunknown'⟩ | ⟨type, htype, -, -⟩ := hright
    · rw [hunknown, hunknown']
    · rw [Graph.typeOf?, hnone] at htype
      cases htype
  · obtain ⟨hnone, -⟩ | ⟨type', htype', -, hrendered'⟩ := hright
    · rw [Graph.typeOf?, hnone] at htype
      cases htype
    · obtain rfl := Option.some.inj (htype.symm.trans htype')
      rw [hrendered, hrendered']

end Entry.Holds

/-! ### All entries -/

/-- A question as part of an action: the action goes on with what comes of it. -/
theorem outcome_run_bind {α β : Type} {question : Querying α} {result : Except Halt α}
    {next : Except Halt α → ExceptT Failure (StateM Program) β}
    (hquestion : outcome question program = (result, middle)) :
    outcome (liftM question.run >>= next) program = outcome (next result) middle := by
  apply outcome_bind_of_ok
  change StateT.run (Except.ok <$> question.run) program = _
  rw [outcome] at hquestion
  rw [StateT.run_map, hquestion]
  rfl

variable {paths rest : List Path} {entries : List Entry} {failure : Failure}

theorem outcome_resolveEntries_cons {type : Ty}
    (htype : outcome (finalType path) program = (.ok type, middle)) (hfinal : type.Final)
    (rest : List Path) :
    outcome (resolveEntries (path :: rest)) program =
      outcome (resolveEntries rest >>= fun entries => pure (⟨path, type.display⟩ :: entries)) middle := by
  have hentry : entryOf path (.ok type) = .ok ⟨path, type.display⟩ := by rw [entryOf, hfinal.render_eq]
  rw [resolveEntries, outcome_run_bind htype, hentry]
  rfl

theorem outcome_resolveEntries_cons_of_ok {type : Ty}
    (htype : outcome (finalType path) program = (.ok type, middle)) (hfinal : type.Final)
    (hrest : outcome (resolveEntries rest) middle = (.ok entries, after)) :
    outcome (resolveEntries (path :: rest)) program = (.ok (⟨path, type.display⟩ :: entries), after) := by
  rw [outcome_resolveEntries_cons htype hfinal, outcome_bind_of_ok hrest]
  rfl

theorem outcome_resolveEntries_cons_of_rest {type : Ty}
    (htype : outcome (finalType path) program = (.ok type, middle)) (hfinal : type.Final)
    (hrest : outcome (resolveEntries rest) middle = (.error failure, after)) :
    outcome (resolveEntries (path :: rest)) program = (.error failure, after) := by
  rw [outcome_resolveEntries_cons htype hfinal, outcome_bind_of_error hrest]

theorem outcome_resolveEntries_cons_of_error {error : ResolveError}
    (herror : outcome (finalType path) program = (.error (.error error), middle)) (rest : List Path) :
    outcome (resolveEntries (path :: rest)) program = (.error (.resolve path error), middle) := by
  rw [resolveEntries, outcome_run_bind herror]
  rfl

/-- A report that ends well has an entry for its first symbol and goes on with the others. -/
theorem resolveEntries_cons_ok (hgraph : program.graph.Indexed)
    (hreport : outcome (resolveEntries (path :: rest)) program = (.ok entries, after)) :
    ∃ type middle more, program.Asks path (.ok type) middle ∧
      outcome (resolveEntries rest) middle = (.ok more, after) ∧
      entries = ⟨path, type.display⟩ :: more := by
  rcases hfirst : outcome (finalType path) program with ⟨(error | fault) | type, middle⟩
  · rw [outcome_resolveEntries_cons_of_error hfirst] at hreport
    cases hreport
  · cases asks_of_finalType hgraph hfirst with
    | resolved _ _ hresult => exact absurd trivial hresult
  · have hasks := asks_of_finalType hgraph hfirst
    rcases hrest : outcome (resolveEntries rest) middle with ⟨failure | more, last⟩
    · rw [outcome_resolveEntries_cons_of_rest hfirst hasks.final hrest] at hreport
      cases hreport
    · rw [outcome_resolveEntries_cons_of_ok hfirst hasks.final hrest] at hreport
      cases hreport
      exact ⟨type, middle, more, hasks, hrest, rfl⟩

/-- The entries of a report that ends well, in terms of the graph that it leaves. -/
theorem holds_of_resolveEntries (hgraph : program.graph.Indexed)
    (hreport : outcome (resolveEntries paths) program = (.ok entries, after)) :
    program.Continues after ∧ entries.map Entry.path = paths ∧
      ∀ entry ∈ entries, entry.Holds after.graph := by
  induction paths generalizing program entries with
  | nil =>
      cases hreport
      exact ⟨.refl _, rfl, nofun⟩
  | cons path rest ih =>
      obtain ⟨type, middle, more, hasks, hrest, rfl⟩ := resolveEntries_cons_ok hgraph hreport
      obtain ⟨hcontinues, hpaths, hholds⟩ :=
        ih (hgraph.of_sameSymbols hasks.continues.sameSymbols) hrest
      refine ⟨hasks.continues.trans hcontinues, congrArg (path :: ·) hpaths, ?_⟩
      intro entry hmem
      rcases List.mem_cons.mp hmem with rfl | hmem
      · exact (Entry.Holds.of_asks hasks).later hcontinues
      · exact hholds entry hmem

/-- A report fails where the resolution of a symbol does: the symbols before it have their entries. -/
theorem error_of_resolveEntries (hgraph : program.graph.Indexed)
    (hreport : outcome (resolveEntries paths) program = (.error failure, after)) :
    ∃ done path rest entries middle id error, paths = done ++ path :: rest ∧
      outcome (resolveEntries done) program = (.ok entries, middle) ∧
      middle.graph.lookup path = some id ∧
      outcome (Program.tryResolve id) middle = (.error (.error error), after) ∧
      failure = .resolve path error := by
  induction paths generalizing program with
  | nil => cases hreport
  | cons path rest ih =>
      rcases hfirst : outcome (finalType path) program with ⟨(error | fault) | type, middle⟩
      · rw [outcome_resolveEntries_cons_of_error hfirst] at hreport
        cases hreport
        cases asks_of_finalType hgraph hfirst with
        | @resolved id _ _ _ hlookup =>
            rw [outcome_finalType_of_some hlookup] at hfirst
            exact ⟨[], path, rest, [], program, id, error, rfl, rfl, hlookup, hfirst, rfl⟩
      · cases asks_of_finalType hgraph hfirst with
        | resolved _ _ hresult => exact absurd trivial hresult
      · have hasks := asks_of_finalType hgraph hfirst
        rcases hrest : outcome (resolveEntries rest) middle with ⟨failure | more, last⟩
        · rw [outcome_resolveEntries_cons_of_rest hfirst hasks.final hrest] at hreport
          cases hreport
          obtain ⟨done, next, others, entries, last, id, error, rfl, hdone, hstop⟩ :=
            ih (hgraph.of_sameSymbols hasks.continues.sameSymbols) hrest
          exact ⟨path :: done, next, others, ⟨path, type.display⟩ :: entries, last, id, error, rfl,
            outcome_resolveEntries_cons_of_ok hfirst hasks.final hdone, hstop⟩
        · rw [outcome_resolveEntries_cons_of_ok hfirst hasks.final hrest] at hreport
          cases hreport

/-- What the dump selects is resolved path by path. -/
theorem outcome_resolveSelected (dump : Dump) (arguments : Arguments) (profile : Profile) :
    outcome (resolveSelected arguments) (.start dump.toGraph profile) =
      outcome (resolveEntries (dump.selection arguments)) (.start dump.toGraph profile) := by
  rw [← dump.selected_toGraph]
  rfl

/-- **What is reported about a dump.** Whatever the arguments select and whatever the budget: either there
is one entry for each selected symbol, in the order of the selection, that of a symbol of the dump being
the canonical text of the type that the graph holds for it when all of them have been resolved, that of
any other function being unknown; or the resolution of a selected symbol failed, and this failure is the
result. -/
theorem resolveSelected_reports (dump : Dump) (arguments : Arguments) (profile : Profile) :
    (∃ entries after,
      outcome (resolveSelected arguments) (.start dump.toGraph profile) = (.ok entries, after) ∧
      entries.map Entry.path = dump.selection arguments ∧
      ∀ entry ∈ entries,
        (entry.path ∈ dump.symbols →
          ∃ type, after.graph.typeOf? entry.path = some type ∧ type.render = .ok entry.rendered) ∧
        (entry.path ∉ dump.symbols → entry.rendered = "unknown")) ∨
    ∃ done path rest entries middle id error after,
      dump.selection arguments = done ++ path :: rest ∧
      outcome (resolveEntries done) (.start dump.toGraph profile) = (.ok entries, middle) ∧
      middle.graph.lookup path = some id ∧
      outcome (Program.tryResolve id) middle = (.error (.error error), after) ∧
      outcome (resolveSelected arguments) (.start dump.toGraph profile) =
        (.error (.resolve path error), after) := by
  rw [outcome_resolveSelected]
  have hindexed := dump.indexed_toGraph
  rcases hreport : outcome (resolveEntries (dump.selection arguments)) (.start dump.toGraph profile) with
    ⟨failure | entries, after⟩
  · obtain ⟨done, path, rest, entries, middle, id, error, hpaths, hdone, hlookup, herror, rfl⟩ :=
      error_of_resolveEntries hindexed hreport
    exact Or.inr ⟨done, path, rest, entries, middle, id, error, after, hpaths, hdone, hlookup, herror, rfl⟩
  · obtain ⟨hcontinues, hpaths, hholds⟩ := holds_of_resolveEntries hindexed hreport
    refine Or.inl ⟨entries, after, rfl, hpaths, fun entry hmem => ?_⟩
    have hsymbols : entry.path ∈ dump.symbols ↔ ∃ id, after.graph.lookup entry.path = some id := by
      rw [← dump.paths_toGraph, hcontinues.sameSymbols.lookup_eq]
      exact hindexed.mem_paths_iff
    rw [hsymbols]
    obtain ⟨hnone, hunknown⟩ | ⟨type, htype, hfinal, hrendered⟩ := hholds entry hmem
    · refine ⟨fun hfound => ?_, fun _ => hunknown⟩
      obtain ⟨id, hid⟩ := hfound
      cases hnone.symm.trans hid
    · refine ⟨fun _ => ⟨type, htype, hrendered ▸ hfinal.render_eq⟩, fun hmissing => ?_⟩
      obtain ⟨id, hid, -⟩ := Option.bind_eq_some_iff.mp htype
      exact absurd ⟨id, hid⟩ hmissing

end CommandLine

end DeferredTypes
