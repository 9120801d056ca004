import DeferredTypes.Proofs.FinalAnswers
import DeferredTypes.Proofs.OrderIndependence
import DeferredTypes.Proofs.Untangled

/-! Symbols that lead to no cycle of several symbols. What is open when such a symbol is asked for leads to
it, so nothing of this is asked for in its walk: no cut is onto it, and no type is left provisional. Each
type that is kept for such a symbol is then given by the graph alone, whatever else is resolved. -/

namespace DeferredTypes

namespace Graph

variable {graph later : Graph} {id other : SymbolId}

/-- No two symbols that this one leads to depend on each other. Each of them may depend on itself. -/
def Layered (graph : Graph) (id : SymbolId) : Prop :=
  ∀ other next, Relation.ReflTransGen graph.DependsOn id other →
    Relation.TransGen graph.DependsOn other next → Relation.TransGen graph.DependsOn next other →
    other = next

/-- What leads to a layered symbol is not reached from there, the symbol itself apart. -/
theorem Layered.not_reaches (hlayered : graph.Layered id)
    (hdepends : Relation.TransGen graph.DependsOn other id) (hother : other ≠ id) :
    ¬Relation.ReflTransGen graph.DependsOn id other := by
  intro hreach
  rcases Relation.reflTransGen_iff_eq_or_transGen.mp hreach with heq | hback
  · exact hother heq
  · exact hother (hlayered id other .refl hback hdepends).symm

theorem confines_layered (graph : Graph) : graph.Confines {id | graph.Layered id} :=
  fun _ hid _ hdepends other next hreach => hid other next (hreach.head hdepends)

theorem confines_reach (graph : Graph) (id : SymbolId) :
    graph.Confines {next | Relation.ReflTransGen graph.DependsOn id next} :=
  fun _ hreach _ hdepends => hreach.tail hdepends

/-- A symbol that waits in the later graph has the type that it had in the first. -/
structure Precedes (graph later : Graph) : Prop where
  same : graph.SameSymbols later
  types : ∀ id type, later.get? id = some type → type.containsReference = true →
    graph.get? id = some type

theorem Precedes.refl (graph : Graph) : graph.Precedes graph := ⟨.refl graph, fun _ _ hget _ => hget⟩

theorem Precedes.finalization {writes : List (SymbolId × Ty)} {before : Graph}
    (hbefore : graph.Precedes before) (hwrites : before.Finalization writes later) :
    graph.Precedes later where
  same := hbefore.same.trans hwrites.sameSymbols
  types id type hget hpending := by
    rcases hwrites.get?_cases id with hsame | ⟨found, hfound, hfinal⟩
    · exact hbefore.types id type (hsame.symm.trans hget) hpending
    · obtain rfl := Option.some.inj (hget.symm.trans hfound)
      exact absurd hpending (Bool.eq_false_iff.mp hfinal)

theorem FilledOn.set_of_not_mem {region : Set SymbolId} (hfilled : graph.FilledOn region later)
    (hid : id ∉ region) (type : Ty) : graph.FilledOn region (later.set id type) where
  same := hfilled.same.trans (.set later id type)
  types other hother := by
    have hne : other ≠ id := by
      rintro rfl
      exact hid hother
    rw [get?_set_of_ne hne]
    exact hfilled.types other hother

end Graph

namespace Task.Runs

variable {graph : Graph} {task : Task} {pass after : Pass} {result : Except Halt Ty} {events : List Event}
  {id : SymbolId}

theorem precedes (run : (Task.symbol id).Runs pass result events after)
    (hpass : graph.Precedes pass.graph) : graph.Precedes after.graph := by
  obtain ⟨writes, hwrites, -⟩ := run.finalization trivial
  exact hpass.finalization hwrites

/-- A task that asks in a region makes no cut outside of it. -/
theorem any_cutsOnto_eq_false {region : Set SymbolId} (hregion : graph.Confines region)
    (run : task.Runs pass result events after) (htask : task.AsksIn graph region)
    (hpass : graph.Precedes pass.graph) {ids : List SymbolId} (hids : ∀ id ∈ ids, id ∉ region) :
    events.any (Event.cutsOnto ids) = false := by
  induction run with
  | @cut pass id position hposition =>
      have hid : id ∉ ids := fun h => hids id h htask
      simp [Event.cutsOnto, hid]
  | unallocated | recalled | exhausted | answer | refuse => rfl
  | @walked pass id stored result events inside hwaits _ _ ih =>
      have hget := hpass.types id stored hwaits.get hwaits.pending
      rw [Pass.any_cutsOnto_closing]
      exact ih (asksIn_ofTy hget (hregion id htask)) hpass
  | missing _ _ ih =>
      rw [List.any_append, ih (htask.2 none fun _ _ => trivial) hpass]
      rfl
  | halted hlookup _ ih =>
      rw [hpass.same.lookup_eq] at hlookup
      exact ih (htask.1 _ hlookup) hpass
  | found hlookup hsymbol _ ihsymbol ihrest =>
      rw [hpass.same.lookup_eq] at hlookup
      rw [List.any_append, ihsymbol (htask.1 _ hlookup) hpass,
        ihrest (htask.2 _ fun _ _ => trivial) (hsymbol.precedes hpass)]
      rfl

/-- A task that asks for layered symbols only leaves no type provisional. -/
theorem not_provisional (run : task.Runs pass result events after)
    (htask : task.AsksIn graph {id | graph.Layered id}) (hasked : task.AskedBy graph pass.guard.stack)
    (hpass : graph.Precedes pass.graph) (id : SymbolId) : .provisional id ∉ events := by
  induction run with
  | cut | unallocated | recalled | exhausted | answer | refuse => simp
  | @walked pass other stored result events inside hwaits _ hwalk ih =>
      have hget := hpass.types other stored hwaits.get hwaits.pending
      intro hevent
      rcases List.mem_append.mp hevent with hevent | hevent
      · rcases List.mem_append.mp hevent with hevent | hevent
        · obtain ⟨type, rfl, hlink⟩ := Pass.closesBelow_of_provisional hevent
          rw [hwalk.closesBelow_iff, ← Bool.not_eq_false] at hlink
          -- What is open leads to this symbol, so the walk does not ask for it.
          refine hlink (hwalk.any_cutsOnto_eq_false (graph.confines_reach other)
            (asksIn_ofTy hget fun _ hdepends => .single hdepends) hpass fun below hbelow => ?_)
          exact Graph.Layered.not_reaches htask (hasked below hbelow) fun heq =>
            hwaits.closed (heq ▸ hbelow)
        · exact ih (asksIn_ofTy hget (graph.confines_layered other htask)) (askedBy_ofTy hget hasked)
            hpass hevent
      · simp at hevent
  | missing _ _ ih =>
      intro hevent
      rcases List.mem_append.mp hevent with hevent | hevent
      · exact ih (htask.2 none fun _ _ => trivial) (hasked.2 none fun _ _ => trivial) hpass hevent
      · simp at hevent
  | halted hlookup _ ih =>
      rw [hpass.same.lookup_eq] at hlookup
      exact ih (htask.1 _ hlookup) (hasked.1 _ hlookup) hpass
  | found hlookup hsymbol _ ihsymbol ihrest =>
      rw [hpass.same.lookup_eq] at hlookup
      intro hevent
      rcases List.mem_append.mp hevent with hevent | hevent
      · rw [← hsymbol.stack_eq (not_faulty_ok _)] at hasked
        exact ihrest (htask.2 _ fun _ _ => trivial) (hasked.2 _ fun _ _ => trivial)
          (hsymbol.precedes hpass) hevent
      · exact ihsymbol (htask.1 _ hlookup) (hasked.1 _ hlookup) hpass hevent

/-- A layered symbol comes to the type that it has by the graph alone. -/
theorem yields_of_layered {type : Ty} (run : (Task.symbol id).Runs pass (.ok type) events after)
    (hlayered : graph.Layered id) (hclosed : id ∉ pass.guard.stack)
    (hasked : (Task.symbol id).AskedBy graph pass.guard.stack) (hpass : graph.Precedes pass.graph)
    (hfilled : graph.FilledOn {id | graph.Layered id} pass.graph) :
    graph.Yields id type ∧ graph.FilledOn {id | graph.Layered id} after.graph := by
  have howner : ∀ other, (none : Option SymbolId) = some other → other ∈ pass.guard.stack := by
    rintro _ ⟨⟩
  refine run.yields graph.confines_layered hlayered hfilled howner (fun other hother _ => ?_)
    (run.not_provisional hlayered hasked hpass)
  refine run.any_cutsOnto_eq_false (graph.confines_reach id) .refl hpass fun below hbelow => ?_
  rw [List.mem_singleton.mp hbelow]
  exact hlayered.not_reaches (hasked other hother) fun heq => hclosed (heq ▸ hother)

/-- Whatever is resolved, what is kept for layered symbols are the types that they have by the graph alone. -/
theorem filledOn (run : task.Runs pass result events after)
    (hasked : task.AskedBy graph pass.guard.stack) (hpass : graph.Precedes pass.graph)
    (hfilled : graph.FilledOn {id | graph.Layered id} pass.graph) :
    graph.FilledOn {id | graph.Layered id} after.graph := by
  induction run with
  | cut | unallocated | recalled | exhausted | answer | refuse => exact hfilled
  | @walked pass id stored result events inside hwaits hadmits hwalk ih =>
      have hget := hpass.types id stored hwaits.get hwaits.pending
      have hinside := ih (askedBy_ofTy hget hasked) hpass hfilled
      rcases pass.write_settled inside id result with ⟨hgraph, -⟩ | ⟨found, rfl, hgraph, -⟩
      · rw [hgraph]
        exact hinside
      · by_cases hlayered : graph.Layered id
        · exact ((Runs.walked hwaits hadmits hwalk).yields_of_layered hlayered hwaits.closed hasked hpass
            hfilled).2
        · rw [hgraph]
          exact hinside.set_of_not_mem hlayered found
  | missing _ _ ih => exact ih (hasked.2 none fun _ _ => trivial) hpass hfilled
  | halted hlookup _ ih =>
      rw [hpass.same.lookup_eq] at hlookup
      exact ih (hasked.1 _ hlookup) hpass hfilled
  | found hlookup hsymbol _ ihsymbol ihrest =>
      rw [hpass.same.lookup_eq] at hlookup
      have hmiddle := ihsymbol (hasked.1 _ hlookup) hpass hfilled
      rw [← hsymbol.stack_eq (not_faulty_ok _)] at hasked
      exact ihrest (hasked.2 _ fun _ _ => trivial) (hsymbol.precedes hpass) hmiddle

end Task.Runs

/-- A layered symbol that has a type by the graph alone is untangled. -/
theorem Graph.Layered.untangled {graph : Graph} {id : SymbolId} {type : Ty} (hlayered : graph.Layered id)
    (hyields : graph.Yields id type) (halone : ¬Aborted (graph.alone id).1) : graph.Untangled id := by
  obtain ⟨result, events, after, run⟩ :=
    (Task.symbol id).exists_run (.start graph Profile.unbounded.limits)
  obtain ⟨hresult, hjournal⟩ := alone_eq run
  rw [hresult] at halone
  refine ⟨⟨type, ?_⟩, ?_⟩
  · rw [hresult]
    exact (run.of_symbol_yields halone (.refl graph) hyields fun _ hopen => by cases hopen).1
  · rw [hjournal]
    exact run.not_provisional hlayered (fun _ hopen => by cases hopen) (.refl graph)

end DeferredTypes
