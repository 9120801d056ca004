import Mathlib.Data.Set.Basic
import DeferredTypes.Proofs.Evaluation
import DeferredTypes.Proofs.Finalization
import DeferredTypes.Proofs.LowLink

/-! Symbols whose types are a matter of the graph alone. The resolution of such a symbol leaves no type
provisional: a symbol that it walks is asked for again, while it is open, by its own walk only. The type is
then given by a derivation that knows neither a stack nor a journal, and every run comes to it, whatever
was made final before and whichever other symbols are open. -/

namespace DeferredTypes

/-! ### Derivations -/

/-- The type of a task by the graph alone. In its own walk a symbol is unknown; a symbol that is asked for
in the walk of another one has a type by itself. The level bounds how deep the walks are nested. -/
inductive Task.Yields (graph : Graph) : Nat → Option SymbolId → Task → Ty → Prop
  | own {level id} : Yields graph level (some id) (.symbol id) .unknown
  | final {level owner id type} (hother : owner ≠ some id) (hget : graph.get? id = some type)
      (hfinal : type.Final) : Yields graph level owner (.symbol id) type
  | walk {level owner id stored type} (hother : owner ≠ some id) (hget : graph.get? id = some stored)
      (hpending : stored.containsReference = true)
      (hwalk : Yields graph level (some id) (.inquiry (.ofTy stored)) type) :
      Yields graph (level + 1) owner (.symbol id) type
  | answer {level owner type} : Yields graph level owner (.inquiry (.answer type)) type
  | missing {level owner path rest type} (hlookup : graph.lookup path = none)
      (hrest : Yields graph level owner (.inquiry (rest none)) type) :
      Yields graph level owner (.inquiry (.ask path rest)) type
  | found {level owner path rest id reply type} (hlookup : graph.lookup path = some id)
      (hsymbol : Yields graph level owner (.symbol id) reply)
      (hrest : Yields graph level owner (.inquiry (rest (some reply))) type) :
      Yields graph level owner (.inquiry (.ask path rest)) type

/-- The symbol has a type by itself, with walks nested no deeper than this. -/
def Graph.YieldsWithin (graph : Graph) (level : Nat) (id : SymbolId) : Prop :=
  ∃ type, Task.Yields graph level none (.symbol id) type

/-- The type of a symbol by the graph alone. -/
def Graph.Yields (graph : Graph) (id : SymbolId) (type : Ty) : Prop :=
  ∃ level, Task.Yields graph level none (.symbol id) type

namespace Task.Yields

variable {graph : Graph} {level more : Nat} {owner : Option SymbolId} {task : Task} {type : Ty}
  {id : SymbolId}

theorem mono (hyields : task.Yields graph level owner type) (hlevel : level ≤ more) :
    task.Yields graph more owner type := by
  induction hyields generalizing more with
  | own => exact .own
  | final hother hget hfinal => exact .final hother hget hfinal
  | walk hother hget hpending _ ih =>
      obtain ⟨inner, rfl⟩ : ∃ inner, more = inner + 1 := ⟨more - 1, by omega⟩
      exact .walk hother hget hpending (ih (by omega))
  | answer => exact .answer
  | missing hlookup _ ih => exact .missing hlookup (ih hlevel)
  | found hlookup _ _ ihsymbol ihrest => exact .found hlookup (ihsymbol hlevel) (ihrest hlevel)

/-- A task has one type by the graph alone at most. -/
theorem unique {other : Ty} (hyields : task.Yields graph level owner type)
    (hyields' : task.Yields graph more owner other) : type = other := by
  induction hyields generalizing more other with
  | own =>
      cases hyields' with
      | own => rfl
      | final hother | walk hother => exact absurd rfl hother
  | final hother hget hfinal =>
      cases hyields' with
      | own => exact absurd rfl hother
      | final _ hget' => exact Option.some.inj (hget.symm.trans hget')
      | walk _ hget' hpending =>
          obtain rfl := Option.some.inj (hget.symm.trans hget')
          exact absurd hpending (Bool.eq_false_iff.mp hfinal)
  | walk hother hget hpending _ ih =>
      cases hyields' with
      | own => exact absurd rfl hother
      | final _ hget' hfinal =>
          obtain rfl := Option.some.inj (hget.symm.trans hget')
          exact absurd hpending (Bool.eq_false_iff.mp hfinal)
      | walk _ hget' _ hwalk =>
          obtain rfl := Option.some.inj (hget.symm.trans hget')
          exact ih hwalk
  | answer =>
      cases hyields'
      rfl
  | missing hlookup _ ih =>
      cases hyields' with
      | missing _ hrest => exact ih hrest
      | found hlookup' => cases hlookup.symm.trans hlookup'
  | found hlookup _ _ ihsymbol ihrest =>
      cases hyields' with
      | missing hlookup' => cases hlookup.symm.trans hlookup'
      | found hlookup' hsymbol hrest =>
          obtain rfl := Option.some.inj (hlookup.symm.trans hlookup')
          obtain rfl := ihsymbol hsymbol
          exact ihrest hrest

/-- Who asks for a symbol does not matter, the symbol itself apart. -/
theorem of_owner {owner' : Option SymbolId} (hyields : (Task.symbol id).Yields graph level owner type)
    (hother : owner ≠ some id) (hother' : owner' ≠ some id) :
    (Task.symbol id).Yields graph level owner' type := by
  cases hyields with
  | own => exact absurd rfl hother
  | final _ hget hfinal => exact .final hother' hget hfinal
  | walk _ hget hpending hwalk => exact .walk hother' hget hpending hwalk

theorem unowned (hyields : (Task.symbol id).Yields graph level owner type) (hother : owner ≠ some id) :
    (Task.symbol id).Yields graph level none type :=
  hyields.of_owner hother (Option.some_ne_none id).symm

/-- The walk of a symbol that waits needs fewer levels than the symbol, and some of them are too few for
the symbol. -/
theorem exists_walk {stored : Ty} (hyields : (Task.symbol id).Yields graph level none type)
    (hget : graph.get? id = some stored) (hpending : stored.containsReference = true) :
    ∃ least < level, (Task.inquiry (.ofTy stored)).Yields graph least (some id) type ∧
      ¬graph.YieldsWithin least id := by
  induction level using Nat.strongRecOn with
  | ind level ih =>
      cases hyields with
      | final _ hget' hfinal =>
          obtain rfl := Option.some.inj (hget.symm.trans hget')
          exact absurd hpending (Bool.eq_false_iff.mp hfinal)
      | @walk inner _ _ _ _ hother hget' _ hwalk =>
          obtain rfl := Option.some.inj (hget.symm.trans hget')
          by_cases hwithin : graph.YieldsWithin inner id
          · obtain ⟨found, hfound⟩ := hwithin
            obtain rfl := hfound.unique (.walk hother hget hpending hwalk)
            obtain ⟨least, hleast, hyields⟩ := ih inner (Nat.lt_succ_self inner) hfound
            exact ⟨least, Nat.lt_succ_of_lt hleast, hyields⟩
          · exact ⟨inner, Nat.lt_succ_self inner, hwalk, hwithin⟩

end Task.Yields

namespace Graph

/-! ### Graphs in the course of resolutions -/

/-- Some symbols of the one graph have got, in the other, the types that they have by the first. -/
structure Fills (graph before after : Graph) : Prop where
  same : before.SameSymbols after
  types : ∀ id, after.get? id = before.get? id ∨
    ∃ type, graph.Yields id type ∧ type.Final ∧ after.get? id = some type

/-- The symbols that have a type by the first graph have this type in the later one, or still the one that
they had at first. -/
structure Keeps (graph later : Graph) : Prop where
  same : graph.SameSymbols later
  types : ∀ id type, graph.Yields id type →
    later.get? id = graph.get? id ∨ later.get? id = some type ∧ type.Final

/-- Whatever a symbol of the region depends on is in the region. -/
def Confines (graph : Graph) (region : Set SymbolId) : Prop :=
  ∀ id ∈ region, ∀ next, graph.DependsOn id next → next ∈ region

/-- The symbols of the region have in the later graph the types that they had at first, or those that they
have by the first graph. -/
structure FilledOn (graph : Graph) (region : Set SymbolId) (later : Graph) : Prop where
  same : graph.SameSymbols later
  types : ∀ id ∈ region, later.get? id = graph.get? id ∨
    ∃ type, graph.Yields id type ∧ type.Final ∧ later.get? id = some type

variable {graph before after later : Graph} {region : Set SymbolId} {id : SymbolId}
  {type found stored : Ty}

theorem Yields.unique (hyields : graph.Yields id type) (hyields' : graph.Yields id found) :
    type = found := by
  obtain ⟨_, hyields⟩ := hyields
  obtain ⟨_, hyields'⟩ := hyields'
  exact Task.Yields.unique hyields hyields'

namespace Fills

theorem refl (graph before : Graph) : graph.Fills before before := ⟨.refl before, fun _ => Or.inl rfl⟩

theorem trans (left : graph.Fills before after) (right : graph.Fills after later) :
    graph.Fills before later where
  same := left.same.trans right.same
  types id := by
    rcases right.types id with hsame | hyields
    · rw [hsame]
      exact left.types id
    · exact Or.inr hyields

theorem set (hget : before.get? id = some stored) (hyields : graph.Yields id type)
    (hfinal : type.Final) : graph.Fills before (before.set id type) where
  same := .set before id type
  types other := by
    by_cases hother : other = id
    · subst hother
      exact Or.inr ⟨type, hyields, hfinal, get?_set_self hget type⟩
    · exact Or.inl (get?_set_of_ne hother before type)

end Fills

namespace Keeps

theorem refl (graph : Graph) : graph.Keeps graph := ⟨.refl graph, fun _ _ _ => Or.inl rfl⟩

theorem fills (hkeeps : graph.Keeps before) (hfills : graph.Fills before after) : graph.Keeps after where
  same := hkeeps.same.trans hfills.same
  types id type hyields := by
    rcases hfills.types id with hsame | ⟨found, hfound, hfinal, hget⟩
    · rw [hsame]
      exact hkeeps.types id type hyields
    · obtain rfl := hyields.unique hfound
      exact Or.inr ⟨hget, hfinal⟩

/-- What happens to a symbol without a type by the first graph does not matter. -/
theorem set (hkeeps : graph.Keeps later) (hid : ∀ type, ¬graph.Yields id type) (type : Ty) :
    graph.Keeps (later.set id type) where
  same := hkeeps.same.trans (.set later id type)
  types other found hyields := by
    have hother : other ≠ id := by
      rintro rfl
      exact hid found hyields
    rw [get?_set_of_ne hother]
    exact hkeeps.types other found hyields

/-- A symbol with a type by the graph alone has no other final type later. -/
theorem eq_of_final (hkeeps : graph.Keeps later) (hyields : graph.Yields id type)
    (hget : later.get? id = some found) (hfinal : found.Final) : found = type := by
  rcases hkeeps.types id type hyields with hsame | ⟨htype, -⟩
  · have hfound : graph.Yields id found := ⟨0, .final nofun (hsame.symm.trans hget) hfinal⟩
    exact hfound.unique hyields
  · exact Option.some.inj (hget.symm.trans htype)

theorem get?_of_pending (hkeeps : graph.Keeps later) (hyields : graph.Yields id type)
    (hget : later.get? id = some stored) (hpending : stored.containsReference = true) :
    graph.get? id = some stored := by
  rcases hkeeps.types id type hyields with hsame | ⟨htype, hfinal⟩
  · exact hsame.symm.trans hget
  · obtain rfl := Option.some.inj (hget.symm.trans htype)
    exact absurd hpending (Bool.eq_false_iff.mp hfinal)

end Keeps

namespace FilledOn

theorem refl (graph : Graph) (region : Set SymbolId) : graph.FilledOn region graph :=
  ⟨.refl graph, fun _ _ => Or.inl rfl⟩

theorem fills (hfilled : graph.FilledOn region before) (hfills : graph.Fills before after) :
    graph.FilledOn region after where
  same := hfilled.same.trans hfills.same
  types id hid := by
    rcases hfills.types id with hsame | hyields
    · rw [hsame]
      exact hfilled.types id hid
    · exact Or.inr hyields

theorem get?_of_pending (hfilled : graph.FilledOn region later) (hid : id ∈ region)
    (hget : later.get? id = some stored) (hpending : stored.containsReference = true) :
    graph.get? id = some stored := by
  rcases hfilled.types id hid with hsame | ⟨type, -, hfinal, htype⟩
  · exact hsame.symm.trans hget
  · obtain rfl := Option.some.inj (hget.symm.trans htype)
    exact absurd hpending (Bool.eq_false_iff.mp hfinal)

theorem yields_of_final (hfilled : graph.FilledOn region later) (hid : id ∈ region)
    (hget : later.get? id = some found) (hfinal : found.Final) : graph.Yields id found := by
  rcases hfilled.types id hid with hsame | ⟨type, hyields, -, htype⟩
  · exact ⟨0, .final (Option.some_ne_none id).symm (hsame.symm.trans hget) hfinal⟩
  · obtain rfl := Option.some.inj (hget.symm.trans htype)
    exact hyields

end FilledOn

theorem Yields.get?_ne_none (hyields : graph.Yields id type) (hkeeps : graph.Keeps later) :
    later.get? id ≠ none := by
  intro hnone
  obtain ⟨level, hyields⟩ := hyields
  have hsize := not_lt_size_of_get? hnone
  rw [hkeeps.same.size] at hsize
  cases hyields with
  | final _ hget | walk _ hget => exact hsize (lt_size_of_get? hget)

end Graph

/-! ### Runs -/

namespace Task

/-- The task asks for symbols of the region only. -/
def AsksIn (graph : Graph) (region : Set SymbolId) : Task → Prop
  | .symbol id => id ∈ region
  | .inquiry questions => questions.Meets
      (fun path => ∀ id, graph.lookup path = some id → id ∈ region) (fun _ => True) fun _ => True

theorem asksIn_ofTy {graph : Graph} {region : Set SymbolId} {id : SymbolId} {type : Ty}
    (hget : graph.get? id = some type) (hregion : ∀ next, graph.DependsOn id next → next ∈ region) :
    (Task.inquiry (.ofTy type)).AsksIn graph region :=
  Inquiry.meets_mentions fun path hpath next hlookup => hregion next ⟨type, path, hget, hpath, hlookup⟩

end Task

namespace Task.Runs

variable {graph : Graph} {task : Task} {pass after : Pass} {result : Except Halt Ty} {events : List Event}

/-- A task with a type by the graph alone comes to it, unless it is aborted, from every state whose open
symbols have none on the levels that the task needs. It writes only such types, and each cut is onto the
symbol that asks or onto one that the task opens. -/
theorem of_yields (run : task.Runs pass result events after) (hresult : ¬Aborted result)
    (hpass : graph.Keeps pass.graph) {level : Nat} {owner : Option SymbolId} {type : Ty}
    (hyields : task.Yields graph level owner type) (howner : ∀ id, owner = some id → id ∈ pass.guard.stack)
    (hstack : ∀ id ∈ pass.guard.stack, ¬graph.YieldsWithin level id) :
    result = .ok type ∧ graph.Fills pass.graph after.graph ∧
      ∀ ids, (∀ id ∈ ids, owner ≠ some id ∧ ¬graph.YieldsWithin level id) →
        events.any (Event.cutsOnto ids) = false := by
  induction run generalizing level owner type with
  | @cut pass id position hposition =>
      have hopen := Guard.mem_of_position? hposition
      by_cases hid : owner = some id
      · subst hid
        obtain rfl := hyields.unique (.own : Yields graph level (some id) (.symbol id) _)
        refine ⟨rfl, .refl _ _, fun ids hids => ?_⟩
        have hother : id ∉ ids := fun h => (hids id h).1 rfl
        simp [Event.cutsOnto, hother]
      · exact absurd ⟨type, hyields.unowned hid⟩ (hstack id hopen)
  | @unallocated pass id hclosed hget =>
      have hid : owner ≠ some id := fun h => hclosed (howner id h)
      have htype : graph.Yields id type := ⟨level, hyields.unowned hid⟩
      exact absurd hget (htype.get?_ne_none hpass)
  | @recalled pass id found hclosed hget hfinal =>
      have hid : owner ≠ some id := fun h => hclosed (howner id h)
      obtain rfl := hpass.eq_of_final ⟨level, hyields.unowned hid⟩ hget hfinal
      exact ⟨rfl, .refl _ _, fun _ _ => rfl⟩
  | exhausted => exact absurd trivial hresult
  | @walked pass id stored result events inside hwaits hadmits hwalk ih =>
      have hid : owner ≠ some id := fun h => hwaits.closed (howner id h)
      have hnone := hyields.unowned hid
      have hget := hpass.get?_of_pending ⟨level, hnone⟩ hwaits.get hwaits.pending
      obtain ⟨least, hleast, hinner, hleast'⟩ := hnone.exists_walk hget hwaits.pending
      have hlevel : ∀ other, ¬graph.YieldsWithin level other → ¬graph.YieldsWithin least other := by
        rintro other hother ⟨found, hfound⟩
        exact hother ⟨found, hfound.mono (Nat.le_of_lt hleast)⟩
      -- On the levels that the walk needs the symbol has no type, like the symbols open before.
      have hopened : ∀ other ∈ (pass.opened id).guard.stack, ¬graph.YieldsWithin least other := by
        intro other hother
        rcases List.mem_append.mp hother with hother | hother
        · exact hlevel other (hstack other hother)
        · rw [List.mem_singleton.mp hother]
          exact hleast'
      have hself : ∀ other, some id = some other → other ∈ (pass.opened id).guard.stack := by
        rintro _ ⟨⟩
        exact List.mem_append_right _ List.mem_cons_self
      obtain ⟨rfl, hfills, hcuts⟩ := ih hresult hpass hinner hself hopened
      -- So no cut is onto these, and the type is kept.
      have hlink : ¬inside.ClosesBelow pass.guard.depth := by
        rw [hwalk.closesBelow_iff, Bool.not_eq_true]
        refine hcuts _ fun other hother => ⟨?_, hlevel other (hstack other hother)⟩
        rintro ⟨⟩
        exact hwaits.closed hother
      refine ⟨rfl, ?_, fun ids hids => ?_⟩
      · rw [Pass.settled, if_neg hlink]
        exact hfills.trans (.set (get?_of_walk hwaits hwalk) ⟨level, hnone⟩ (hwalk.final (.ofTy _) rfl))
      · rw [Pass.any_cutsOnto_closing]
        refine hcuts ids fun other hother => ⟨?_, hlevel other (hids other hother).2⟩
        rintro ⟨⟩
        exact (hids id hother).2 ⟨type, hnone⟩
  | answer =>
      cases hyields
      exact ⟨rfl, .refl _ _, fun _ _ => rfl⟩
  | refuse => cases hyields
  | missing hlookup _ ih =>
      rw [hpass.same.lookup_eq] at hlookup
      cases hyields with
      | missing _ hrest =>
          obtain ⟨hok, hfills, hcuts⟩ := ih hresult hpass hrest howner hstack
          refine ⟨hok, hfills, fun ids hids => ?_⟩
          rw [List.any_append, hcuts ids hids]
          rfl
      | found hlookup' => cases hlookup.symm.trans hlookup'
  | halted hlookup _ ih =>
      rw [hpass.same.lookup_eq] at hlookup
      cases hyields with
      | missing hlookup' => cases hlookup.symm.trans hlookup'
      | found hlookup' hsymbol =>
          obtain rfl := Option.some.inj (hlookup.symm.trans hlookup')
          cases (ih hresult hpass hsymbol howner hstack).1
  | found hlookup hsymbol _ ihsymbol ihrest =>
      rw [hpass.same.lookup_eq] at hlookup
      cases hyields with
      | missing hlookup' => cases hlookup.symm.trans hlookup'
      | found hlookup' hreply hrest =>
          obtain rfl := Option.some.inj (hlookup.symm.trans hlookup')
          obtain ⟨hok, hfirst, hcuts⟩ := ihsymbol (fun h => h) hpass hreply howner hstack
          obtain rfl := Except.ok.inj hok
          have hmiddle := hsymbol.stack_eq (not_faulty_ok _)
          rw [← hmiddle] at howner hstack
          obtain ⟨hok, hsecond, hcuts'⟩ := ihrest hresult (hpass.fills hfirst) hrest howner hstack
          refine ⟨hok, hfirst.trans hsecond, fun ids hids => ?_⟩
          rw [List.any_append, hcuts ids hids, hcuts' ids hids]
          rfl

/-- A symbol with a type by the graph alone comes to it while none of these are open; no cut is onto a
symbol without one. -/
theorem of_symbol_yields {id : SymbolId} {type : Ty}
    (run : (Task.symbol id).Runs pass result events after) (hresult : ¬Aborted result)
    (hpass : graph.Keeps pass.graph) (hyields : graph.Yields id type)
    (hstack : ∀ other ∈ pass.guard.stack, ∀ found, ¬graph.Yields other found) :
    result = .ok type ∧ graph.Fills pass.graph after.graph ∧
      ∀ ids, (∀ other ∈ ids, ∀ found, ¬graph.Yields other found) →
        events.any (Event.cutsOnto ids) = false := by
  obtain ⟨level, hyields⟩ := hyields
  have hnever : ∀ other, (∀ found, ¬graph.Yields other found) → ¬graph.YieldsWithin level other := by
    rintro other hother ⟨found, hfound⟩
    exact hother found ⟨level, hfound⟩
  obtain ⟨hok, hfills, hcuts⟩ := run.of_yields hresult hpass hyields nofun
    fun other hother => hnever other (hstack other hother)
  exact ⟨hok, hfills, fun ids hids => hcuts ids fun other hother => ⟨nofun, hnever other (hids other hother)⟩⟩

/-- The types that symbols have by the first graph are kept by every run that ends well. -/
theorem keeps {type : Ty} (run : task.Runs pass (.ok type) events after) (hpass : graph.Keeps pass.graph)
    (hstack : ∀ id ∈ pass.guard.stack, ∀ found, ¬graph.Yields id found) : graph.Keeps after.graph := by
  generalize hresult : Except.ok type = result at run
  induction run generalizing type with
  | cut | recalled | answer => exact hpass
  | unallocated | exhausted | refuse | halted => cases hresult
  | @walked pass id stored result events inside hwaits hadmits hwalk ih =>
      subst hresult
      by_cases hyields : ∃ found, graph.Yields id found
      · obtain ⟨found, hfound⟩ := hyields
        have run : (Task.symbol id).Runs pass (.ok type) _ _ := .walked hwaits hadmits hwalk
        exact hpass.fills (run.of_symbol_yields (fun h => h) hpass hfound hstack).2.1
      · -- A symbol without such a type is open during its walk like those before it.
        have hid : ∀ found, ¬graph.Yields id found := fun found hfound => hyields ⟨found, hfound⟩
        have hinside : graph.Keeps inside.graph := by
          refine ih hpass (fun other hother => ?_) rfl
          rcases List.mem_append.mp hother with hother | hother
          · exact hstack other hother
          · rw [List.mem_singleton.mp hother]
            exact hid
        rcases pass.write_settled inside id (.ok type) with ⟨hgraph, -⟩ | ⟨found, -, hgraph, -⟩
        · rw [hgraph]
          exact hinside
        · rw [hgraph]
          exact hinside.set hid found
  | missing _ _ ih => exact ih hpass hstack hresult
  | found _ hsymbol _ ihsymbol ihrest =>
      refine ihrest (ihsymbol hpass hstack rfl) ?_ hresult
      rw [hsymbol.stack_eq (not_faulty_ok _)]
      exact hstack

/-- A run that asks in the region only, leaves no type provisional, and cuts onto the symbol that asks only,
finds a type that is given by the graph alone. -/
theorem yields {region : Set SymbolId} (hregion : graph.Confines region) {type : Ty}
    (run : task.Runs pass (.ok type) events after) (htask : task.AsksIn graph region)
    (hpass : graph.FilledOn region pass.graph) {owner : Option SymbolId}
    (howner : ∀ id, owner = some id → id ∈ pass.guard.stack)
    (hcuts : ∀ id ∈ pass.guard.stack, owner ≠ some id → events.any (Event.cutsOnto [id]) = false)
    (hkept : ∀ id, .provisional id ∉ events) :
    (∃ level, task.Yields graph level owner type) ∧ graph.FilledOn region after.graph := by
  generalize hresult : Except.ok type = result at run
  induction run generalizing type owner with
  | unallocated | exhausted | refuse | halted => cases hresult
  | @cut pass id position hposition =>
      cases hresult
      have hopen := Guard.mem_of_position? hposition
      by_cases hid : owner = some id
      · subst hid
        exact ⟨⟨0, .own⟩, hpass⟩
      · have hcut := hcuts id hopen hid
        simp [Event.cutsOnto] at hcut
  | @recalled pass id found hclosed hget hfinal =>
      cases hresult
      have hid : owner ≠ some id := fun h => hclosed (howner id h)
      obtain ⟨level, hyields⟩ := hpass.yields_of_final htask hget hfinal
      exact ⟨⟨level, hyields.of_owner (Option.some_ne_none id).symm hid⟩, hpass⟩
  | @walked pass id stored result events inside hwaits hadmits hwalk ih =>
      subst hresult
      have hid : owner ≠ some id := fun h => hwaits.closed (howner id h)
      have hlink : ¬inside.ClosesBelow pass.guard.depth := by
        intro hlink
        apply hkept id
        rw [Pass.closing, if_pos hlink]
        exact List.mem_cons_self
      have hbelow : events.any (Event.cutsOnto pass.guard.stack) = false := by
        rwa [hwalk.closesBelow_iff, Bool.not_eq_true] at hlink
      have hget := hpass.get?_of_pending htask hwaits.get hwaits.pending
      have hself : ∀ other, some id = some other → other ∈ (pass.opened id).guard.stack := by
        rintro _ ⟨⟩
        exact List.mem_append_right _ List.mem_cons_self
      have hinner : ∀ other ∈ (pass.opened id).guard.stack, some id ≠ some other →
          events.any (Event.cutsOnto [other]) = false := by
        intro other hother hne
        rcases List.mem_append.mp hother with hother | hother
        · refine Bool.eq_false_iff.mpr fun hcut => Bool.eq_false_iff.mp hbelow ?_
          exact Event.any_cutsOnto_of_subset (List.cons_subset.mpr ⟨hother, List.nil_subset _⟩) hcut
        · exact absurd (congrArg some (List.mem_singleton.mp hother).symm) hne
      have hkept' : ∀ other, .provisional other ∉ events := fun other hother =>
        hkept other (List.mem_append_left _ (List.mem_append_right _ hother))
      obtain ⟨⟨level, hinner⟩, hinside⟩ := ih (asksIn_ofTy hget (hregion id htask)) hpass hself
        hinner hkept' rfl
      have hyields : (Task.symbol id).Yields graph (level + 1) owner type :=
        .walk hid hget hwaits.pending hinner
      have htype : graph.Yields id type := ⟨level + 1, hyields.unowned hid⟩
      refine ⟨⟨level + 1, hyields⟩, ?_⟩
      rw [Pass.settled, if_neg hlink]
      exact hinside.fills (.set (get?_of_walk hwaits hwalk) htype (hwalk.final (.ofTy _) rfl))
  | answer =>
      cases hresult
      exact ⟨⟨0, .answer⟩, hpass⟩
  | missing hlookup _ ih =>
      rw [hpass.same.lookup_eq] at hlookup
      simp only [List.any_append, Bool.or_eq_false_iff] at hcuts
      obtain ⟨⟨level, hrest⟩, hafter⟩ := ih (htask.2 none fun _ _ => trivial) hpass howner
        (fun id hid hne => (hcuts id hid hne).1) (fun id hid => hkept id (List.mem_append_left _ hid)) hresult
      exact ⟨⟨level, .missing hlookup hrest⟩, hafter⟩
  | found hlookup hsymbol _ ihsymbol ihrest =>
      rw [hpass.same.lookup_eq] at hlookup
      simp only [List.any_append, Bool.or_eq_false_iff] at hcuts
      have hstack := hsymbol.stack_eq (not_faulty_ok _)
      obtain ⟨⟨level, hreply⟩, hmiddle⟩ := ihsymbol (htask.1 _ hlookup) hpass howner
        (fun id hid hne => (hcuts id hid hne).2) (fun id hid => hkept id (List.mem_append_right _ hid)) rfl
      rw [← hstack] at howner hcuts
      obtain ⟨⟨more, hrest⟩, hafter⟩ := ihrest (htask.2 _ fun _ _ => trivial) hmiddle howner
        (fun id hid hne => (hcuts id hid hne).1) (fun id hid => hkept id (List.mem_append_left _ hid)) hresult
      exact ⟨⟨max level more, .found hlookup (hreply.mono (Nat.le_max_left _ _))
        (hrest.mono (Nat.le_max_right _ _))⟩, hafter⟩

end Task.Runs

namespace Graph

variable {graph : Graph} {id : SymbolId}

/-- The resolution of a symbol by itself, without a budget: its result and the state that it leaves. -/
def alone (graph : Graph) (id : SymbolId) : Except Halt Ty × Pass :=
  outcome (Walk.symbol id) (.start graph Profile.unbounded.limits)

/-- By itself the symbol is resolved, and no type is left provisional. -/
def Untangled (graph : Graph) (id : SymbolId) : Prop :=
  (∃ type, (graph.alone id).1 = .ok type) ∧ ∀ other, .provisional other ∉ (graph.alone id).2.journal

theorem alone_eq {result : Except Halt Ty} {events : List Event} {after : Pass}
    (run : (Task.symbol id).Runs (.start graph Profile.unbounded.limits) result events after) :
    (graph.alone id).1 = result ∧ (graph.alone id).2.journal = events := by
  rw [alone, run.outcome_symbol]
  exact ⟨rfl, run.journal_eq.trans (List.append_nil events)⟩

/-- What an untangled symbol is resolved to is its type by the graph alone. -/
theorem Untangled.exists_yields (huntangled : graph.Untangled id) :
    ∃ type, (graph.alone id).1 = .ok type ∧ graph.Yields id type := by
  obtain ⟨result, events, after, run⟩ :=
    (Task.symbol id).exists_run (.start graph Profile.unbounded.limits)
  obtain ⟨hresult, hjournal⟩ := alone_eq run
  obtain ⟨⟨type, htype⟩, hkept⟩ := huntangled
  rw [hjournal] at hkept
  obtain rfl : result = .ok type := hresult.symm.trans htype
  have hself : ∀ other, (none : Option SymbolId) = some other →
      other ∈ (Pass.start graph Profile.unbounded.limits).guard.stack := nofun
  have hregion : graph.Confines Set.univ := fun _ _ _ _ => trivial
  exact ⟨type, htype, (run.yields hregion trivial (.refl graph _) hself (fun _ hopen => by cases hopen)
    hkept).1⟩

end Graph

end DeferredTypes
