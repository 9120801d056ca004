import DeferredTypes.Proofs.WriteOnce

/-! What a walk finds depends on the symbols that were open before it only through the cuts onto them.
Two runs of one task over one graph, from stacks that differ in the symbols at the bottom, agree step by
step as long as no cut tells these apart. A symbol whose type is kept has seen no such cut, so the type
is the one that a resolution of its own would have found. -/

namespace DeferredTypes

namespace Event

theorem any_cutsOnto_unplaced (events : List Event) (ids : List SymbolId) :
    (events.map unplaced).any (cutsOnto ids) = events.any (cutsOnto ids) := by
  rw [List.any_map]
  congr 1
  funext event
  cases event <;> rfl

/-- The cuts of these events onto one set of symbols are onto the other. -/
def CutsWithin (events : List Event) (below kept : List SymbolId) : Prop :=
  ∀ id position, .cut id position ∈ events → id ∈ below → id ∈ kept

theorem CutsWithin.of_subset {events part : List Event} {below kept : List SymbolId}
    (hcuts : CutsWithin events below kept) (hpart : part ⊆ events) : CutsWithin part below kept :=
  fun id position hcut => hcuts id position (hpart hcut)

/-- Cuts that do not tell two stacks apart are onto both or onto neither. -/
theorem CutsWithin.any_iff {events : List Event} {below kept : List SymbolId}
    (hcuts : CutsWithin events below kept) (hsubset : kept ⊆ below) (top : List SymbolId) :
    events.any (cutsOnto (kept ++ top)) = true ↔ events.any (cutsOnto (below ++ top)) = true := by
  constructor
  · refine any_cutsOnto_of_subset fun id hid => ?_
    rw [List.mem_append] at hid ⊢
    exact hid.imp_left fun h => hsubset h
  · intro hany
    rw [List.any_eq_true] at hany ⊢
    obtain ⟨event, hevent, hcut⟩ := hany
    refine ⟨event, hevent, ?_⟩
    cases event with
    | cut id position =>
        simp only [cutsOnto, decide_eq_true_eq, List.mem_append] at hcut ⊢
        exact hcut.imp_left (hcuts id position hevent)
    | seeded | walked | left | recalled | missing | stored | provisional => cases hcut

end Event

namespace Pass

/-- Two states over one graph, without a budget, whose stacks differ only at the bottom. -/
structure Shadows (below kept top : List SymbolId) (left right : Pass) : Prop where
  graph : right.graph = left.graph
  stack : left.guard.stack = below ++ top
  stack' : right.guard.stack = kept ++ top
  limits : left.guard.limits = Profile.unbounded.limits
  limits' : right.guard.limits = Profile.unbounded.limits

namespace Shadows

variable {below kept top : List SymbolId} {left right : Pass} {id : SymbolId}

theorem opened (shadows : Shadows below kept top left right) (id : SymbolId) :
    Shadows below kept (top ++ [id]) (left.opened id) (right.opened id) where
  graph := shadows.graph
  stack := by
    change left.guard.stack ++ [id] = _
    rw [shadows.stack, List.append_assoc]
  stack' := by
    change right.guard.stack ++ [id] = _
    rw [shadows.stack', List.append_assoc]
  limits := shadows.limits
  limits' := shadows.limits'

theorem record (shadows : Shadows below kept top left right) (event : Event) :
    Shadows below kept top (left.record event) (right.record event) :=
  ⟨shadows.graph, shadows.stack, shadows.stack', shadows.limits, shadows.limits'⟩

theorem not_mem (shadows : Shadows below kept top left right) (hsubset : kept ⊆ below)
    (hid : id ∉ left.guard.stack) : id ∉ right.guard.stack := by
  rw [shadows.stack, List.mem_append] at hid
  rw [shadows.stack', List.mem_append]
  exact fun h => hid (h.imp_left fun h => hsubset h)

theorem waits (shadows : Shadows below kept top left right) (hsubset : kept ⊆ below) {type : Ty}
    (hwaits : left.Waits id type) : right.Waits id type :=
  ⟨shadows.not_mem hsubset hwaits.closed, by rw [shadows.graph, hwaits.get], hwaits.pending⟩

/-- There is room above the shorter stack if there is above the longer one. -/
theorem admits (shadows : Shadows below kept top left right) (hlength : kept.length ≤ below.length)
    (hadmits : left.guard.Admits) : right.guard.Admits := by
  have hdepth := hadmits.2
  rw [Guard.depth, shadows.limits, shadows.stack, List.length_append] at hdepth
  refine ⟨?_, ?_⟩
  · rw [shadows.limits']
    exact Nat.min_le_right _ _
  · rw [Guard.depth, shadows.limits', shadows.stack', List.length_append]
    omega

end Shadows

/-- The end of a walk depends on the stack only through what is kept. -/
theorem settled_congr {before before' inside inside' : Pass} {id : SymbolId}
    {result : Except Halt Ty} (hgraph : inside'.graph = inside.graph)
    (hlink : ∀ type, result = .ok type →
      (inside'.ClosesBelow before'.guard.depth ↔ inside.ClosesBelow before.guard.depth)) :
    (before'.settled id result inside').graph = (before.settled id result inside).graph ∧
      before'.closing id result inside' = before.closing id result inside := by
  unfold settled closing
  rcases result with (error | fault) | type
  · exact ⟨hgraph, rfl⟩
  · exact ⟨hgraph, rfl⟩
  · dsimp only
    by_cases h : inside.ClosesBelow before.guard.depth
    · rw [if_pos h, if_pos h, if_pos ((hlink type rfl).mpr h), if_pos ((hlink type rfl).mpr h)]
      exact ⟨hgraph, rfl⟩
    · rw [if_neg h, if_neg h, if_neg (mt (hlink type rfl).mp h), if_neg (mt (hlink type rfl).mp h)]
      refine ⟨?_, rfl⟩
      change inside'.graph.set id type = inside.graph.set id type
      rw [hgraph]

end Pass

namespace Task.Runs

variable {task : Task} {left after : Pass} {result : Except Halt Ty} {events : List Event}

/-- A run from the larger stack, if its cuts onto the bottom are onto the symbols that the smaller one
keeps there, is a run from the smaller stack. -/
theorem transfer {below kept : List SymbolId} (hsubset : kept ⊆ below)
    (hlength : kept.length ≤ below.length) (run : task.Runs left result events after)
    {top : List SymbolId} {right : Pass} (shadows : left.Shadows below kept top right)
    (hcuts : Event.CutsWithin events below kept) (hresult : ¬Aborted result) :
    ∃ events' after', task.Runs right result events' after' ∧
      events'.map Event.unplaced = events.map Event.unplaced ∧ after'.graph = after.graph := by
  induction run generalizing top right with
  | @cut pass id position hposition =>
      -- The only rule that looks at what is open: by assumption the cut is possible on both sides.
      have hmem := Guard.mem_of_position? hposition
      have hopen : id ∈ right.guard.stack := by
        rw [shadows.stack, List.mem_append] at hmem
        rw [shadows.stack', List.mem_append]
        exact hmem.imp_left (hcuts id position List.mem_cons_self)
      obtain ⟨position', hposition'⟩ := Guard.exists_position hopen
      exact ⟨_, _, .cut hposition', rfl, shadows.graph⟩
  | unallocated hclosed hget =>
      exact ⟨_, _, .unallocated (shadows.not_mem hsubset hclosed) (by rw [shadows.graph, hget]), rfl,
        shadows.graph⟩
  | recalled hclosed hget hfinal =>
      exact ⟨_, _, .recalled (shadows.not_mem hsubset hclosed) (by rw [shadows.graph, hget]) hfinal, rfl,
        shadows.graph⟩
  | exhausted => exact absurd trivial hresult
  | @walked pass id type result events inside hwaits hadmits hwalk ih =>
      have hinner : Event.CutsWithin events below kept := hcuts.of_subset fun event hevent =>
        List.mem_append_left _ (List.mem_append_right _ hevent)
      obtain ⟨events', inside', hwalk', hevents, hgraph⟩ := ih (shadows.opened id) hinner hresult
      have hany : ∀ ids, events'.any (Event.cutsOnto ids) = events.any (Event.cutsOnto ids) := by
        intro ids
        rw [← Event.any_cutsOnto_unplaced, hevents, Event.any_cutsOnto_unplaced]
      -- Whether the type is kept is a matter of the cuts, and these are the same.
      have hlink : ∀ found, result = .ok found →
          (inside'.ClosesBelow right.guard.depth ↔ inside.ClosesBelow pass.guard.depth) := by
        rintro found rfl
        rw [hwalk'.closesBelow_iff, hwalk.closesBelow_iff, hany, shadows.stack, shadows.stack']
        exact hinner.any_iff hsubset top
      obtain ⟨hsettled, hclosing⟩ := Pass.settled_congr hgraph hlink
      refine ⟨_, _, .walked (shadows.waits hsubset hwaits) (shadows.admits hlength hadmits) hwalk', ?_,
        hsettled⟩
      rw [hclosing]
      simp only [List.map_append, hevents]
      rfl
  | answer => exact ⟨_, _, .answer, rfl, shadows.graph⟩
  | refuse => exact ⟨_, _, .refuse, rfl, shadows.graph⟩
  | missing hlookup _ ih =>
      obtain ⟨events', after', hrest, hevents, hgraph⟩ := ih (shadows.record _)
        (hcuts.of_subset (List.subset_append_left _ _)) hresult
      refine ⟨_, _, .missing (by rw [shadows.graph, hlookup]) hrest, ?_, hgraph⟩
      rw [List.map_append, List.map_append, hevents]
  | halted hlookup _ ih =>
      obtain ⟨events', after', hsymbol, hevents, hgraph⟩ := ih shadows hcuts hresult
      exact ⟨_, _, .halted (by rw [shadows.graph, hlookup]) hsymbol, hevents, hgraph⟩
  | found hlookup hsymbol _ ihsymbol ihrest =>
      obtain ⟨first, middle, hsymbol', hfirst, hmiddle⟩ := ihsymbol shadows
        (hcuts.of_subset (List.subset_append_right _ _)) (fun h => h)
      have hshadows : Pass.Shadows below kept top _ middle :=
        ⟨hmiddle, by rw [hsymbol.stack_eq (not_faulty_ok _), shadows.stack],
          by rw [hsymbol'.stack_eq (not_faulty_ok _), shadows.stack'],
          by rw [hsymbol.limits_eq, shadows.limits],
          by rw [hsymbol'.limits_eq, shadows.limits']⟩
      obtain ⟨second, after', hrest, hsecond, hgraph⟩ := ihrest hshadows
        (hcuts.of_subset (List.subset_append_left _ _)) hresult
      refine ⟨_, _, .found (by rw [shadows.graph, hlookup]) hsymbol' hrest, ?_, hgraph⟩
      rw [List.map_append, List.map_append, hfirst, hsecond]

/-- The type of a symbol that waits is written exactly if its walk ends well and no event of the walk
cuts onto a symbol that was open before. -/
theorem stored_mem_iff {pass : Pass} {id : SymbolId} {type : Ty}
    (run : (Task.symbol id).Runs pass result events after) (hwaits : pass.Waits id type) :
    .stored id ∈ events ↔
      (∃ found, result = .ok found) ∧ events.any (Event.cutsOnto pass.guard.stack) = false := by
  cases run with
  | cut hposition => exact absurd (Guard.mem_of_position? hposition) hwaits.closed
  | unallocated _ hget => cases hget.symm.trans hwaits.get
  | recalled _ hget hfinal =>
      obtain rfl := Option.some.inj (hget.symm.trans hwaits.get)
      exact absurd hwaits.pending (Bool.eq_false_iff.mp hfinal)
  | exhausted => simp
  | @walked _ _ _ _ events inside _ _ hwalk =>
      rw [Pass.any_cutsOnto_closing]
      have hinner := hwalk.not_stored_of_open (.ofTy _)
        (List.mem_append_right _ (List.mem_singleton_self id))
      rw [List.append_assoc, List.mem_append, List.mem_append]
      rcases result with (error | fault) | found
      · simp [Pass.closing, hinner]
      · simp [Pass.closing, hinner]
      · rw [← Bool.not_eq_true, ← hwalk.closesBelow_iff]
        by_cases hlink : inside.ClosesBelow pass.guard.depth
        · simp [Pass.closing, hlink, hinner]
        · simp [Pass.closing, hlink]

end Task.Runs

/-- **A kept type does not depend on the stack.** Take a symbol that waits, asked for, without a budget,
from any stack of other open symbols. The call records a write of the symbol exactly if the graph that it
leaves has another type for the symbol. If it does, that is the type it hands out, and a request of its own
for the symbol, over the same graph, hands out the same type, leaves the same graph and counts the same. If
the call ends well and does not write the symbol, some cut closed onto a symbol that was open before. -/
theorem symbol_independent_of_stack (pass : Pass) (id : SymbolId) (type : Ty)
    (hlimits : pass.guard.limits = Profile.unbounded.limits) (hwaits : pass.Waits id type) :
    ∃ result events after, outcome (Walk.symbol id) pass = (result, after) ∧
      after.journal = events ++ pass.journal ∧
      (.stored id ∈ events ↔ after.graph.get? id ≠ pass.graph.get? id) ∧
      (.stored id ∈ events → ∃ found, result = .ok found ∧ after.graph.get? id = some found ∧ ∀ stats,
        outcome (Resolver.tryResolve id) ⟨pass.graph, .unbounded, stats⟩ =
          (.ok found, ⟨after.graph, .unbounded, stats.merge (Stats.ofJournal events)⟩)) ∧
      (∀ found, result = .ok found → .stored id ∉ events →
        ∃ target position, .cut target position ∈ events ∧ target ∈ pass.guard.stack) := by
  obtain ⟨result, events, after, run⟩ := (Task.symbol id).exists_run pass
  refine ⟨result, events, after, run.outcome_symbol, run.journal_eq, run.stored_mem_iff_get?_ne trivial,
    fun hstored => ?_, fun found hfound hstored => ?_⟩
  · obtain ⟨⟨found, rfl⟩, hcuts⟩ := (run.stored_mem_iff hwaits).mp hstored
    have hwithin : Event.CutsWithin events pass.guard.stack [] := by
      intro target position hcut htarget
      have := List.any_eq_false.mp hcuts _ hcut
      simp [Event.cutsOnto, htarget] at this
    have hshadows : pass.Shadows pass.guard.stack [] []
        (.start pass.graph Profile.unbounded.limits) :=
      ⟨rfl, (List.append_nil _).symm, rfl, hlimits, rfl⟩
    obtain ⟨events', after', run', hevents, hgraph⟩ :=
      run.transfer (List.nil_subset _) (Nat.zero_le _) hshadows hwithin fun h => h
    refine ⟨found, rfl, hgraph ▸ run'.get?_of_ok rfl, fun stats => ?_⟩
    have hstats : Stats.ofJournal events' = Stats.ofJournal events := by
      rw [← Stats.ofJournal_unplaced, hevents, Stats.ofJournal_unplaced]
    have hfresh : outcome (Resolver.tryResolve id) ⟨pass.graph, .unbounded, stats⟩ = _ :=
      Resolver.outcome_tryResolve run'
    rw [hfresh, Resolver.advance, hgraph, hstats]
  · have hcut : events.any (Event.cutsOnto pass.guard.stack) = true := by
      by_contra hcut
      exact hstored ((run.stored_mem_iff hwaits).mpr ⟨⟨found, hfound⟩, Bool.eq_false_iff.mpr hcut⟩)
    obtain ⟨event, hevent, hcut⟩ := List.any_eq_true.mp hcut
    cases event with
    | cut target position => exact ⟨target, position, hevent, by simpa [Event.cutsOnto] using hcut⟩
    | seeded | walked | left | recalled | missing | stored | provisional => cases hcut

/-- Two functions that call each other, asked for from within a third. The cut in the walk of the second
closes onto the first, so that one is provisional and the first is kept. -/
theorem symbol_independent_of_stack_mutual :
    let graph := ((Graph.empty.append (.function "even") (.call (.function "odd"))).append
      (.function "odd") (.call (.function "even"))).append (.function "main") (.call (.function "even"))
    let pass : Pass := ⟨graph, ⟨[2], 1, Profile.unbounded.limits⟩, none, [.walked 2 0]⟩
    pass.Waits 0 (.call (.function "odd")) ∧ .stored 0 ∈ (outcome (Walk.symbol 0) pass).2.journal ∧
    ∃ result events after, outcome (Walk.symbol 0) pass = (result, after) ∧
      after.journal = events ++ pass.journal ∧
      (.stored 0 ∈ events ↔ after.graph.get? 0 ≠ pass.graph.get? 0) ∧
      (.stored 0 ∈ events → ∃ found, result = .ok found ∧ after.graph.get? 0 = some found ∧ ∀ stats,
        outcome (Resolver.tryResolve 0) ⟨pass.graph, .unbounded, stats⟩ =
          (.ok found, ⟨after.graph, .unbounded, stats.merge (Stats.ofJournal events)⟩)) ∧
      (∀ found, result = .ok found → .stored 0 ∉ events →
        ∃ target position, .cut target position ∈ events ∧ target ∈ pass.guard.stack) := by
  intro graph pass
  have hwaits : pass.Waits 0 (.call (.function "odd")) := ⟨by decide, rfl, rfl⟩
  exact ⟨hwaits, by decide +kernel, symbol_independent_of_stack pass 0 _ rfl hwaits⟩

end DeferredTypes
