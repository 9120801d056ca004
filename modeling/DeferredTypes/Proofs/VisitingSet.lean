import Mathlib.Data.List.Dedup
import DeferredTypes.Proofs.Budget
import DeferredTypes.Proofs.Noninterference

/-! The symbols that a request takes as open are a set. Their order decides at which position a cut
closes, and with it the low links of all symbols opened above them. But each of these positions is below
every symbol that the run itself opens, so a cut onto any of them leaves the same types provisional. -/

namespace DeferredTypes

theorem Guard.mem_stack_of_cycle {κ : Type} [DecidableEq κ] {guard after : Guard κ} {key : κ}
    {position : Nat} (henter : guard.enter key = (.cycle position, after)) : key ∈ guard.stack := by
  by_contra hkey
  rw [enter_of_not_mem hkey] at henter
  split at henter
  · cases henter
  · split at henter <;> cases henter

namespace Walk

/-- If the budget suffices, all symbols that are to be open are on the stack then. -/
theorem subset_stack_of_seed {visiting opened : List SymbolId} {pass after : Pass}
    (hseed : outcome (seed visiting) pass = (.ok (opened, none), after)) :
    pass.guard.stack ⊆ after.guard.stack ∧ visiting ⊆ after.guard.stack := by
  induction visiting generalizing pass opened with
  | nil =>
      cases hseed
      exact ⟨List.Subset.refl _, List.nil_subset _⟩
  | cons id rest ih =>
      rw [seed, outcome_get_bind] at hseed
      rcases pass.guard.enter_cases id with ⟨-, henter⟩ | ⟨position, henter⟩ | ⟨-, henter | henter⟩
      · rw [henter] at hseed
        simp only [outcome_set_bind] at hseed
        change outcome (modify _ >>= _) _ = _ at hseed
        rw [outcome_modify_bind, outcome_bind] at hseed
        rcases hrest : outcome (seed rest) (Pass.record
          { pass with guard := { pass.guard.attempted with stack := pass.guard.stack ++ [id] } }
          (.seeded id)) with ⟨halt | ⟨more, denied⟩, middle⟩
        · rw [hrest] at hseed
          cases hseed
        · rw [hrest] at hseed
          cases hseed
          obtain ⟨hstack, hvisiting⟩ := ih hrest
          obtain ⟨hbelow, hid⟩ := List.append_subset.mp hstack
          exact ⟨hbelow, List.cons_subset.mpr ⟨hid List.mem_cons_self, hvisiting⟩⟩
      · have hid := Guard.mem_stack_of_cycle henter
        rw [henter] at hseed
        simp only [outcome_set_bind] at hseed
        obtain ⟨hstack, hvisiting⟩ := ih hseed
        exact ⟨hstack, List.cons_subset.mpr ⟨hstack hid, hvisiting⟩⟩
      · rw [henter] at hseed
        cases hseed
      · rw [henter] at hseed
        cases hseed

end Walk

/-- Without a budget, the symbols taken as open and those of the graph fit if a count can hold them. -/
theorem Pass.Seeded.fits {graph : Graph} {visiting opened : List SymbolId} {seeded : Pass}
    (hseeded : (Pass.start graph Profile.unbounded.limits).Seeded opened seeded)
    (hsubset : opened ⊆ visiting) (hroom : (visiting ∪ graph.ids).length ≤ maxCount) :
    seeded.Fits (visiting ∪ graph.ids) where
  limits := hseeded.limits
  nodup := hseeded.nodup
  stack id hid := by
    rw [hseeded.stack] at hid
    exact List.mem_union_iff.mpr (Or.inl (hsubset hid))
  graph := by
    rw [hseeded.graph]
    exact fun id hid => List.mem_union_iff.mpr (Or.inr hid)
  room := hroom

/-- A request without a budget begins here: the symbols that it takes as open, and no others, are on the
stack. -/
structure Pass.SeededBy (graph : Graph) (visiting : List SymbolId) (pass : Pass) : Prop where
  seed : outcome (Walk.seed visiting) (.start graph Profile.unbounded.limits) =
    (.ok (pass.guard.stack, none), pass)
  seeded : (Pass.start graph Profile.unbounded.limits).Seeded pass.guard.stack pass
  mem_iff : ∀ id, id ∈ pass.guard.stack ↔ id ∈ visiting

namespace Pass.SeededBy

variable {graph : Graph} {first second : List SymbolId} {pass pass' : Pass}

theorem fits (hpass : SeededBy graph first pass) (hroom : (first ∪ graph.ids).length < maxCount) :
    pass.Fits (first ∪ graph.ids) :=
  hpass.seeded.fits (fun id hid => (hpass.mem_iff id).mp hid) (Nat.le_of_lt hroom)

theorem shadows (hpass : SeededBy graph first pass) (hpass' : SeededBy graph second pass') :
    pass.Shadows pass.guard.stack pass'.guard.stack [] pass' where
  graph := hpass'.seeded.graph.trans hpass.seeded.graph.symm
  stack := (List.append_nil _).symm
  stack' := (List.append_nil _).symm
  limits := hpass.seeded.limits
  limits' := hpass'.seeded.limits

/-- Lists with the same elements lead to stacks with the same elements. -/
theorem mem_stack_iff (hpass : SeededBy graph first pass) (hpass' : SeededBy graph second pass')
    (hsame : ∀ id, id ∈ first ↔ id ∈ second) (id : SymbolId) :
    id ∈ pass'.guard.stack ↔ id ∈ pass.guard.stack := by
  rw [hpass'.mem_iff, hpass.mem_iff, hsame]

end Pass.SeededBy

namespace Resolver

/-- Without a budget, if a count can hold them, all symbols that are to be open are opened. -/
theorem exists_seededBy {graph : Graph} {visiting : List SymbolId}
    (hroom : (visiting ∪ graph.ids).length < maxCount) : ∃ seeded, Pass.SeededBy graph visiting seeded := by
  obtain ⟨opened, denied, seeded, hseed, hseeded, hsubset, hdenied⟩ :=
    Walk.outcome_seed visiting (.start graph Profile.unbounded.limits) List.nodup_nil
  have hfits := hseeded.fits hsubset (Nat.le_of_lt hroom)
  obtain rfl : seeded.guard.stack = opened := hseeded.stack
  cases denied with
  | some id => exact absurd (hdenied id rfl).2 (hfits.not_denied hroom)
  | none =>
      refine ⟨seeded, hseed, hseeded, fun id => ⟨fun hid => hsubset hid, fun hid => ?_⟩⟩
      exact (Walk.subset_stack_of_seed hseed).2 hid

/-- **The symbols taken as open are a set.** Without a budget, and with fewer symbols around than a count
can hold, two lists with the same elements, in whatever order and however often repeated, of the
graph or not, give the same request: the same result, the same graph and the same counts. No symbol of
the list is written. -/
theorem tryResolveTypeWithin_visiting_set (graph : Graph) (stats : Stats) (type : Ty)
    {first second : List SymbolId} (hsame : ∀ id, id ∈ first ↔ id ∈ second)
    (hroom : (first ∪ graph.ids).length < maxCount) :
    let resolver : Resolver := ⟨graph, .unbounded, stats⟩
    outcome (tryResolveTypeWithin type first) resolver =
      outcome (tryResolveTypeWithin type second) resolver ∧
    ∀ id ∈ first, (outcome (tryResolveTypeWithin type first) resolver).2.graph.get? id = graph.get? id := by
  intro resolver
  have hroom' : (second ∪ graph.ids).length < maxCount := by
    refine Nat.lt_of_le_of_lt (List.Subperm.length_le ?_) hroom
    refine List.subperm_of_subset (List.Nodup.union second List.nodup_range) fun id hid => ?_
    rwa [List.mem_union_iff, ← hsame, ← List.mem_union_iff] at hid
  obtain ⟨pass, hpass⟩ := exists_seededBy hroom
  obtain ⟨pass', hpass'⟩ := exists_seededBy hroom'
  obtain ⟨result, events, after, run⟩ := (Task.inquiry (.ofTy type)).exists_run pass
  have hopen := hpass.mem_stack_iff hpass' hsame
  have hsubset : pass'.guard.stack ⊆ pass.guard.stack := fun id hid => (hopen id).mp hid
  have hlength : pass'.guard.stack.length ≤ pass.guard.stack.length :=
    (List.subperm_of_subset hpass'.seeded.nodup hsubset).length_le
  -- Every cut onto an open symbol is possible on both sides, so the runs make the same steps.
  obtain ⟨events', after', run', hevents, hgraph⟩ := run.transfer hsubset hlength (hpass.shadows hpass')
    (fun id _ _ hid => (hopen id).mpr hid) (run.not_aborted_of_fits (hpass.fits hroom))
  have hfirst : outcome (tryResolveTypeWithin type first) resolver = _ :=
    outcome_tryResolveTypeWithin_of_run hpass.seeded type hpass.seed run
  have hsecond : outcome (tryResolveTypeWithin type second) resolver = _ :=
    outcome_tryResolveTypeWithin_of_run hpass'.seeded type hpass'.seed run'
  have hstats : Stats.ofJournal events' = Stats.ofJournal events := by
    rw [← Stats.ofJournal_unplaced, hevents, Stats.ofJournal_unplaced]
  refine ⟨?_, fun id hid => ?_⟩
  · rw [hfirst, hsecond, advance, advance, hgraph, hstats]
  · rw [hfirst]
    exact (run.get?_of_open (.ofTy type) ((hpass.mem_iff id).mpr hid)).trans
      (congrArg (Graph.get? · id) hpass.seeded.graph)

/-- Three functions that call one another; two of them, and a symbol that the graph has not, are taken as
open. The cuts close onto different positions of the two stacks. -/
theorem tryResolveTypeWithin_visiting_set_cycle :
    let graph := ((Graph.empty.append (.function "left") (.call (.function "middle"))).append
      (.function "right") (.call (.function "middle"))).append (.function "middle")
      (.union [.call (.function "left"), .call (.function "right"), .literal .null])
    let resolver : Resolver := ⟨graph, .unbounded, {}⟩
    let type := Ty.list [.call (.function "middle"), .call (.function "left")]
    (outcome (tryResolveTypeWithin type [0, 9, 1]) resolver).1 =
      .ok (.list [.union [.unknown, .unknown, .literal .null], .unknown]) ∧
    outcome (tryResolveTypeWithin type [0, 9, 1]) resolver =
      outcome (tryResolveTypeWithin type [1, 1, 0, 9, 0]) resolver ∧
    ∀ id ∈ [0, 9, 1],
      (outcome (tryResolveTypeWithin type [0, 9, 1]) resolver).2.graph.get? id = graph.get? id := by
  intro graph resolver type
  have hsame : ∀ id, id ∈ [0, 9, 1] ↔ id ∈ [1, 1, 0, 9, 0] := by
    intro id
    simp only [List.mem_cons, List.not_mem_nil, or_false]
    omega
  have hroom : ([0, 9, 1] ∪ graph.ids).length < maxCount := by decide +kernel
  exact ⟨by decide +kernel, tryResolveTypeWithin_visiting_set graph {} type hsame hroom⟩

end Resolver

end DeferredTypes
