import DeferredTypes.Proofs.Budget
import DeferredTypes.Proofs.Evaluation
import DeferredTypes.Proofs.LowLink

/-! Where no symbol depends on itself, what has been asked before does not show in an answer. Every cut
is then onto a symbol that was opened from the outside, so whatever a resolution keeps was found without
a cut, and this is the value of the symbol in the graph as it was at first. -/

namespace DeferredTypes

/-- The later graph has the symbols of the first, some of which have got the types that these evaluate
to in the first. -/
structure Graph.Advanced (graph later : Graph) : Prop where
  same : graph.SameSymbols later
  types : ∀ id, later.get? id = graph.get? id ∨
    ∃ type, later.get? id = some type ∧ type.Final ∧ graph.evaluate id = .ok type

namespace Graph.Advanced

variable {graph later : Graph} {id : SymbolId} {type : Ty}

theorem refl (graph : Graph) : graph.Advanced graph := ⟨.refl graph, fun _ => Or.inl rfl⟩

theorem get?_of_none (hadvanced : graph.Advanced later) (hget : later.get? id = none) :
    graph.get? id = none := by
  rcases hadvanced.types id with hsame | ⟨type, htype, -⟩
  · exact hsame.symm.trans hget
  · cases hget.symm.trans htype

theorem get?_of_pending (hadvanced : graph.Advanced later) (hget : later.get? id = some type)
    (hpending : type.containsReference = true) : graph.get? id = some type := by
  rcases hadvanced.types id with hsame | ⟨found, hfound, hfinal, -⟩
  · exact hsame.symm.trans hget
  · obtain rfl := Option.some.inj (hget.symm.trans hfound)
    exact absurd hpending (Bool.eq_false_iff.mp hfinal)

/-- A final type in the later graph is the value of its symbol in the first. -/
theorem evaluate_of_final (hadvanced : graph.Advanced later) (hget : later.get? id = some type)
    (hfinal : type.Final) : graph.evaluate id = .ok type := by
  rcases hadvanced.types id with hsame | ⟨found, hfound, -, hvalue⟩
  · exact Graph.evaluate_of_final (hsame.symm.trans hget) hfinal
  · obtain rfl := Option.some.inj (hget.symm.trans hfound)
    exact hvalue

theorem set {before : Ty} (hadvanced : graph.Advanced later) (hget : later.get? id = some before)
    (hfinal : type.Final) (hvalue : graph.evaluate id = .ok type) :
    graph.Advanced (later.set id type) where
  same := hadvanced.same.trans (.set later id type)
  types other := by
    by_cases hother : other = id
    · subst hother
      exact Or.inr ⟨type, get?_set_self hget type, hfinal, hvalue⟩
    · rw [get?_set_of_ne hother]
      exact hadvanced.types other

end Graph.Advanced

namespace Task

/-- The result of a task by the evaluator. -/
def value (graph : Graph) : Task → Except Halt Ty
  | .symbol id => graph.evaluate id
  | .inquiry questions => questions.evaluate graph graph.evaluate

/-- These symbols depend on all that the task asks for. -/
def AskedBy (graph : Graph) (top : List SymbolId) : Task → Prop
  | .symbol id => ∀ other ∈ top, Relation.TransGen graph.DependsOn other id
  | .inquiry questions => questions.Meets
      (fun path => ∀ id, graph.lookup path = some id →
        ∀ other ∈ top, Relation.TransGen graph.DependsOn other id)
      (fun _ => True) fun _ => True

theorem askedBy_ofTy {graph : Graph} {top : List SymbolId} {id : SymbolId} {type : Ty}
    (hget : graph.get? id = some type) (htop : (Task.symbol id).AskedBy graph top) :
    (Task.inquiry (.ofTy type)).AskedBy graph (top ++ [id]) := by
  refine Inquiry.meets_mentions fun path hpath next hlookup other hother => ?_
  have hdepends : graph.DependsOn id next := ⟨type, path, hget, hpath, hlookup⟩
  rcases List.mem_append.mp hother with hother | hother
  · exact (htop other hother).tail hdepends
  · rw [List.mem_singleton.mp hother]
    exact .single hdepends

end Task

/-- Over a graph without cycles a run keeps only what the evaluator gives. If it makes no cut onto the
symbols that were opened from the outside, it ends with what the evaluator gives, unless it is
aborted. -/
theorem Task.Runs.advanced {graph : Graph} (hacyclic : graph.Acyclic) {task : Task} {pass after : Pass}
    {result : Except Halt Ty} {events : List Event} (run : task.Runs pass result events after)
    (hpass : graph.Advanced pass.graph) {below top : List SymbolId}
    (hstack : pass.guard.stack = below ++ top) (htask : task.AskedBy graph top) :
    graph.Advanced after.graph ∧
      (events.any (Event.cutsOnto below) = false → result = task.value graph ∨ Aborted result) := by
  induction run generalizing top with
  | @cut pass id position hposition =>
      refine ⟨hpass, fun hcuts => ?_⟩
      have hopen := Guard.mem_of_position? hposition
      rw [hstack, List.mem_append] at hopen
      rcases hopen with hbelow | htop
      · simp [Event.cutsOnto, hbelow] at hcuts
      · -- A symbol that the run itself has opened depends on what is asked for now.
        exact absurd (htask id htop) (hacyclic id)
  | unallocated _ hget =>
      exact ⟨hpass, fun _ => Or.inl (Graph.evaluate_of_none (hpass.get?_of_none hget)).symm⟩
  | recalled _ hget hfinal =>
      exact ⟨hpass, fun _ => Or.inl (hpass.evaluate_of_final hget hfinal).symm⟩
  | exhausted => exact ⟨hpass, fun _ => Or.inr trivial⟩
  | @walked pass id type result events inside hwaits _ hwalk ih =>
      have hget := hpass.get?_of_pending hwaits.get hwaits.pending
      have hopened : (pass.opened id).guard.stack = below ++ (top ++ [id]) := by
        rw [← List.append_assoc, ← hstack]
        rfl
      have hvalue : (Task.inquiry (.ofTy type)).value graph = graph.evaluate id := by
        rw [value, Inquiry.evaluate_ofTy, Graph.evaluate_of_pending hacyclic hget hwaits.pending]
      obtain ⟨hinside, hresult⟩ := ih hpass hopened (askedBy_ofTy hget htask)
      rw [hvalue] at hresult
      rw [Pass.any_cutsOnto_closing]
      refine ⟨?_, hresult⟩
      rcases pass.write_settled inside id result with ⟨hgraph, -⟩ | ⟨found, rfl, hgraph, -, hlink⟩
      · rw [hgraph]
        exact hinside
      · -- What is written was found without a cut onto the stack, so it is the value of the symbol.
        rw [hwalk.closesBelow_iff, hstack, Bool.not_eq_true] at hlink
        have hcuts : events.any (Event.cutsOnto below) = false := by
          refine Bool.eq_false_iff.mpr fun hcut => Bool.eq_false_iff.mp hlink ?_
          exact Event.any_cutsOnto_of_subset (List.subset_append_left _ _) hcut
        have hfound : graph.evaluate id = .ok found :=
          (hresult hcuts).elim Eq.symm fun haborted => haborted.elim
        rw [hgraph]
        exact hinside.set (get?_of_walk hwaits hwalk)
          (hwalk.final (.ofTy _) rfl) hfound
  | answer => exact ⟨hpass, fun _ => Or.inl rfl⟩
  | refuse => exact ⟨hpass, fun _ => Or.inl rfl⟩
  | missing hlookup _ ih =>
      rw [hpass.same.lookup_eq] at hlookup
      obtain ⟨hafter, hresult⟩ := ih hpass hstack (htask.2 none fun _ _ => trivial)
      refine ⟨hafter, fun hcuts => ?_⟩
      rw [List.any_append, Bool.or_eq_false_iff] at hcuts
      rw [value, Inquiry.evaluate_ask_of_none hlookup]
      exact hresult hcuts.1
  | halted hlookup _ ih =>
      rw [hpass.same.lookup_eq] at hlookup
      obtain ⟨hafter, hresult⟩ := ih hpass hstack (htask.1 _ hlookup)
      refine ⟨hafter, fun hcuts => (hresult hcuts).imp_left fun hvalue => ?_⟩
      rw [value] at hvalue
      rw [value, Inquiry.evaluate_ask_of_some hlookup, ← hvalue]
      rfl
  | found hlookup hsymbol _ ihsymbol ihrest =>
      rw [hpass.same.lookup_eq] at hlookup
      obtain ⟨hmiddle, hfound⟩ := ihsymbol hpass hstack (htask.1 _ hlookup)
      obtain ⟨hafter, hresult⟩ := ihrest hmiddle ((hsymbol.stack_eq (not_faulty_ok _)).trans hstack)
        (htask.2 _ fun _ _ => trivial)
      refine ⟨hafter, fun hcuts => ?_⟩
      rw [List.any_append, Bool.or_eq_false_iff] at hcuts
      have hvalue := (hfound hcuts.2).resolve_right fun haborted => haborted
      rw [value] at hvalue
      rw [value, Inquiry.evaluate_ask_of_some hlookup, ← hvalue]
      exact hresult hcuts.1

namespace Resolver

variable {graph : Graph} {resolver later : Resolver}

/-- Without cycles a step writes the values of symbols only. -/
theorem Step.advanced (hacyclic : graph.Acyclic) (step : resolver.Step later)
    (hresolver : graph.Advanced resolver.graph) : graph.Advanced later.graph := by
  cases step with
  | missed path | limited profile => exact hresolver
  | @resolved pass id _ _ _ hgraph run =>
      have htask : (Task.symbol id).AskedBy graph [] := fun _ h => by cases h
      exact (run.advanced hacyclic (hgraph ▸ hresolver) (List.append_nil _).symm htask).1
  | @replaced pass type _ _ _ hgraph run =>
      have htask : (Task.inquiry (.ofTy type)).AskedBy graph [] :=
        Inquiry.meets_mentions fun _ _ _ _ _ h => by cases h
      exact (run.advanced hacyclic (hgraph ▸ hresolver) (List.append_nil _).symm htask).1

theorem Reaches.advanced (hacyclic : graph.Acyclic) (steps : resolver.Reaches later)
    (hresolver : graph.Advanced resolver.graph) : graph.Advanced later.graph := by
  induction steps with
  | refl => exact hresolver
  | tail _ step ih => exact step.advanced hacyclic ih

/-- Over a graph that has come from one without cycles, a request without a budget gives the value. -/
theorem tryResolve_of_advanced (hacyclic : graph.Acyclic) (hsize : graph.size ≤ maxCount)
    {advanced : Graph} (hadvanced : graph.Advanced advanced) (stats : Stats) (id : SymbolId) :
    (outcome (tryResolve id) ⟨advanced, .unbounded, stats⟩).1 = graph.evaluate id := by
  obtain ⟨result, events, after, run⟩ :=
    (Task.symbol id).exists_run (.start advanced Profile.unbounded.limits)
  have houtcome : outcome (tryResolve id) ⟨advanced, .unbounded, stats⟩ = _ := outcome_tryResolve run
  have htask : (Task.symbol id).AskedBy graph [] := fun _ h => by cases h
  rw [houtcome]
  exact ((run.advanced hacyclic hadvanced rfl htask).2 (Event.any_cutsOnto_nil events)).resolve_right
    (run.not_aborted (.start (hadvanced.same.size ▸ hsize)))

/-- **Answers do not depend on the order of the requests.** Over a graph without cycles, of no more
symbols than a count can hold, let anything be asked for, with whatever limits and answers. A request
without a budget then gives, for every symbol, what it would have given at first: the type or the error
that the evaluator gives, which keeps nothing. -/
theorem tryResolve_order_independent (graph : Graph) (hacyclic : graph.Acyclic)
    (hsize : graph.size ≤ maxCount) (profile : Profile) (stats : Stats)
    (requests : List (Profile × Call)) (id : SymbolId) :
    let later := performAll ⟨graph, profile, stats⟩ requests
    (outcome (tryResolve id) { later with profile := .unbounded }).1 = graph.evaluate id ∧
      (outcome (tryResolve id) ⟨graph, .unbounded, stats⟩).1 = graph.evaluate id := by
  intro later
  have hlater : graph.Advanced later.graph :=
    Reaches.advanced hacyclic (reaches_performAll _ requests) (.refl graph)
  exact ⟨tryResolve_of_advanced hacyclic hsize hlater _ id,
    tryResolve_of_advanced hacyclic hsize (.refl graph) stats id⟩

/-- A function that calls a method of what another one makes. After an aborted request, one from within
the method and one that fails, the answer is the literal that the method hands on. -/
theorem tryResolve_order_independent_method :
    let graph := (((Graph.empty.append (.function "size") (.returning (.literal (.int 7)))).append
      (.method "Box" "get") (.returning (.call (.function "size")))).append
      (.function "make") (.returning (.object "Box"))).append
      (.function "main") (.reference (.function "make") [.callResult, .memberCall "get"])
    let requests := [(Profile.custom 1 9, Call.resolveAll),
      (.unbounded, .tryResolveTypeWithin (.call (.function "main")) [1]),
      (.interactive, .tryResolveTypeWithin (.union []) [])]
    let later := performAll ⟨graph, .interactive, {}⟩ requests
    graph.Acyclic ∧ graph.size ≤ maxCount ∧ graph.evaluate 3 = .ok (.literal (.int 7)) ∧
      (outcome (tryResolve 3) { later with profile := .unbounded }).1 = .ok (.literal (.int 7)) := by
  intro graph requests later
  have hacyclic : graph.Acyclic := Graph.acyclic_of_rank (fun id => id) (by decide +kernel)
  have hvalue : graph.evaluate 3 = .ok (.literal (.int 7)) := by decide +kernel
  have hsize : graph.size ≤ maxCount := by decide
  refine ⟨hacyclic, hsize, hvalue, ?_⟩
  rw [(tryResolve_order_independent graph hacyclic hsize .interactive {} requests 3).1, hvalue]

end Resolver

end DeferredTypes
