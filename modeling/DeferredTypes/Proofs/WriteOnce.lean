import DeferredTypes.Proofs.LowLink
import DeferredTypes.Proofs.Requests

/-! Over any series of requests a symbol is written at most once, and what was written stays. The count
of writes and the symbols that wait add up to the same number throughout. A symbol that was handed out
by a request of its own is final, so that asking for it again is a look-up. -/

namespace DeferredTypes

namespace Task.Runs

variable {pass after : Pass} {events : List Event} {id : SymbolId}

/-- No cut closes onto an empty stack, so a symbol that is asked for from there is kept. -/
theorem get?_of_ok {type : Ty} (run : (Task.symbol id).Runs pass (.ok type) events after)
    (hstack : pass.guard.stack = []) : after.graph.get? id = some type := by
  generalize hresult : Except.ok type = result at run
  cases run with
  | cut hposition =>
      have hopen := Guard.mem_of_position? hposition
      rw [hstack] at hopen
      cases hopen
  | unallocated | exhausted => cases hresult
  | recalled _ hget _ =>
      cases hresult
      exact hget
  | @walked _ _ _ _ events inside hwaits _ hwalk =>
      subst hresult
      have hlink : ¬inside.ClosesBelow pass.guard.depth := by
        rw [hwalk.closesBelow_iff, hstack, Event.any_cutsOnto_nil]
        exact Bool.false_ne_true
      rw [Pass.settled, if_neg hlink]
      exact Graph.get?_set_self (get?_of_walk hwaits hwalk) type

/-- A symbol is open during its walk and is written only if the walk ends well. -/
theorem get?_of_error {halt : Halt} (run : (Task.symbol id).Runs pass (.error halt) events after) :
    after.graph.get? id = pass.graph.get? id := by
  generalize hresult : Except.error halt = result at run
  cases run with
  | cut | recalled => cases hresult
  | unallocated | exhausted => rfl
  | @walked _ _ _ _ events inside hwaits _ hwalk =>
      rcases pass.write_settled inside id result with ⟨hgraph, -⟩ | ⟨found, hfound, -⟩
      · rw [hgraph, get?_of_walk hwaits hwalk, hwaits.get]
      · cases hresult.trans hfound

end Task.Runs

namespace Resolver

variable {resolver : Resolver}

/-- A final symbol is looked up. -/
theorem outcome_tryResolve_of_final {id : SymbolId} {type : Ty}
    (hget : resolver.graph.get? id = some type) (hfinal : type.Final) :
    outcome (tryResolve id) resolver =
      (.ok type, { resolver with stats := resolver.stats.count (.recalled id) }) :=
  outcome_tryResolve (.recalled List.not_mem_nil hget hfinal)

/-- What a request for a symbol hands out is the final type of the symbol from then on. -/
theorem get?_of_outcome_ok {id : SymbolId} {type : Ty}
    (hresult : (outcome (tryResolve id) resolver).1 = .ok type) :
    (outcome (tryResolve id) resolver).2.graph.get? id = some type ∧ type.Final := by
  obtain ⟨result, events, after, run⟩ :=
    (Task.symbol id).exists_run (.start resolver.graph resolver.profile.limits)
  rw [outcome_tryResolve run] at hresult ⊢
  obtain rfl : result = .ok type := hresult
  exact ⟨run.get?_of_ok rfl, run.final trivial rfl⟩

/-- A resolution that fails writes no type for the symbol it was asked for. -/
theorem get?_of_outcome_error {id : SymbolId} {halt : Halt}
    (hresult : (outcome (tryResolve id) resolver).1 = .error halt) :
    (outcome (tryResolve id) resolver).2.graph.get? id = resolver.graph.get? id := by
  obtain ⟨result, events, after, run⟩ :=
    (Task.symbol id).exists_run (.start resolver.graph resolver.profile.limits)
  rw [outcome_tryResolve run] at hresult ⊢
  obtain rfl : result = .error halt := hresult
  exact run.get?_of_error

/-- **Symbols are written once.** Whatever is asked of a resolver, with whatever limits and answers: a
final type stays; the changes of the graph are writes that replace a type with references by a final
one; the writes counted are the symbols that wait no more; a symbol whose request fails keeps its type;
and a symbol that was handed out is handed out again, from then on, by a mere look-up. -/
theorem performAll_write_once (resolver : Resolver) (requests : List (Profile × Call)) :
    (∀ id type, resolver.graph.get? id = some type → type.Final →
      (resolver.performAll requests).graph.get? id = some type) ∧
    (∃ writes, resolver.graph.Finalization writes (resolver.performAll requests).graph ∧
      (resolver.performAll requests).stats.writes = resolver.stats.writes + writes.length) ∧
    (resolver.performAll requests).stats.writes + (resolver.performAll requests).graph.pending.length =
      resolver.stats.writes + resolver.graph.pending.length ∧
    (∀ id halt, (outcome (tryResolve id) resolver).1 = .error halt →
      (outcome (tryResolve id) resolver).2.graph.get? id = resolver.graph.get? id) ∧
    ∀ id type profile, (outcome (tryResolve id) resolver).1 = .ok type →
      let later := { (outcome (tryResolve id) resolver).2.performAll requests with profile }
      outcome (tryResolve id) later = (.ok type,
        { later with stats := { later.stats with memoHits := later.stats.memoHits + 1 } }) := by
  obtain ⟨writes, hwrites, hcount⟩ := (resolver.reaches_performAll requests).finalization
  refine ⟨fun id type => hwrites.get?_of_final, ⟨writes, hwrites, hcount⟩, ?_,
    fun id halt => get?_of_outcome_error, fun id type profile hresult => ?_⟩
  · have hlength := hwrites.length_pending
    omega
  · obtain ⟨hget, hfinal⟩ := get?_of_outcome_ok hresult
    exact outcome_tryResolve_of_final ((reaches_performAll _ requests).get?_of_final hget hfinal) hfinal

/-- Two functions that call each other: the first is final once it was handed out, whatever is asked
for next. -/
theorem performAll_write_once_mutual :
    let graph := (Graph.empty.append (.function "even") (.call (.function "odd"))).append
      (.function "odd") (.call (.function "even"))
    let resolver : Resolver := ⟨graph, .unbounded, {}⟩
    let requests := [(Profile.custom 0 0, Call.tryResolveAll),
      (.interactive, .tryResolveTypeWithin (.call (.function "odd")) [0])]
    let later := { (outcome (tryResolve 0) resolver).2.performAll requests with profile := .interactive }
    (outcome (tryResolve 0) resolver).1 = .ok .unknown ∧
    outcome (tryResolve 0) later = (.ok .unknown,
      { later with stats := { later.stats with memoHits := later.stats.memoHits + 1 } }) := by
  intro graph resolver requests later
  have hresult : (outcome (tryResolve 0) resolver).1 = .ok .unknown := by decide +kernel
  exact ⟨hresult, (performAll_write_once resolver requests).2.2.2.2 0 .unknown .interactive hresult⟩

end Resolver

end DeferredTypes
