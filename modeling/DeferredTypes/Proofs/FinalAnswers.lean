import DeferredTypes.Proofs.WriteOnce

/-! Everything that a resolver hands out is final. A type comes from a run, from a look-up or from a
failure that was degraded, and none of these leaves a reference in it. The type handed out for a symbol
is the one that the graph holds from then on, and once a request for all symbols has ended well, none
of them waits. -/

namespace DeferredTypes

/-- The tasks that requests are made of: a symbol, or a walk through a type. -/
inductive Task.Asked : Task → Prop
  | symbol (id : SymbolId) : Asked (.symbol id)
  | type (asked : Ty) : Asked (.inquiry (.ofTy asked))

theorem Task.Asked.handsOutFinal {task : Task} (htask : task.Asked) : task.HandsOutFinal := by
  cases htask with
  | symbol id => trivial
  | type asked => exact .ofTy asked

namespace Resolver

variable {resolver : Resolver}

/-- The type was found for a symbol or for a type, or it is unknown. -/
def Finds (resolver : Resolver) (type : Ty) : Prop :=
  (∃ id, (outcome (tryResolve id) resolver).1 = .ok type) ∨
    (∃ asked visiting, (outcome (tryResolveTypeWithin asked visiting) resolver).1 = .ok type) ∨
    type = .unknown

theorem finds_of_degrade {request : Resolving Ty} {type : Ty}
    (hrequest : (outcome request resolver).1 = .ok type → resolver.Finds type)
    (hresult : (outcome (degrade request) resolver).1 = .ok type) : resolver.Finds type := by
  rw [degrade, outcome_tryCatch] at hresult
  rcases houtcome : outcome request resolver with ⟨(error | fault) | found, after⟩
  · rw [houtcome] at hresult
    exact Or.inr (Or.inr (Except.ok.inj hresult).symm)
  · rw [houtcome] at hresult
    cases hresult
  · rw [houtcome] at hresult
    apply hrequest
    rw [houtcome]
    exact hresult

theorem finds_of_resolve {id : SymbolId} {type : Ty}
    (hresult : (outcome (resolve id) resolver).1 = .ok type) : resolver.Finds type :=
  finds_of_degrade (fun h => Or.inl ⟨id, h⟩) hresult

theorem finds_of_resolvePath {path : Path} {type : Ty}
    (hresult : (outcome (resolvePath path) resolver).1 = .ok type) : resolver.Finds type := by
  rw [resolvePath, outcome_get_bind] at hresult
  cases hlookup : resolver.graph.lookup path with
  | some id =>
      rw [hlookup] at hresult
      exact finds_of_resolve hresult
  | none =>
      rw [hlookup] at hresult
      exact Or.inr (Or.inr (Except.ok.inj hresult).symm)

/-- An answer that is a type comes from a request for a type. -/
theorem ok_of_map {request : Resolving Ty} {type : Ty}
    (hresult : (outcome (some <$> request) resolver).1 = .ok (some type)) :
    (outcome request resolver).1 = .ok type := by
  rw [outcome_map] at hresult
  rcases houtcome : outcome request resolver with ⟨halt | found, after⟩
  · rw [houtcome] at hresult
    cases hresult
  · rw [houtcome] at hresult
    obtain rfl : found = type := Option.some.inj (Except.ok.inj hresult)
    rfl

theorem no_type_of_unit {request : Resolving Unit} {type : Ty} :
    (outcome (request >>= fun _ => pure none) resolver).1 ≠ .ok (some type) := by
  intro hresult
  rw [outcome_bind] at hresult
  rcases houtcome : outcome request resolver with ⟨halt | _, after⟩
  · rw [houtcome] at hresult
    cases hresult
  · rw [houtcome] at hresult
    cases hresult

/-- Whatever was asked, a type in the answer was found for a symbol or for a type, or is unknown. -/
theorem finds_of_answer {call : Call} {type : Ty}
    (hresult : (outcome call.answer resolver).1 = .ok (some type)) : resolver.Finds type := by
  cases call with
  | resolve id => exact finds_of_resolve (ok_of_map hresult)
  | tryResolve id => exact Or.inl ⟨id, ok_of_map hresult⟩
  | resolvePath path => exact finds_of_resolvePath (ok_of_map hresult)
  | resolveAll => exact absurd hresult no_type_of_unit
  | tryResolveAll => exact absurd hresult no_type_of_unit
  | resolveType asked =>
      exact finds_of_degrade (fun h => Or.inr (Or.inl ⟨asked, [], h⟩)) (ok_of_map hresult)
  | tryResolveTypeWithin asked visiting => exact Or.inr (Or.inl ⟨asked, visiting, ok_of_map hresult⟩)

/-- A type found is the result of a run, or it is unknown. -/
theorem exists_run_of_finds {type : Ty} (hfinds : resolver.Finds type) :
    type = .unknown ∨ ∃ task pass events after, Task.Asked task ∧ pass.graph = resolver.graph ∧
      task.Runs pass (.ok type) events after := by
  rcases hfinds with ⟨id, hresult⟩ | ⟨asked, visiting, hresult⟩ | rfl
  · right
    obtain ⟨result, events, after, run⟩ :=
      (Task.symbol id).exists_run (.start resolver.graph resolver.profile.limits)
    rw [outcome_tryResolve run] at hresult
    obtain rfl : result = .ok type := hresult
    exact ⟨_, _, _, _, .symbol id, rfl, run⟩
  · right
    obtain ⟨opened, seeded, hseeded, -, ⟨-, halt, houtcome⟩ | ⟨result, events, after, run, houtcome⟩⟩ :=
      outcome_tryResolveTypeWithin asked visiting resolver
    · rw [houtcome] at hresult
      cases hresult
    · rw [houtcome] at hresult
      obtain rfl : result = .ok type := hresult
      exact ⟨_, _, _, _, .type asked, hseeded.graph, run⟩
  · exact Or.inl rfl

/-- Whatever is called, a type that is handed out is final. -/
theorem final_of_answer {call : Call} {type : Ty}
    (hresult : (outcome call.answer resolver).1 = .ok (some type)) : type.Final := by
  obtain rfl | ⟨task, pass, events, after, htask, -, run⟩ := exists_run_of_finds (finds_of_answer hresult)
  · rfl
  · exact run.final htask.handsOutFinal rfl

/-! ### All symbols -/

/-- Asks for some symbols in order, up to the first error. -/
def tryResolveEach (ids : List SymbolId) : Resolving Unit := ids.forM fun id => discard (tryResolve id)

theorem leads_tryResolveEach (ids : List SymbolId) : Leads (tryResolveEach ids) :=
  .forM fun id => (leads_tryResolve id).map _

/-- If a round over some symbols meets no error, all of them have got final types. -/
theorem final_of_tryResolveEach (ids : List SymbolId) (resolver : Resolver)
    (hresult : (outcome (tryResolveEach ids) resolver).1 = .ok ()) :
    ∀ id ∈ ids, ∃ type,
      (outcome (tryResolveEach ids) resolver).2.graph.get? id = some type ∧ type.Final := by
  induction ids generalizing resolver with
  | nil =>
      intro id hid
      cases hid
  | cons first rest ih =>
      have hcons : tryResolveEach (first :: rest) =
          ((fun _ => ()) <$> tryResolve first) >>= fun _ => tryResolveEach rest := rfl
      rw [hcons, outcome_bind, outcome_map] at hresult ⊢
      rcases houtcome : outcome (tryResolve first) resolver with ⟨halt | type, middle⟩
      · rw [houtcome] at hresult
        cases hresult
      · rw [houtcome] at hresult
        have hok : (outcome (tryResolve first) resolver).1 = .ok type := by rw [houtcome]
        obtain ⟨hget, hfinal⟩ := get?_of_outcome_ok hok
        rw [houtcome] at hget
        intro id hid
        rcases List.mem_cons.mp hid with rfl | hid
        · -- What is final after the first request stays so during the others.
          exact ⟨type, (leads_tryResolveEach rest middle).get?_of_final hget hfinal, hfinal⟩
        · exact ih middle hresult id hid

end Resolver

theorem Graph.Finalization.sameSymbols {first second : Graph} {writes : List (SymbolId × Ty)}
    (h : first.Finalization writes second) : first.SameSymbols second := by
  induction h with
  | none => exact .refl _
  | write _ _ _ _ ih => exact (SameSymbols.set _ _ _).trans ih

namespace Resolver

/-- After a round over all symbols without errors, nothing waits any more. -/
theorem pending_of_tryResolveAll (resolver : Resolver)
    (hresult : (outcome tryResolveAll resolver).1 = .ok ()) :
    (outcome tryResolveAll resolver).2.graph.pending = [] := by
  have hall : outcome tryResolveAll resolver = outcome (tryResolveEach resolver.graph.ids) resolver := rfl
  rw [hall] at hresult ⊢
  obtain ⟨writes, hwrites, -⟩ := (leads_tryResolveEach resolver.graph.ids resolver).finalization
  apply List.eq_nil_iff_forall_not_mem.mpr
  intro id hid
  obtain ⟨type, hget, hpending⟩ := Graph.mem_pending.mp hid
  have hids : id ∈ resolver.graph.ids := by
    rw [← hwrites.sameSymbols.ids_eq]
    exact List.mem_range.mpr (Graph.lt_size_of_get? hget)
  obtain ⟨found, hfound, hfinal⟩ := final_of_tryResolveEach _ resolver hresult id hids
  obtain rfl := Option.some.inj (hget.symm.trans hfound)
  exact Bool.false_ne_true (hfinal.symm.trans hpending)

/-- **Everything handed out is final.** Whatever a resolver is asked, over any graph and with any
limits, a type in the answer has no references; a type handed out for a symbol by a request that shows
its errors is the one that the graph holds for the symbol afterwards; and if a request for all symbols
ends without an error, no symbol waits. -/
theorem answers_final (resolver : Resolver) :
    (∀ call type, (outcome (Call.answer call) resolver).1 = .ok (some type) →
      type.containsReference = false) ∧
    (∀ id type, (outcome (tryResolve id) resolver).1 = .ok type →
      (outcome (tryResolve id) resolver).2.graph.get? id = some type) ∧
    ((outcome tryResolveAll resolver).1 = .ok () →
      (outcome tryResolveAll resolver).2.graph.pending = []) := by
  refine ⟨?_, ?_, ?_⟩
  · intro call type hresult
    exact final_of_answer hresult
  · intro id type hresult
    exact (get?_of_outcome_ok hresult).1
  · exact pending_of_tryResolveAll resolver

/-- A union of references, one of them nested in an array, asked for from within one of two functions
that call each other; then one of these, and then all symbols. -/
theorem answers_final_mutual :
    let graph := (Graph.empty.append (.function "even") (.call (.function "odd"))).append
      (.function "odd") (.union [.call (.function "even"), .literal .null])
    let resolver : Resolver := ⟨graph, .interactive, {}⟩
    let type := Ty.union [.list [.call (.function "even")], .call (.function "odd")]
    let found := Ty.union [.unknown, .list [.unknown], .literal .null]
    let kept := Ty.union [.unknown, .literal .null]
    (outcome (Call.answer (.tryResolveTypeWithin type [0])) resolver).1 = .ok (some found) ∧
    found.containsReference = false ∧
    (outcome (tryResolve 0) resolver).1 = .ok kept ∧
    (outcome (tryResolve 0) resolver).2.graph.get? 0 = some kept ∧
    (outcome tryResolveAll resolver).1 = .ok () ∧
    (outcome tryResolveAll resolver).2.graph.pending = [] := by
  intro graph resolver type found kept
  have hwithin : (outcome (Call.answer (.tryResolveTypeWithin type [0])) resolver).1 =
      .ok (some found) := by decide +kernel
  have hsymbol : (outcome (tryResolve 0) resolver).1 = .ok kept := by decide +kernel
  have hall : (outcome tryResolveAll resolver).1 = .ok () := by decide +kernel
  obtain ⟨hfinal, hget, hpending⟩ := answers_final resolver
  exact ⟨hwithin, hfinal _ _ hwithin, hsymbol, hget _ _ hsymbol, hall, hpending hall⟩

end Resolver

end DeferredTypes
