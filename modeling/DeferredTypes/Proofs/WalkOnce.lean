import Mathlib.Data.List.Perm.Basic
import DeferredTypes.Proofs.FinalAnswers

/-! Walks and writes of a series of requests. A walk that ends well ends with a write, unless a cut made the
type that it found provisional. So as long as no cycle is cut the walks of all requests are the writes, and
since a symbol is written once, it is walked once. -/

namespace DeferredTypes

/-! ### The events of a run -/

namespace Event

def walked? : Event → Option SymbolId
  | .walked id _ => some id
  | _ => none

/-- The symbol whose walk has ended well, if the event says so: its type was kept or is provisional. -/
def settled? : Event → Option SymbolId
  | .stored id | .provisional id => some id
  | _ => none

def isCut : Event → Bool
  | .cut .. => true
  | _ => false

theorem isCut_of_cutsOnto {ids : List SymbolId} {event : Event} (hcut : event.cutsOnto ids = true) :
    event.isCut = true := by
  cases event with
  | cut => rfl
  | seeded | walked | left | recalled | missing | stored | provisional => cases hcut

theorem settled?_of_stored? {event : Event} {id : SymbolId} (hstored : event.stored? = some id) :
    event.settled? = some id := by
  cases event with
  | stored => exact hstored
  | seeded | walked | left | recalled | cut | missing | provisional => cases hstored

theorem length_stored?_le (events : List Event) :
    (events.filterMap stored?).length ≤ (events.filterMap settled?).length := by
  induction events with
  | nil => exact Nat.le_refl _
  | cons event rest ih =>
      rw [List.filterMap_cons, List.filterMap_cons]
      cases hstored : event.stored? with
      | some id =>
          rw [settled?_of_stored? hstored]
          exact Nat.succ_le_succ ih
      | none =>
          cases event.settled? with
          | some id => exact Nat.le_succ_of_le ih
          | none => exact ih

theorem filterMap_settled? {events : List Event} (hkept : ∀ id, .provisional id ∉ events) :
    events.filterMap settled? = events.filterMap stored? := by
  apply List.filterMap_congr
  intro event hevent
  cases event with
  | provisional id => exact absurd hevent (hkept id)
  | seeded | walked | left | recalled | cut | missing | stored => rfl

end Event

namespace Stats

theorem walks_ofJournal (events : List Event) :
    (ofJournal events).walks = (events.filterMap Event.walked?).length := by
  induction events with
  | nil => rfl
  | cons event rest ih =>
      rw [ofJournal_cons, merge, ih]
      cases event <;> simp [count, Event.walked?, List.filterMap_cons, Nat.add_comm]

theorem cyclesCut_ofJournal (events : List Event) :
    (ofJournal events).cyclesCut = events.countP Event.isCut := by
  induction events with
  | nil => rfl
  | cons event rest ih =>
      rw [ofJournal_cons, merge, ih]
      cases event <;> simp [count, Event.isCut, List.countP_cons, Nat.add_comm]

end Stats

/-- The end of a walk that ends well is one event, apart from the leaving of its symbol. -/
theorem Pass.closing_ok (before inside : Pass) (id : SymbolId) (type : Ty) :
    (before.closing id (.ok type) inside).filterMap Event.walked? = [] ∧
      (before.closing id (.ok type) inside).filterMap Event.settled? = [id] := by
  unfold closing
  dsimp only
  split <;> exact ⟨rfl, rfl⟩

namespace Task.Runs

variable {task : Task} {pass after : Pass} {result : Except Halt Ty} {events : List Event} {type : Ty}

/-- In a run that ends well every walk that begins ends well. -/
theorem walked_perm_settled (run : task.Runs pass (.ok type) events after) :
    (events.filterMap Event.walked?).Perm (events.filterMap Event.settled?) := by
  generalize hresult : Except.ok type = result at run
  induction run generalizing type with
  | unallocated | exhausted | refuse | halted => cases hresult
  | cut | recalled | answer => exact .refl _
  | @walked pass id stored result events inside _ _ _ ih =>
      subst hresult
      obtain ⟨hwalked, hsettled⟩ := pass.closing_ok inside id type
      have hopening : [Event.walked id pass.guard.depth].filterMap Event.walked? = [id] := rfl
      have hnone : [Event.walked id pass.guard.depth].filterMap Event.settled? = [] := rfl
      rw [List.filterMap_append, List.filterMap_append, List.filterMap_append, List.filterMap_append,
        hwalked, hsettled, hopening, hnone, List.nil_append, List.append_nil]
      exact (List.perm_append_singleton id _).trans ((ih rfl).cons id)
  | missing _ _ ih =>
      rw [List.filterMap_append, List.filterMap_append]
      exact (ih hresult).append (.refl _)
  | found _ _ _ ihsymbol ihrest =>
      rw [List.filterMap_append, List.filterMap_append]
      exact (ihrest hresult).append (ihsymbol rfl)

/-- A type is provisional because of a cut. -/
theorem exists_isCut {id : SymbolId} (run : task.Runs pass result events after)
    (hevent : .provisional id ∈ events) : ∃ event ∈ events, event.isCut = true := by
  induction run with
  | cut | unallocated | recalled | exhausted | answer | refuse => simp at hevent
  | @walked pass other stored result events inside _ _ hwalk ih =>
      have hinside : ∃ event ∈ events, event.isCut = true := by
        rcases List.mem_append.mp hevent with hevent | hevent
        · rcases List.mem_append.mp hevent with hevent | hevent
          · obtain ⟨type, rfl, hlink⟩ := Pass.closesBelow_of_provisional hevent
            rw [hwalk.closesBelow_iff, List.any_eq_true] at hlink
            obtain ⟨event, hmem, hcut⟩ := hlink
            exact ⟨event, hmem, Event.isCut_of_cutsOnto hcut⟩
          · exact ih hevent
        · simp at hevent
      obtain ⟨event, hmem, hcut⟩ := hinside
      exact ⟨event, List.mem_append_left _ (List.mem_append_right _ hmem), hcut⟩
  | missing _ _ ih =>
      rcases List.mem_append.mp hevent with hevent | hevent
      · obtain ⟨event, hmem, hcut⟩ := ih hevent
        exact ⟨event, List.mem_append_left _ hmem, hcut⟩
      · simp at hevent
  | halted _ _ ih => exact ih hevent
  | found _ _ _ ihsymbol ihrest =>
      rcases List.mem_append.mp hevent with hevent | hevent
      · obtain ⟨event, hmem, hcut⟩ := ihrest hevent
        exact ⟨event, List.mem_append_left _ hmem, hcut⟩
      · obtain ⟨event, hmem, hcut⟩ := ihsymbol hevent
        exact ⟨event, List.mem_append_right _ hmem, hcut⟩

end Task.Runs

/-! ### Journals that account for what happened -/

namespace Graph

/-- The journal accounts for what happened between two graphs. The writes are the ones it notes, every walk
that began has ended well, and types are provisional because of cuts only. -/
structure Accounts (before : Graph) (journal : List Event) (after : Graph) : Prop where
  writes : ∃ writes, before.Finalization writes after ∧
    journal.filterMap Event.stored? = (writes.map Prod.fst).reverse
  walks : (journal.filterMap Event.walked?).Perm (journal.filterMap Event.settled?)
  cuts : ∀ id, .provisional id ∈ journal → ∃ event ∈ journal, event.isCut = true

namespace Accounts

variable {first second third : Graph} {journal later : List Event}

/-- Where no walk begins or ends, nothing happens to the graph. -/
theorem of_idle (graph : Graph)
    (hidle : ∀ event ∈ journal, event.walked? = none ∧ event.settled? = none) :
    graph.Accounts journal graph where
  writes := by
    refine ⟨[], .none, List.filterMap_eq_nil_iff.mpr fun event hevent => ?_⟩
    cases hstored : event.stored? with
    | none => rfl
    | some id => exact absurd (hidle event hevent).2 (by simp [Event.settled?_of_stored? hstored])
  walks := by
    rw [List.filterMap_eq_nil_iff.mpr fun event hevent => (hidle event hevent).1,
      List.filterMap_eq_nil_iff.mpr fun event hevent => (hidle event hevent).2]
  cuts id hevent := by cases (hidle _ hevent).2

theorem append (hfirst : first.Accounts journal second) (hsecond : second.Accounts later third) :
    first.Accounts (later ++ journal) third where
  writes := by
    obtain ⟨writes, hwrites, hstored⟩ := hfirst.writes
    obtain ⟨more, hmore, hstored'⟩ := hsecond.writes
    refine ⟨writes ++ more, hwrites.append hmore, ?_⟩
    rw [List.filterMap_append, hstored, hstored', List.map_append, List.reverse_append]
  walks := by
    rw [List.filterMap_append, List.filterMap_append]
    exact hsecond.walks.append hfirst.walks
  cuts id hevent := by
    rcases List.mem_append.mp hevent with hevent | hevent
    · obtain ⟨event, hmem, hcut⟩ := hsecond.cuts id hevent
      exact ⟨event, List.mem_append_left _ hmem, hcut⟩
    · obtain ⟨event, hmem, hcut⟩ := hfirst.cuts id hevent
      exact ⟨event, List.mem_append_right _ hmem, hcut⟩

theorem of_run {task : Task} {pass after : Pass} {events : List Event} {type : Ty}
    (run : task.Runs pass (.ok type) events after) (htask : task.HandsOutFinal) :
    pass.graph.Accounts events after.graph where
  writes := by
    obtain ⟨writes, hwrites, hstored, -⟩ := run.finalization htask
    exact ⟨writes, hwrites, hstored⟩
  walks := run.walked_perm_settled
  cuts _ := run.exists_isCut

/-- Symbols opened from the outside and left again are no matter. -/
theorem within (h : first.Accounts journal second) (left opened : List SymbolId) :
    first.Accounts (left.map Event.left ++ (journal ++ opened.map Event.seeded)) second := by
  have hopened : first.Accounts (opened.map Event.seeded) first := of_idle first fun event hevent => by
    obtain ⟨id, -, rfl⟩ := List.mem_map.mp hevent
    exact ⟨rfl, rfl⟩
  have hleft : second.Accounts (left.map Event.left) second := of_idle second fun event hevent => by
    obtain ⟨id, -, rfl⟩ := List.mem_map.mp hevent
    exact ⟨rfl, rfl⟩
  exact (hopened.append h).append hleft

/-- Only a walk writes, and it writes once. -/
theorem writes_le_walks (h : first.Accounts journal second) :
    (Stats.ofJournal journal).writes ≤ (Stats.ofJournal journal).walks := by
  rw [Stats.writes_ofJournal, Stats.walks_ofJournal, h.walks.length_eq]
  exact Event.length_stored?_le journal

/-- As long as no cycle is cut, what is walked is written. -/
theorem walked_perm_stored (h : first.Accounts journal second)
    (hcuts : (Stats.ofJournal journal).cyclesCut = 0) :
    (journal.filterMap Event.walked?).Perm (journal.filterMap Event.stored?) := by
  rw [Stats.cyclesCut_ofJournal, List.countP_eq_zero] at hcuts
  rw [← Event.filterMap_settled?]
  · exact h.walks
  · intro id hevent
    obtain ⟨event, hmem, hcut⟩ := h.cuts id hevent
    exact hcuts event hmem hcut

/-- Without cuts every walk writes. -/
theorem walks_eq_writes (h : first.Accounts journal second)
    (hcuts : (Stats.ofJournal journal).cyclesCut = 0) :
    (Stats.ofJournal journal).walks = (Stats.ofJournal journal).writes := by
  rw [Stats.writes_ofJournal, Stats.walks_ofJournal, (h.walked_perm_stored hcuts).length_eq]

theorem nodup_walked (h : first.Accounts journal second)
    (hcuts : (Stats.ofJournal journal).cyclesCut = 0) : (journal.filterMap Event.walked?).Nodup := by
  obtain ⟨writes, hwrites, hstored⟩ := h.writes
  rw [(h.walked_perm_stored hcuts).nodup_iff, hstored, List.nodup_reverse]
  exact hwrites.nodup

/-- Each symbol that waits is written once at most. -/
theorem writes_le_pending (h : first.Accounts journal second) :
    (Stats.ofJournal journal).writes ≤ first.pending.length := by
  obtain ⟨writes, hwrites, hstored⟩ := h.writes
  have hlength := hwrites.length_pending
  rw [Stats.writes_ofJournal, hstored, List.length_reverse, List.length_map]
  omega

end Accounts

end Graph

/-! ### The journal of a request -/

namespace Resolver

variable {α : Type} {resolver : Resolver}

/-- What happens in one resolution, the latest first. -/
def journalOf (resolver : Resolver) (walk : Walk α) : List Event :=
  (outcome walk (.start resolver.graph resolver.profile.limits)).2.journal

/-- What happens in requests for symbols, one after the other, up to one that does not end well. -/
def journalOfEach (request : SymbolId → Resolving Ty) : List SymbolId → Resolver → List Event
  | [], _ => []
  | id :: rest, resolver =>
      match outcome (request id) resolver with
      | (.ok _, later) => journalOfEach request rest later ++ resolver.journalOf (Walk.symbol id)
      | (.error _, _) => resolver.journalOf (Walk.symbol id)

def Call.journal (resolver : Resolver) : Call → List Event
  | .resolve id | .tryResolve id => resolver.journalOf (Walk.symbol id)
  | .resolvePath path =>
      match resolver.graph.lookup path with
      | some id => resolver.journalOf (Walk.symbol id)
      | none => [.missing path]
  | .resolveAll => journalOfEach Resolver.resolve resolver.graph.ids resolver
  | .tryResolveAll => journalOfEach Resolver.tryResolve resolver.graph.ids resolver
  | .resolveType type => resolver.journalOf (Walk.typeWithin [] type)
  | .tryResolveTypeWithin type visiting => resolver.journalOf (Walk.typeWithin visiting type)

/-- The request that gives up at the first error where the call would answer unknown and go on. -/
def Call.strict : Call → Resolving Unit
  | .resolve id | .tryResolve id => discard (Resolver.tryResolve id)
  | .resolvePath path => do
      match (← get).graph.lookup path with
      | some id => discard (Resolver.tryResolve id)
      | none => return ()
  | .resolveAll | .tryResolveAll => Resolver.tryResolveAll
  | .resolveType type => discard (Resolver.tryResolveTypeWithin type [])
  | .tryResolveTypeWithin type visiting => discard (Resolver.tryResolveTypeWithin type visiting)

/-- No error arises in a request, neither one that is returned nor one that is degraded. -/
def ErrorFree (resolver : Resolver) (call : Call) : Prop := (outcome call.strict resolver).1 = .ok ()

instance (resolver : Resolver) (call : Call) : Decidable (resolver.ErrorFree call) :=
  inferInstanceAs (Decidable (_ = _))

/-! #### The counts are those of the journal -/

theorem outcome_run_snd (walk : Walk α) (resolver : Resolver) :
    (outcome (run walk) resolver).2 =
      resolver.advance (outcome walk (.start resolver.graph resolver.profile.limits)).2.graph
        (resolver.journalOf walk) := by
  rcases hwalk : StateT.run walk.run (.start resolver.graph resolver.profile.limits) with ⟨result, pass⟩
  have houtcome : outcome walk (.start resolver.graph resolver.profile.limits) = (result, pass) := hwalk
  rw [journalOf, houtcome, run, outcome_get_bind, hwalk]
  simp only [outcome_set_bind]
  rcases result with (error | fault) | value <;> cases pass.guard.close <;> rfl

theorem outcome_degrade_snd (request : Resolving Ty) (resolver : Resolver) :
    (outcome (degrade request) resolver).2 = (outcome request resolver).2 := by
  rw [degrade, outcome_tryCatch]
  rcases outcome request resolver with ⟨(error | fault) | type, after⟩ <;> rfl

theorem outcome_done_snd (action : Resolving Unit) (resolver : Resolver) :
    (outcome (action >>= fun _ => (pure none : Resolving (Option Ty))) resolver).2 =
      (outcome action resolver).2 := by
  rw [outcome_bind]
  rcases outcome action resolver with ⟨halt | _, after⟩ <;> rfl

theorem outcome_resolveAll_snd (resolver : Resolver) :
    (outcome (Call.answer .resolveAll) resolver).2 =
      (outcome (resolver.graph.ids.forM fun id => discard (resolve id)) resolver).2 :=
  outcome_done_snd _ resolver

theorem outcome_tryResolveAll_snd (resolver : Resolver) :
    (outcome (Call.answer .tryResolveAll) resolver).2 =
      (outcome (tryResolveEach resolver.graph.ids) resolver).2 :=
  outcome_done_snd _ resolver

/-- The counts after an action are those before it and those of what happened. -/
def Counts (action : Resolving α) (journal : Resolver → List Event) : Prop :=
  ∀ resolver : Resolver, (outcome action resolver).2.stats =
    resolver.stats.merge (Stats.ofJournal (journal resolver))

namespace Counts

theorem run (walk : Walk α) : Counts (Resolver.run walk) fun resolver => resolver.journalOf walk := by
  intro resolver
  rw [outcome_run_snd]
  rfl

theorem map {β : Type} {action : Resolving α} {journal : Resolver → List Event}
    (haction : Counts action journal) (f : α → β) : Counts (f <$> action) journal := by
  intro resolver
  rw [outcome_map]
  exact haction resolver

theorem degrade {request : Resolving Ty} {journal : Resolver → List Event}
    (hrequest : Counts request journal) : Counts (Resolver.degrade request) journal := by
  intro resolver
  rw [outcome_degrade_snd]
  exact hrequest resolver

theorem each {request : SymbolId → Resolving Ty}
    (hrequest : ∀ id, Counts (request id) fun resolver => resolver.journalOf (Walk.symbol id))
    (ids : List SymbolId) :
    Counts (ids.forM fun id => discard (request id)) (journalOfEach request ids) := by
  induction ids with
  | nil => exact fun _ => rfl
  | cons id rest ih =>
      intro resolver
      change (outcome (((fun _ => ()) <$> request id) >>= fun _ =>
        rest.forM fun id => discard (request id)) resolver).2.stats = _
      have hfirst := hrequest id resolver
      rw [outcome_bind, outcome_map, journalOfEach]
      rcases houtcome : outcome (request id) resolver with ⟨halt | type, middle⟩
      · rw [houtcome] at hfirst
        exact hfirst
      · rw [houtcome] at hfirst
        have hrest := ih middle
        rw [hfirst, Stats.merge_assoc, Stats.merge_comm (Stats.ofJournal _), ← Stats.ofJournal_append] at hrest
        exact hrest

theorem answer (call : Call) : Counts call.answer fun resolver => call.journal resolver := by
  cases call with
  | resolve id => exact (run _).degrade.map _
  | tryResolve id => exact (run _).map _
  | resolvePath path =>
      refine map (fun resolver => ?_) _
      rw [Resolver.resolvePath, outcome_get_bind, Call.journal]
      cases resolver.graph.lookup path with
      | some id => exact (run _).degrade resolver
      | none =>
          change resolver.stats.count (.missing path) = _
          rw [Stats.count_eq_merge]
          rfl
  | resolveAll =>
      intro resolver
      rw [outcome_resolveAll_snd]
      exact each (fun _ => (run _).degrade) resolver.graph.ids resolver
  | tryResolveAll =>
      intro resolver
      rw [outcome_tryResolveAll_snd]
      exact each (fun _ => run _) resolver.graph.ids resolver
  | resolveType type => exact (run _).degrade.map _
  | tryResolveTypeWithin type visiting => exact (run _).map _

end Counts

/-! #### Requests without errors -/

theorem accounts_tryResolve {id : SymbolId} {type : Ty}
    (hresult : (outcome (tryResolve id) resolver).1 = .ok type) :
    resolver.graph.Accounts (resolver.journalOf (Walk.symbol id))
      (outcome (tryResolve id) resolver).2.graph := by
  obtain ⟨result, events, after, run⟩ :=
    (Task.symbol id).exists_run (.start resolver.graph resolver.profile.limits)
  have hjournal : resolver.journalOf (Walk.symbol id) = events := by
    rw [journalOf, run.outcome_symbol, run.journal_eq]
    exact List.append_nil events
  rw [outcome_tryResolve run] at hresult ⊢
  obtain rfl : result = .ok type := hresult
  rw [hjournal]
  exact .of_run run trivial

theorem accounts_tryResolveTypeWithin {asked type : Ty} {visiting : List SymbolId}
    (hresult : (outcome (tryResolveTypeWithin asked visiting) resolver).1 = .ok type) :
    resolver.graph.Accounts (resolver.journalOf (Walk.typeWithin visiting asked))
      (outcome (tryResolveTypeWithin asked visiting) resolver).2.graph := by
  obtain ⟨opened, denied, seeded, hseed, hseeded, -, -⟩ := Walk.outcome_seed visiting
    (.start resolver.graph resolver.profile.limits) List.nodup_nil
  cases denied with
  | some id =>
      obtain ⟨halt, houtcome⟩ := outcome_tryResolveTypeWithin_of_denied hseeded asked hseed
      rw [houtcome] at hresult
      cases hresult
  | none =>
      obtain ⟨result, events, inside, run⟩ := (Task.inquiry (.ofTy asked)).exists_run seeded
      rw [outcome_tryResolveTypeWithin_of_run hseeded asked hseed run] at hresult ⊢
      obtain rfl : result = .ok type := hresult
      obtain ⟨left, after, hleaving, -, -, hjournal⟩ :=
        Walk.outcome_leaving hseeded run.outcome_type run.stack_eq
      have hrun : resolver.graph.Accounts events inside.graph := by
        have haccounts := Graph.Accounts.of_run run (.ofTy asked)
        rwa [hseeded.graph] at haccounts
      rw [journalOf, Walk.outcome_typeWithin_of_none hseed, hleaving, hjournal, run.journal_eq,
        journal_seeded hseeded]
      exact hrun.within left opened.reverse

theorem outcome_degrade_of_ok {request : Resolving Ty} {type : Ty}
    (hresult : (outcome request resolver).1 = .ok type) :
    outcome (degrade request) resolver = outcome request resolver := by
  rw [degrade, outcome_tryCatch]
  rcases houtcome : outcome request resolver with ⟨halt | found, after⟩
  · rw [houtcome] at hresult
    cases hresult
  · rfl

theorem exists_ok_of_discard {request : Resolving Ty}
    (hresult : (outcome (discard request) resolver).1 = .ok ()) :
    ∃ type, (outcome request resolver).1 = .ok type := by
  change (outcome ((fun _ => ()) <$> request) resolver).1 = .ok () at hresult
  rw [outcome_map] at hresult
  rcases houtcome : outcome request resolver with ⟨halt | type, after⟩
  · rw [houtcome] at hresult
    cases hresult
  · exact ⟨type, rfl⟩

theorem accounts_each {request : SymbolId → Resolving Ty}
    (hrequest : ∀ id resolver type, (outcome (tryResolve id) resolver).1 = .ok type →
      outcome (request id) resolver = outcome (tryResolve id) resolver)
    (ids : List SymbolId) (resolver : Resolver)
    (hresult : (outcome (tryResolveEach ids) resolver).1 = .ok ()) :
    resolver.graph.Accounts (journalOfEach request ids resolver)
      (outcome (ids.forM fun id => discard (request id)) resolver).2.graph := by
  induction ids generalizing resolver with
  | nil => exact .of_idle _ fun _ hevent => by cases hevent
  | cons first rest ih =>
      have hstrict : tryResolveEach (first :: rest) =
          ((fun _ => ()) <$> tryResolve first) >>= fun _ => tryResolveEach rest := rfl
      have hcons : ((first :: rest).forM fun id => discard (request id)) =
          ((fun _ => ()) <$> request first) >>= fun _ => rest.forM fun id => discard (request id) := rfl
      rw [hstrict, outcome_bind, outcome_map] at hresult
      rcases houtcome : outcome (tryResolve first) resolver with ⟨halt | type, middle⟩
      · rw [houtcome] at hresult
        cases hresult
      · rw [houtcome] at hresult
        have hok : (outcome (tryResolve first) resolver).1 = .ok type := by rw [houtcome]
        have hfirst := accounts_tryResolve hok
        rw [houtcome] at hfirst
        rw [hcons, outcome_bind, outcome_map, journalOfEach, hrequest first resolver type hok, houtcome]
        exact hfirst.append (ih middle hresult)

/-- The journal of a request without errors accounts for what the request does to the graph. -/
theorem ErrorFree.accounts {call : Call} (hcall : resolver.ErrorFree call) :
    resolver.graph.Accounts (call.journal resolver) (outcome call.answer resolver).2.graph := by
  cases call with
  | resolve id =>
      obtain ⟨type, hresult⟩ := exists_ok_of_discard hcall
      rw [Call.answer, outcome_map, Resolver.resolve, outcome_degrade_of_ok hresult]
      exact accounts_tryResolve hresult
  | tryResolve id =>
      obtain ⟨type, hresult⟩ := exists_ok_of_discard hcall
      rw [Call.answer, outcome_map]
      exact accounts_tryResolve hresult
  | resolvePath path =>
      rw [ErrorFree, Call.strict, outcome_get_bind] at hcall
      rw [Call.answer, outcome_map, Resolver.resolvePath, outcome_get_bind, Call.journal]
      cases hlookup : resolver.graph.lookup path with
      | some id =>
          rw [hlookup] at hcall
          obtain ⟨type, hresult⟩ := exists_ok_of_discard hcall
          dsimp only
          rw [Resolver.resolve, outcome_degrade_of_ok hresult]
          exact accounts_tryResolve hresult
      | none =>
          refine .of_idle _ fun event hevent => ?_
          rw [List.mem_singleton.mp hevent]
          exact ⟨rfl, rfl⟩
  | resolveAll =>
      rw [outcome_resolveAll_snd]
      exact accounts_each (fun _ _ _ hresult => outcome_degrade_of_ok hresult) _ resolver hcall
  | tryResolveAll =>
      rw [outcome_tryResolveAll_snd]
      exact accounts_each (fun _ _ _ _ => rfl) _ resolver hcall
  | resolveType asked =>
      obtain ⟨type, hresult⟩ := exists_ok_of_discard hcall
      rw [Call.answer, outcome_map, Resolver.resolveType, outcome_degrade_of_ok hresult]
      exact accounts_tryResolveTypeWithin hresult
  | tryResolveTypeWithin asked visiting =>
      obtain ⟨type, hresult⟩ := exists_ok_of_discard hcall
      rw [Call.answer, outcome_map]
      exact accounts_tryResolveTypeWithin hresult

/-! ### Series of requests -/

/-- No error arises in any of some requests, each with limits of its own. -/
def AllErrorFree (resolver : Resolver) : List (Profile × Call) → Prop
  | [] => True
  | request :: rest =>
      ErrorFree { resolver with profile := request.1 } request.2 ∧
        (resolver.perform request).AllErrorFree rest

/-- What happens in some requests, one after the other. -/
def history (resolver : Resolver) : List (Profile × Call) → List Event
  | [] => []
  | request :: rest =>
      (resolver.perform request).history rest ++ request.2.journal { resolver with profile := request.1 }

/-- The counts after some requests are those of the events of all of them. -/
theorem stats_performAll (resolver : Resolver) (requests : List (Profile × Call)) :
    (resolver.performAll requests).stats =
      resolver.stats.merge (Stats.ofJournal (resolver.history requests)) := by
  induction requests generalizing resolver with
  | nil => rfl
  | cons request rest ih =>
      have hrequest : (resolver.perform request).stats = resolver.stats.merge
          (Stats.ofJournal (request.2.journal { resolver with profile := request.1 })) :=
        Counts.answer request.2 { resolver with profile := request.1 }
      calc (resolver.performAll (request :: rest)).stats
          = ((resolver.perform request).performAll rest).stats := rfl
        _ = (resolver.perform request).stats.merge
              (Stats.ofJournal ((resolver.perform request).history rest)) := ih _
        _ = resolver.stats.merge (Stats.ofJournal (resolver.history (request :: rest))) := by
            rw [hrequest, Stats.merge_assoc, Stats.merge_comm (Stats.ofJournal _),
              ← Stats.ofJournal_append, history]

/-- As long as no request meets an error, the events account for what has become of the graph. -/
theorem AllErrorFree.accounts {requests : List (Profile × Call)} (hrequests : resolver.AllErrorFree requests) :
    resolver.graph.Accounts (resolver.history requests) (resolver.performAll requests).graph := by
  induction requests generalizing resolver with
  | nil => exact .of_idle _ fun _ hevent => by cases hevent
  | cons request rest ih => exact hrequests.1.accounts.append (ih hrequests.2)

/-- **Without cycles every symbol is walked at most once.** The counts of a request are those of what
happens in it. If no error arises in it, it makes no more writes than walks, and as many if no cycle is cut.
So over any requests with any limits in which no error arises and no cycle is cut, there are as many walks
as writes, no symbol is walked twice, and there are no more walks than symbols that waited at first. -/
theorem walked_once_without_cycles (resolver : Resolver) :
    (∀ call, (outcome (Call.answer call) resolver).2.stats =
      resolver.stats.merge (Stats.ofJournal (call.journal resolver))) ∧
    (∀ call, resolver.ErrorFree call →
      let counts := Stats.ofJournal (call.journal resolver)
      counts.writes ≤ counts.walks ∧ (counts.cyclesCut = 0 → counts.walks = counts.writes)) ∧
    ∀ requests, resolver.AllErrorFree requests →
      let counts := Stats.ofJournal (resolver.history requests)
      (resolver.performAll requests).stats = resolver.stats.merge counts ∧
      (counts.cyclesCut = 0 → counts.walks = counts.writes ∧
        ((resolver.history requests).filterMap Event.walked?).Nodup ∧
        counts.walks ≤ resolver.graph.pending.length ∧ counts.walks ≤ resolver.graph.size) := by
  refine ⟨fun call => Counts.answer call resolver, ?_, ?_⟩
  · intro call hcall counts
    exact ⟨hcall.accounts.writes_le_walks, hcall.accounts.walks_eq_writes⟩
  · intro requests hrequests counts
    refine ⟨resolver.stats_performAll requests, fun hcuts => ?_⟩
    have haccounts := hrequests.accounts
    have hwalks := haccounts.walks_eq_writes hcuts
    have hpending : counts.walks ≤ resolver.graph.pending.length :=
      Nat.le_trans (Nat.le_of_eq hwalks) haccounts.writes_le_pending
    have hsize : resolver.graph.pending.length ≤ resolver.graph.size := by
      have hfilter : resolver.graph.pending.length ≤ resolver.graph.ids.length := List.length_filter_le _ _
      rwa [Graph.ids, List.length_range] at hfilter
    exact ⟨hwalks, haccounts.nodup_walked hcuts, hpending, Nat.le_trans hpending hsize⟩

/-- Three functions and a method that are asked for in turn, with a path that nobody declared, a chain as
seen from within a function, and a request for all symbols at the end. -/
theorem walked_once_without_cycles_chained :
    let make := Path.function "make"
    let graph := (((Graph.empty.append make (.returning (.object "Box"))).append
      (.function "open") (.reference make [.callResult, .memberCall "get"])).append
      (.method "Box" "get") (.returning (.union [.call make, .literal .null]))).append
      (.function "both") (.list [.call (.function "open"), .call (.function "open")])
    let resolver : Resolver := ⟨graph, .unbounded, {}⟩
    let requests := [(Profile.interactive, Call.resolvePath (.function "close")),
      (.custom 3 3, .tryResolveTypeWithin (.call (.function "open")) [3]), (.custom 1 1, .resolveAll)]
    resolver.AllErrorFree requests ∧
    (resolver.performAll requests).stats = ⟨3, 7, 0, 1, 3⟩ ∧
    (resolver.history requests).filterMap Event.walked? = [3, 2, 1] ∧
    ((resolver.history requests).filterMap Event.walked?).Nodup := by
  intro make graph resolver requests
  have hrequests : resolver.AllErrorFree requests :=
    ⟨by decide +kernel, by decide +kernel, by decide +kernel, trivial⟩
  have hcuts : (Stats.ofJournal (resolver.history requests)).cyclesCut = 0 := by decide +kernel
  obtain ⟨-, -, hseries⟩ := walked_once_without_cycles resolver
  obtain ⟨hstats, honce⟩ := hseries requests hrequests
  obtain ⟨-, hnodup, -, -⟩ := honce hcuts
  exact ⟨hrequests, hstats.trans (by decide +kernel), by decide +kernel, hnodup⟩

end Resolver

end DeferredTypes
