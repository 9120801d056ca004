import Mathlib.Logic.Relation
import DeferredTypes.Resolver
import DeferredTypes.Proofs.Finalization

/-! Requests to a resolver in terms of runs. A request for a symbol is one run from an empty stack, a
request for a type one run from a stack of the symbols that are taken as open. Every other request is a
series of these, so what every run does to a graph and to the counts holds of all series of requests. -/

namespace DeferredTypes

/-! ### Symbols opened from the outside -/

/-- The last attempt to enter a key was beyond the budget. -/
def Guard.Denied {κ : Type} (guard : Guard κ) : Prop :=
  ∃ before : Guard κ, guard = before.attempted ∧ ¬before.Admits

/-- What an attempt to enter a key can come to. -/
theorem Guard.enter_cases {κ : Type} [DecidableEq κ] (guard : Guard κ) (key : κ) :
    (key ∉ guard.stack ∧
      guard.enter key = (.entered, { guard.attempted with stack := guard.stack ++ [key] })) ∨
    (∃ position, guard.enter key = (.cycle position, guard.attempted)) ∨
    ¬guard.Admits ∧ (guard.enter key = (.iterationExceeded, guard.attempted) ∨
      guard.enter key = (.depthExceeded, guard.attempted)) := by
  by_cases hkey : key ∈ guard.stack
  · right
    obtain ⟨position, hposition⟩ := exists_position hkey
    rw [enter_of_position? hposition]
    by_cases hiterations : guard.limits.maxIterations < guard.attempted.iterations
    · right
      exact ⟨fun hadmits => Nat.not_lt.mpr hadmits.1 hiterations, Or.inl (if_pos hiterations)⟩
    · left
      exact ⟨position, if_neg hiterations⟩
  · by_cases hadmits : guard.Admits
    · exact Or.inl ⟨hkey, enter_of_admits hkey hadmits⟩
    · exact Or.inr (Or.inr ⟨hadmits, enter_of_not_admits hkey hadmits⟩)

/-- Symbols have been opened from the outside; the graph is the same. -/
structure Pass.Seeded (before : Pass) (opened : List SymbolId) (after : Pass) : Prop where
  graph : after.graph = before.graph
  limits : after.guard.limits = before.guard.limits
  stack : after.guard.stack = before.guard.stack ++ opened
  journal : after.journal = (opened.map Event.seeded).reverse ++ before.journal
  nodup : after.guard.stack.Nodup

namespace Walk

theorem outcome_seed (visiting : List SymbolId) (pass : Pass) (hnodup : pass.guard.stack.Nodup) :
    ∃ opened denied after, outcome (seed visiting) pass = (.ok (opened, denied), after) ∧
      pass.Seeded opened after ∧ opened ⊆ visiting ∧
      ∀ id, denied = some id → id ∈ visiting ∧ after.guard.Denied := by
  induction visiting generalizing pass with
  | nil =>
      exact ⟨[], none, pass, rfl, ⟨rfl, rfl, (List.append_nil _).symm, rfl, hnodup⟩,
        List.nil_subset _, fun _ h => by cases h⟩
  | cons id rest ih =>
      rw [seed, outcome_get_bind]
      rcases pass.guard.enter_cases id with ⟨hid, henter⟩ | ⟨position, henter⟩ | ⟨hadmits, henter⟩
      · rw [henter]
        have hgrown : (pass.guard.stack ++ [id]).Nodup := by
          rw [← List.concat_eq_append]
          exact hnodup.concat hid
        obtain ⟨opened, denied, after, hrest, hseeded, hsubset, hdenied⟩ := ih (Pass.record
          { pass with guard := { pass.guard.attempted with stack := pass.guard.stack ++ [id] } }
          (.seeded id)) hgrown
        refine ⟨id :: opened, denied, after, ?_, ⟨hseeded.graph, hseeded.limits, ?_, ?_, hseeded.nodup⟩,
          List.cons_subset_cons id hsubset, fun other h => ?_⟩
        · simp only [outcome_set_bind]
          change outcome (modify _ >>= _) _ = _
          rw [outcome_modify_bind, outcome_bind, hrest]
          rfl
        · rw [hseeded.stack]
          exact List.append_assoc _ _ _
        · rw [hseeded.journal]
          simp [Pass.record]
        · exact ⟨List.mem_cons_of_mem id (hdenied other h).1, (hdenied other h).2⟩
      · rw [henter]
        simp only [outcome_set_bind]
        obtain ⟨opened, denied, after, hrest, hseeded, hsubset, hdenied⟩ :=
          ih { pass with guard := pass.guard.attempted } hnodup
        exact ⟨opened, denied, after, hrest,
          ⟨hseeded.graph, hseeded.limits, hseeded.stack, hseeded.journal, hseeded.nodup⟩,
          List.subset_cons_of_subset id hsubset,
          fun other h => ⟨List.mem_cons_of_mem id (hdenied other h).1, (hdenied other h).2⟩⟩
      · refine ⟨[], some id, { pass with guard := pass.guard.attempted }, ?_,
          ⟨rfl, rfl, (List.append_nil _).symm, rfl, hnodup⟩, List.nil_subset _, ?_⟩
        · rcases henter with henter | henter
          · rw [henter]
            rfl
          · rw [henter]
            rfl
        · rintro _ ⟨⟩
          exact ⟨List.mem_cons_self, pass.guard, rfl, hadmits⟩

theorem outcome_leaveAll (ids : List SymbolId) (pass : Pass) (hnodup : pass.guard.stack.Nodup)
    (below : List SymbolId) (hstack : pass.guard.stack = below ++ ids.reverse) :
    ∃ after, outcome (leaveAll ids) pass = (.ok (), after) ∧ after.graph = pass.graph ∧
      after.guard.stack = below ∧ after.journal = (ids.map Event.left).reverse ++ pass.journal := by
  induction ids generalizing pass with
  | nil => exact ⟨pass, rfl, rfl, by simpa using hstack, rfl⟩
  | cons id rest ih =>
      have hstack' : pass.guard.stack = (below ++ rest.reverse) ++ [id] := by
        rw [hstack, List.reverse_cons, List.append_assoc]
      have hid : id ∉ below ++ rest.reverse := by
        rw [hstack', List.nodup_append] at hnodup
        exact fun h => hnodup.2.2 id h id List.mem_cons_self rfl
      have hopen : id ∈ pass.guard.stack := by
        rw [hstack']
        exact List.mem_append_right _ List.mem_cons_self
      have herase : pass.guard.stack.erase id = below ++ rest.reverse := by
        rw [hstack', Guard.erase_top hid]
      obtain ⟨after, hrest, hgraph, hafter, hjournal⟩ := ih (Pass.record
        { pass with guard := { pass.guard with stack := pass.guard.stack.erase id } } (.left id))
        (hnodup.erase id) herase
      refine ⟨after, ?_, hgraph, hafter, ?_⟩
      · rw [leaveAll, outcome_bind, outcome_leave hopen]
        exact hrest
      · rw [hjournal]
        simp [Pass.record]

theorem outcome_abort {α : Type} (id : SymbolId) (pass : Pass) :
    ∃ halt, outcome (abort id : Walk α) pass = (.error halt, pass) := by
  rw [abort, outcome_get_bind]
  cases pass.graph.path? id with
  | some path => exact ⟨_, rfl⟩
  | none => exact ⟨_, rfl⟩

/-- A part of a resolution after which symbols are taken off the stack, the last one first. -/
def leaving (opened : List SymbolId) (body : Walk Ty) : Walk Ty := do
  let result ← attempt body
  leaveAll opened.reverse
  conclude result

theorem outcome_typeWithin_of_none {visiting opened : List SymbolId} {pass seeded : Pass}
    (hseed : outcome (seed visiting) pass = (.ok (opened, none), seeded)) (ty : Ty) :
    outcome (typeWithin visiting ty) pass = outcome (leaving opened (type ty)) seeded := by
  simp only [typeWithin, outcome_bind, hseed, leaving]

theorem outcome_typeWithin_of_some {visiting opened : List SymbolId} {id : SymbolId}
    {pass seeded : Pass} (hseed : outcome (seed visiting) pass = (.ok (opened, some id), seeded))
    (ty : Ty) :
    outcome (typeWithin visiting ty) pass = outcome (leaving opened (abort id)) seeded := by
  simp only [typeWithin, outcome_bind, hseed, leaving]

/-- The symbols opened from the outside are taken off the stack again, faults apart. -/
theorem outcome_leaving {body : Walk Ty} {pass seeded inside : Pass} {opened : List SymbolId}
    {result : Except Halt Ty} (hseeded : pass.Seeded opened seeded)
    (hbody : outcome body seeded = (result, inside))
    (hstack : ¬Faulty result → inside.guard.stack = seeded.guard.stack) :
    ∃ (left : List SymbolId) (after : Pass), outcome (leaving opened body) seeded = (result, after) ∧
      after.graph = inside.graph ∧ (¬Faulty result → after.guard.stack = pass.guard.stack) ∧
      after.journal = left.map Event.left ++ inside.journal := by
  have hleave : ¬Faulty result → ∃ after, outcome (leaveAll opened.reverse) inside = (.ok (), after) ∧
      after.graph = inside.graph ∧ after.guard.stack = pass.guard.stack ∧
      after.journal = opened.map Event.left ++ inside.journal := by
    intro hresult
    have hnodup : inside.guard.stack.Nodup := by
      rw [hstack hresult]
      exact hseeded.nodup
    have hopen : inside.guard.stack = pass.guard.stack ++ opened.reverse.reverse := by
      rw [hstack hresult, hseeded.stack, List.reverse_reverse]
    obtain ⟨after, houtcome, hgraph, hafter, hjournal⟩ :=
      outcome_leaveAll opened.reverse inside hnodup _ hopen
    refine ⟨after, houtcome, hgraph, hafter, ?_⟩
    rw [hjournal, List.map_reverse, List.reverse_reverse]
  rw [leaving, outcome_bind, outcome_attempt, hbody]
  rcases result with (error | fault) | type
  · obtain ⟨after, houtcome, hgraph, hafter, hjournal⟩ := hleave (not_faulty_error _)
    refine ⟨opened, after, ?_, hgraph, fun _ => hafter, hjournal⟩
    simp only [outcome_bind, houtcome]
    rfl
  · exact ⟨[], inside, rfl, rfl, fun h => absurd trivial h, rfl⟩
  · obtain ⟨after, houtcome, hgraph, hafter, hjournal⟩ := hleave (not_faulty_ok _)
    refine ⟨opened, after, ?_, hgraph, fun _ => hafter, hjournal⟩
    simp only [outcome_bind, houtcome]
    rfl

end Walk

/-! ### One request -/

namespace Resolver

/-- The resolver after a resolution that left this graph and added these events. -/
def advance (resolver : Resolver) (graph : Graph) (events : List Event) : Resolver :=
  { resolver with graph, stats := resolver.stats.merge (Stats.ofJournal events) }

/-- A walk that ends with an empty stack makes a request that advances the resolver by its journal. -/
theorem outcome_run {α : Type} {walk : Walk α} {resolver : Resolver} {result : Except Halt α}
    {pass : Pass}
    (hwalk : outcome walk (Pass.start resolver.graph resolver.profile.limits) = (result, pass))
    (hstack : ¬Faulty result → pass.guard.stack = []) :
    outcome (run walk) resolver = (result, resolver.advance pass.graph pass.journal) := by
  rw [outcome] at hwalk
  rw [run, outcome_get_bind, hwalk]
  rcases result with (error | fault) | value
  · have hclose : pass.guard.close = .ok () := by rw [Guard.close, hstack (not_faulty_error _)]; rfl
    simp only [outcome_set_bind, hclose]
    rfl
  · rfl
  · have hclose : pass.guard.close = .ok () := by rw [Guard.close, hstack (not_faulty_ok _)]; rfl
    simp only [outcome_set_bind, hclose]
    rfl

theorem outcome_tryResolve {resolver : Resolver} {id : SymbolId} {result : Except Halt Ty}
    {events : List Event} {after : Pass}
    (run : (Task.symbol id).Runs (.start resolver.graph resolver.profile.limits) result events after) :
    outcome (tryResolve id) resolver = (result, resolver.advance after.graph events) := by
  rw [tryResolve, outcome_run run.outcome_symbol run.stack_eq, run.journal_eq]
  exact congrArg (fun journal => (result, resolver.advance after.graph journal)) (List.append_nil events)

/-- Nothing is counted where symbols are opened from the outside, nor where symbols are left. -/
theorem advance_left_seeded (resolver : Resolver) (graph : Graph) (left seeded : List SymbolId)
    (events : List Event) :
    resolver.advance graph (left.map Event.left ++ (events ++ seeded.map Event.seeded)) =
      resolver.advance graph events := by
  have hleft : Stats.ofJournal (left.map Event.left) = {} := by
    induction left with
    | nil => rfl
    | cons id rest ih => rw [List.map_cons, Stats.ofJournal_cons, ih]; rfl
  have hseeded : Stats.ofJournal (seeded.map Event.seeded) = {} := by
    induction seeded with
    | nil => rfl
    | cons id rest ih => rw [List.map_cons, Stats.ofJournal_cons, ih]; rfl
  rw [advance, advance, Stats.ofJournal_append, Stats.ofJournal_append, hleft, hseeded,
    Stats.merge_zero, Stats.zero_merge]

section Within

variable {resolver : Resolver} {visiting opened : List SymbolId} {seeded : Pass}
  (hseeded : (Pass.start resolver.graph resolver.profile.limits).Seeded opened seeded) (type : Ty)

include hseeded

theorem journal_seeded : seeded.journal = opened.reverse.map Event.seeded := by
  rw [hseeded.journal, List.map_reverse]
  exact List.append_nil _

/-- If the budget does not suffice to open the symbols that are to be open, nothing happens. -/
theorem outcome_tryResolveTypeWithin_of_denied {id : SymbolId}
    (hseed : outcome (Walk.seed visiting) (.start resolver.graph resolver.profile.limits) =
      (.ok (opened, some id), seeded)) :
    ∃ halt, outcome (tryResolveTypeWithin type visiting) resolver = (.error halt, resolver) := by
  obtain ⟨halt, habort⟩ := Walk.outcome_abort (α := Ty) id seeded
  obtain ⟨left, after, hleaving, hgraph, hstack, hafter⟩ :=
    Walk.outcome_leaving hseeded habort fun _ => rfl
  have hwithin := (Walk.outcome_typeWithin_of_some hseed type).trans hleaving
  refine ⟨halt, ?_⟩
  rw [tryResolveTypeWithin, outcome_run hwithin hstack, hafter, journal_seeded hseeded, hgraph,
    hseeded.graph]
  exact congrArg (Prod.mk _) (advance_left_seeded resolver _ left opened.reverse [])

/-- Else one run is made from the stack of them. -/
theorem outcome_tryResolveTypeWithin_of_run {result : Except Halt Ty} {events : List Event}
    {inside : Pass}
    (hseed : outcome (Walk.seed visiting) (.start resolver.graph resolver.profile.limits) =
      (.ok (opened, none), seeded))
    (run : (Task.inquiry (.ofTy type)).Runs seeded result events inside) :
    outcome (tryResolveTypeWithin type visiting) resolver =
      (result, resolver.advance inside.graph events) := by
  obtain ⟨left, after, hleaving, hgraph, hstack, hafter⟩ :=
    Walk.outcome_leaving hseeded run.outcome_type run.stack_eq
  have hwithin := (Walk.outcome_typeWithin_of_none hseed type).trans hleaving
  rw [tryResolveTypeWithin, outcome_run hwithin hstack, hafter, run.journal_eq, journal_seeded hseeded,
    hgraph, advance_left_seeded]

end Within

/-- A request for a type as seen from within open symbols: the budget does not suffice to open these
and nothing happens, or one run is made from the stack of them. -/
theorem outcome_tryResolveTypeWithin (type : Ty) (visiting : List SymbolId) (resolver : Resolver) :
    ∃ opened seeded, (Pass.start resolver.graph resolver.profile.limits).Seeded opened seeded ∧
      opened ⊆ visiting ∧
      ((seeded.guard.Denied ∧
        ∃ halt, outcome (tryResolveTypeWithin type visiting) resolver = (.error halt, resolver)) ∨
      ∃ result events after, (Task.inquiry (.ofTy type)).Runs seeded result events after ∧
        outcome (tryResolveTypeWithin type visiting) resolver =
          (result, resolver.advance after.graph events)) := by
  obtain ⟨opened, denied, seeded, hseed, hseeded, hsubset, hdenied⟩ := Walk.outcome_seed visiting
    (.start resolver.graph resolver.profile.limits) List.nodup_nil
  refine ⟨opened, seeded, hseeded, hsubset, ?_⟩
  cases denied with
  | some id =>
      exact Or.inl ⟨(hdenied id rfl).2, outcome_tryResolveTypeWithin_of_denied hseeded type hseed⟩
  | none =>
      obtain ⟨result, events, inside, run⟩ := (Task.inquiry (.ofTy type)).exists_run seeded
      exact Or.inr ⟨result, events, inside, run,
        outcome_tryResolveTypeWithin_of_run hseeded type hseed run⟩

/-! ### Series of requests -/

/-- What can happen to a resolver. -/
inductive Step : Resolver → Resolver → Prop
  /-- A path was asked for that nobody declared. -/
  | missed {resolver} (path : Path) :
      Step resolver { resolver with stats := resolver.stats.count (.missing path) }
  | resolved {resolver pass id result events after} (hgraph : pass.graph = resolver.graph)
      (run : (Task.symbol id).Runs pass result events after) :
      Step resolver (resolver.advance after.graph events)
  | replaced {resolver pass type result events after} (hgraph : pass.graph = resolver.graph)
      (run : (Task.inquiry (.ofTy type)).Runs pass result events after) :
      Step resolver (resolver.advance after.graph events)
  /-- The next request has limits of its own. -/
  | limited {resolver} (profile : Profile) : Step resolver { resolver with profile }

/-- A series of steps. -/
abbrev Reaches : Resolver → Resolver → Prop := Relation.ReflTransGen Step

/-- Whatever an action of a resolver does is a series of steps. -/
def Leads {α : Type} (action : Resolving α) : Prop :=
  ∀ resolver : Resolver, resolver.Reaches (outcome action resolver).2

namespace Leads

variable {α β : Type}

theorem pure (value : α) : Leads (Pure.pure value) := fun _ => .refl

theorem bind {action : Resolving α} {next : α → Resolving β} (haction : Leads action)
    (hnext : ∀ value, Leads (next value)) : Leads (action >>= next) := by
  intro resolver
  have hreaches := haction resolver
  rw [outcome_bind]
  rcases houtcome : outcome action resolver with ⟨halt | value, after⟩
  · rwa [houtcome] at hreaches
  · rw [houtcome] at hreaches
    exact hreaches.trans (hnext value after)

theorem map {action : Resolving α} (haction : Leads action) (f : α → β) : Leads (f <$> action) := by
  intro resolver
  rw [outcome_map]
  exact haction resolver

theorem get_bind {next : Resolver → Resolving α} (hnext : ∀ resolver, Leads (next resolver)) :
    Leads (get >>= next) :=
  fun resolver => hnext resolver resolver

theorem degrade {request : Resolving Ty} (hrequest : Leads request) :
    Leads (Resolver.degrade request) := by
  intro resolver
  have hreaches := hrequest resolver
  rw [Resolver.degrade, outcome_tryCatch]
  rcases houtcome : outcome request resolver with ⟨(error | fault) | type, after⟩ <;>
    rwa [houtcome] at hreaches

theorem forM {ids : List SymbolId} {request : SymbolId → Resolving Unit}
    (hrequest : ∀ id, Leads (request id)) : Leads (ids.forM request) := by
  induction ids with
  | nil => exact pure ()
  | cons id rest ih =>
      change Leads (request id >>= fun _ => rest.forM request)
      exact (hrequest id).bind fun _ => ih

end Leads

theorem leads_tryResolve (id : SymbolId) : Leads (tryResolve id) := by
  intro resolver
  obtain ⟨result, events, after, run⟩ :=
    (Task.symbol id).exists_run (.start resolver.graph resolver.profile.limits)
  rw [outcome_tryResolve run]
  exact .single (.resolved rfl run)

theorem leads_resolve (id : SymbolId) : Leads (resolve id) := (leads_tryResolve id).degrade

theorem leads_tryResolveTypeWithin (type : Ty) (visiting : List SymbolId) :
    Leads (tryResolveTypeWithin type visiting) := by
  intro resolver
  obtain ⟨opened, seeded, hseeded, -, ⟨-, halt, houtcome⟩ | ⟨result, events, after, run, houtcome⟩⟩ :=
    outcome_tryResolveTypeWithin type visiting resolver
  · rw [houtcome]
  · rw [houtcome]
    exact .single (.replaced hseeded.graph run)

theorem leads_resolvePath (path : Path) : Leads (resolvePath path) := by
  intro resolver
  rw [resolvePath, outcome_get_bind]
  cases resolver.graph.lookup path with
  | some id => exact leads_resolve id resolver
  | none => exact .single (.missed path)

/-- Every call takes the resolver through steps of resolution only. -/
theorem leads_answer (call : Call) : Leads call.answer := by
  cases call with
  | resolve id => exact (leads_resolve id).map _
  | tryResolve id => exact (leads_tryResolve id).map _
  | resolvePath path => exact (leads_resolvePath path).map _
  | resolveAll =>
      refine Leads.bind (Leads.get_bind fun resolver => ?_) fun _ => .pure _
      exact .forM fun id => (leads_resolve id).map _
  | tryResolveAll =>
      refine Leads.bind (Leads.get_bind fun resolver => ?_) fun _ => .pure _
      exact .forM fun id => (leads_tryResolve id).map _
  | resolveType type => exact (leads_tryResolveTypeWithin type []).degrade.map _
  | tryResolveTypeWithin type visiting => exact (leads_tryResolveTypeWithin type visiting).map _

/-- The resolver after a request with limits of its own, whatever the answer. -/
def perform (resolver : Resolver) (request : Profile × Call) : Resolver :=
  (outcome request.2.answer { resolver with profile := request.1 }).2

def performAll (resolver : Resolver) (requests : List (Profile × Call)) : Resolver :=
  requests.foldl perform resolver

theorem reaches_perform (resolver : Resolver) (request : Profile × Call) :
    resolver.Reaches (resolver.perform request) :=
  .head (.limited request.1) (leads_answer request.2 _)

theorem reaches_performAll (resolver : Resolver) (requests : List (Profile × Call)) :
    resolver.Reaches (resolver.performAll requests) := by
  induction requests generalizing resolver with
  | nil => exact .refl
  | cons request rest ih => exact (resolver.reaches_perform request).trans (ih _)

/-! ### What a series of requests does to the graph -/

variable {resolver later : Resolver}

theorem finalization_advance {task : Task} {pass after : Pass} {result : Except Halt Ty}
    {events : List Event} (hgraph : pass.graph = resolver.graph)
    (run : task.Runs pass result events after) (htask : task.HandsOutFinal) :
    ∃ writes, resolver.graph.Finalization writes (resolver.advance after.graph events).graph ∧
      (resolver.advance after.graph events).stats.writes = resolver.stats.writes + writes.length := by
  obtain ⟨writes, hwrites, hstored, -⟩ := run.finalization htask
  refine ⟨writes, hgraph ▸ hwrites, ?_⟩
  change resolver.stats.writes + (Stats.ofJournal events).writes = _
  rw [Stats.writes_ofJournal, hstored, List.length_reverse, List.length_map]

/-- A step of a resolver makes types final and counts how many. -/
theorem Step.finalization (step : resolver.Step later) :
    ∃ writes, resolver.graph.Finalization writes later.graph ∧
      later.stats.writes = resolver.stats.writes + writes.length := by
  cases step with
  | missed path => exact ⟨[], .none, rfl⟩
  | resolved hgraph run => exact finalization_advance hgraph run trivial
  | replaced hgraph run => exact finalization_advance hgraph run (.ofTy _)
  | limited profile => exact ⟨[], .none, rfl⟩

/-- Step after step symbols become final, and each write is counted. -/
theorem Reaches.finalization (steps : resolver.Reaches later) :
    ∃ writes, resolver.graph.Finalization writes later.graph ∧
      later.stats.writes = resolver.stats.writes + writes.length := by
  induction steps with
  | refl => exact ⟨[], .none, rfl⟩
  | tail _ step ih =>
      obtain ⟨writes, hwrites, hcount⟩ := ih
      obtain ⟨more, hmore, hcount'⟩ := step.finalization
      refine ⟨writes ++ more, hwrites.append hmore, ?_⟩
      rw [hcount', hcount, List.length_append, Nat.add_assoc]

/-- A final type stays, whatever is asked for. -/
theorem Reaches.get?_of_final {id : SymbolId} {type : Ty} (steps : resolver.Reaches later)
    (hget : resolver.graph.get? id = some type) (hfinal : type.Final) :
    later.graph.get? id = some type := by
  obtain ⟨writes, hwrites, -⟩ := steps.finalization
  exact hwrites.get?_of_final hget hfinal

end Resolver

end DeferredTypes
