import DeferredTypes.Proofs.Declarations
import DeferredTypes.Proofs.FinalAnswers
import DeferredTypes.Proofs.Termination

/-! The discipline of the guard. A resolution must leave symbols in the reverse order of opening them,
must not open a symbol that is open, must use only numbers that the graph has given out, and must have left
every symbol at its end. Some of these rules are nowhere checked: a symbol is taken off the stack wherever
it is, and a write to a symbol that does not exist is lost. So the resolution is written down once more
with all checks in it, and over graphs that came about by declarations the two are the same. -/

namespace DeferredTypes

/-! ### A resolution with checks -/

namespace Checked

def breach {α : Type} : Walk α := throw (.fault (.guard .notEntered))

/-- Uses the graph at a number, which must have been given out. -/
def allocated {α : Type} (id : SymbolId) (walk : Walk α) : Walk α := do
  let pass ← get
  if id < pass.graph.size then walk else breach

/-- Takes a symbol off the stack. It must be on top. -/
def leave (id : SymbolId) : Walk Unit := do
  let pass ← get
  if pass.guard.stack.getLast? = some id then Walk.leave id else breach

/-- Opens a symbol for the time of a walk. It must not be open. -/
def withOpen (id : SymbolId) (body : Walk Ty) : Walk Ty := do
  let pass ← get
  let (entry, guard) := pass.guard.enter id
  set { pass with guard }
  match entry with
  | .cycle _ => breach
  | .depthExceeded | .iterationExceeded => allocated id (Walk.abort id)
  | .entered => do
      let position := guard.depth - 1
      modify fun pass => { pass with lowLink := none }.record (.walked id position)
      let result ← attempt body
      leave id
      let inner := (← get).lowLink
      modify fun inside => { inside with lowLink := pass.lowLink }
      let type ← Walk.conclude result
      allocated id (Walk.settle id position inner type)
      return type

/-- One level of the recursion. -/
def symbolWith (symbol : SymbolId → Walk Ty) (id : SymbolId) : Walk Ty := do
  let pass ← get
  match pass.guard.position? id with
  | some position => allocated id (Walk.cut id position)
  | none =>
      match pass.graph.get? id with
      | some stored =>
          if stored.containsReference then withOpen id (Walk.resolve symbol stored)
          else do
            Walk.note (.recalled id)
            return stored
      | none => breach

/-- The type of a symbol. No more levels may be needed than there are symbols that can be opened. -/
def symbol (id : SymbolId) : Walk Ty := do
  let pass ← get
  symbolWith^[pass.closed.length + 1] (fun _ => breach) id

/-- Takes symbols off the stack in order. Each of them must be on top. -/
def leaveAll : List SymbolId → Walk Unit
  | [] => pure ()
  | id :: rest => do
      leave id
      leaveAll rest

/-- A part of the resolution after which symbols are taken off the stack, the last one first. -/
def leaving (opened : List SymbolId) (body : Walk Ty) : Walk Ty := do
  let result ← attempt body
  leaveAll opened.reverse
  Walk.conclude result

def typeWithin (visiting : List SymbolId) (type : Ty) : Walk Ty := do
  let (opened, denied) ← Walk.seed visiting
  leaving opened (match denied with
    | some id => allocated id (Walk.abort id)
    | none => Walk.resolve symbol type)

/-! ### The checks hold -/

variable {pass : Pass} {id : SymbolId}

theorem outcome_allocated {α : Type} (hid : id < pass.graph.size) (walk : Walk α) :
    outcome (allocated id walk) pass = outcome walk pass := by
  rw [allocated, outcome_get_bind, if_pos hid]

theorem outcome_leave {below : List SymbolId} (hstack : pass.guard.stack = below ++ [id]) :
    outcome (leave id) pass = outcome (Walk.leave id) pass := by
  have htop : pass.guard.stack.getLast? = some id := by rw [hstack, List.getLast?_concat]
  rw [leave, outcome_get_bind, if_pos htop]

theorem outcome_withOpen_of_not_admits {body : Walk Ty} {path : Path} (hclosed : id ∉ pass.guard.stack)
    (hadmits : ¬pass.guard.Admits) (hpath : pass.graph.path? id = some path) :
    outcome (withOpen id body) pass =
      (.error (.error (.aborted path pass.guard.depth pass.guard.attempted.iterations)),
        { pass with guard := pass.guard.attempted }) := by
  let attempted : Pass := { pass with guard := pass.guard.attempted }
  have hid : id < attempted.graph.size := Graph.lt_size_of_path? hpath
  have habort : outcome (allocated id (Walk.abort id) : Walk Ty) attempted = _ :=
    (outcome_allocated hid _).trans (Walk.outcome_abort_of_path hpath)
  rw [withOpen, outcome_get_bind]
  rcases Guard.enter_of_not_admits hclosed hadmits with henter | henter
  · rw [henter]
    exact habort
  · rw [henter]
    exact habort

/-- The walk of a symbol gives back the stack with the symbol on top, so that leaving it passes. -/
theorem outcome_withOpen_of_admits {body : Walk Ty} {result : Except Halt Ty} {inside : Pass}
    (hclosed : id ∉ pass.guard.stack) (hadmits : pass.guard.Admits)
    (hbody : outcome body (pass.opened id) = (result, inside)) (hid : id < inside.graph.size)
    (hstack : ¬Faulty result → inside.guard.stack = pass.guard.stack ++ [id]) :
    outcome (withOpen id body) pass = (result, pass.settled id result inside) := by
  have hposition : (pass.guard.stack ++ [id]).length - 1 = pass.guard.stack.length := by simp
  have hleave : ¬Faulty result → outcome (leave id) inside =
      (.ok (), { inside with
        guard := { inside.guard with stack := inside.guard.stack.erase id } }.record (.left id)) := by
    intro hresult
    rw [outcome_leave (hstack hresult)]
    apply Walk.outcome_leave
    rw [hstack hresult]
    exact List.mem_append_right _ (List.mem_singleton_self id)
  rw [withOpen, outcome_get_bind, Guard.enter_of_admits hclosed hadmits]
  simp only [outcome_set_bind, outcome_modify_bind, Guard.depth, hposition]
  change outcome (attempt body >>= _) (pass.opened id) = _
  rw [outcome_bind, outcome_attempt, hbody]
  rcases result with (error | fault) | type
  · dsimp only
    rw [outcome_bind, hleave (not_faulty_error _)]
    rfl
  · rfl
  · dsimp only
    rw [outcome_bind, hleave (not_faulty_ok _)]
    change outcome (allocated id (Walk.settle id pass.guard.depth inside.lowLink type) >>= fun _ => pure type)
      (pass.resumed inside id) = _
    have hresumed : id < (pass.resumed inside id).graph.size := hid
    rw [outcome_bind, outcome_allocated hresumed, Walk.outcome_settle]
    rfl

/-- A level of the recursion passes its checks if the levels below it do. -/
theorem outcome_symbolWith {symbol : SymbolId → Walk Ty} (hgraph : pass.graph.Indexed)
    (hid : id < pass.graph.size)
    (hsymbol : ∀ next inner, inner.graph.Indexed → next < inner.graph.size → pass.InWalk id inner →
      outcome (symbol next) inner = outcome (Walk.symbol next) inner) :
    outcome (symbolWith symbol id) pass = outcome (Walk.symbol id) pass := by
  obtain ⟨result, events, after, run⟩ := (Task.symbol id).exists_run pass
  rw [run.outcome_symbol, symbolWith, outcome_get_bind]
  cases run with
  | cut hposition =>
      rw [hposition]
      exact outcome_allocated hid _
  | unallocated _ hget => exact absurd hid (Graph.not_lt_size_of_get? hget)
  | recalled hclosed hget hfinal =>
      rw [Guard.position?_eq_none_iff.mpr hclosed, hget]
      simp only [hfinal]
      rfl
  | exhausted hwaits hadmits hpath =>
      rw [Guard.position?_eq_none_iff.mpr hwaits.closed, hwaits.get]
      simp only [hwaits.pending, if_true]
      exact outcome_withOpen_of_not_admits hwaits.closed hadmits hpath
  | walked hwaits hadmits hwalk =>
      rw [Guard.position?_eq_none_iff.mpr hwaits.closed, hwaits.get]
      simp only [hwaits.pending, if_true]
      refine outcome_withOpen_of_admits hwaits.closed hadmits ?_ ?_ hwalk.stack_eq
      · rw [← Inquiry.run_ofTy]
        apply hwalk.outcome_run_inquiry
        intro path next inner hlookup hstack hsame hreplays
        -- What the walk asks for comes from the index, which leads to symbols of the graph only.
        have hinner : inner.graph.Indexed := hgraph.of_sameSymbols hsame
        exact hsymbol next inner hinner (hinner.lt_size hlookup)
          ⟨⟨_, hwaits⟩, hstack, hsame, fun h => hreplays (h.opened id)⟩
      · rw [hwalk.sameSymbols.size]
        exact hid

theorem outcome_iterate_symbolWith (count : Nat) (id : SymbolId) (pass : Pass)
    (hcount : pass.closed.length < count) (hgraph : pass.graph.Indexed) (hid : id < pass.graph.size) :
    outcome (symbolWith^[count] (fun _ => breach) id) pass = outcome (Walk.symbol id) pass := by
  induction count generalizing id pass with
  | zero => omega
  | succ count ih =>
      -- Each level opens one symbol more, so the levels below need one count less.
      rw [Function.iterate_succ_apply']
      apply outcome_symbolWith hgraph hid
      intro next inner hinner hnext hwalk
      have hshorter := hwalk.length_closed_lt
      exact ih next inner (by omega) hinner hnext

/-- Over an exact index, no check of a resolution fails. -/
theorem outcome_symbol (hgraph : pass.graph.Indexed) (hid : id < pass.graph.size) :
    outcome (symbol id) pass = outcome (Walk.symbol id) pass := by
  rw [symbol, outcome_get_bind]
  exact outcome_iterate_symbolWith _ id pass (Nat.lt_succ_self _) hgraph hid

/-- Symbols that are left in the reverse order of their entries pass the checks. -/
theorem outcome_leaveAll (ids : List SymbolId) (pass : Pass) (hnodup : pass.guard.stack.Nodup)
    {below : List SymbolId} (hstack : pass.guard.stack = below ++ ids.reverse) :
    outcome (leaveAll ids) pass = outcome (Walk.leaveAll ids) pass := by
  induction ids generalizing pass with
  | nil => rfl
  | cons id rest ih =>
      have htop : pass.guard.stack = (below ++ rest.reverse) ++ [id] := by
        rw [hstack, List.reverse_cons, List.append_assoc]
      have hopen : id ∈ pass.guard.stack := by
        rw [htop]
        exact List.mem_append_right _ (List.mem_singleton_self id)
      have hbelow : id ∉ below ++ rest.reverse := by
        rw [htop, List.nodup_append] at hnodup
        exact fun h => hnodup.2.2 id h id (List.mem_singleton_self id) rfl
      rw [leaveAll, Walk.leaveAll, outcome_bind, outcome_bind, outcome_leave htop, Walk.outcome_leave hopen]
      apply ih
      · exact hnodup.erase id
      · change pass.guard.stack.erase id = below ++ rest.reverse
        rw [htop, Guard.erase_top hbelow]

end Checked

/-! ### The parts of a resolution -/

/-- From a state, a part of a resolution passes all checks, does not fault, and ends with the stack with
which it began. -/
structure Pass.Disciplined (pass : Pass) (walk checked : Walk Ty) : Prop where
  checks : outcome checked pass = outcome walk pass
  sound : ¬Faulty (outcome walk pass).1
  balanced : (outcome walk pass).2.guard.stack = pass.guard.stack

namespace Pass.Disciplined

variable {pass : Pass} {walk checked : Walk Ty} {result : Except Halt Ty} {after : Pass}

theorem of_outcome (hwalk : outcome walk pass = (result, after)) (hchecked : outcome checked pass = (result, after))
    (hresult : ¬Faulty result) (hstack : after.guard.stack = pass.guard.stack) :
    pass.Disciplined walk checked where
  checks := hchecked.trans hwalk.symm
  sound := by rwa [hwalk]
  balanced := by rwa [hwalk]

theorem symbol (hgraph : pass.graph.Indexed) {id : SymbolId} (hid : id < pass.graph.size) :
    pass.Disciplined (Walk.symbol id) (Checked.symbol id) := by
  obtain ⟨result, events, after, run⟩ := (Task.symbol id).exists_run pass
  have hresult : ¬Faulty result := run.not_faulty hgraph hid
  exact of_outcome run.outcome_symbol ((Checked.outcome_symbol hgraph hid).trans run.outcome_symbol) hresult
    (run.stack_eq hresult)

theorem inquiry (hgraph : pass.graph.Indexed) (questions : Inquiry Ty) :
    pass.Disciplined (questions.run Walk.symbol) (questions.run Checked.symbol) := by
  obtain ⟨result, events, after, run⟩ := (Task.inquiry questions).exists_run pass
  have hresult : ¬Faulty result := run.not_faulty hgraph trivial
  refine of_outcome ?_ ?_ hresult (run.stack_eq hresult)
  · apply run.outcome_run_inquiry
    intro path id inner _ _ _ _
    rfl
  · apply run.outcome_run_inquiry
    intro path id inner hlookup _ hsame _
    have hinner : inner.graph.Indexed := hgraph.of_sameSymbols hsame
    exact Checked.outcome_symbol hinner (hinner.lt_size hlookup)

theorem type (hgraph : pass.graph.Indexed) (ty : Ty) :
    pass.Disciplined (Walk.type ty) (Walk.resolve Checked.symbol ty) := by
  rw [← Walk.resolve_symbol, ← Inquiry.run_ofTy, ← Inquiry.run_ofTy]
  exact inquiry hgraph (.ofTy ty)

/-- An attempt to open a symbol that is beyond the budget. -/
theorem abort {id : SymbolId} (hid : id < pass.graph.size) :
    pass.Disciplined (Walk.abort id) (Checked.allocated id (Walk.abort id)) := by
  obtain ⟨type, hget⟩ := Graph.exists_get? hid
  obtain ⟨path, hpath⟩ := Graph.exists_path hget
  have habort := Walk.outcome_abort_of_path (α := Ty) hpath
  exact of_outcome habort ((Checked.outcome_allocated hid _).trans habort) (not_faulty_error _) rfl

/-- The symbols opened from the outside are left in the reverse order, whatever happens in between. -/
theorem leaving {opened : List SymbolId} {seeded : Pass} (hseeded : pass.Seeded opened seeded)
    (hbody : seeded.Disciplined walk checked) :
    ¬Faulty (outcome (Walk.leaving opened walk) seeded).1 ∧
      (outcome (Walk.leaving opened walk) seeded).2.guard.stack = pass.guard.stack ∧
      outcome (Checked.leaving opened checked) seeded = outcome (Walk.leaving opened walk) seeded := by
  rcases houtcome : outcome walk seeded with ⟨result, inside⟩
  have hresult : ¬Faulty result := by
    have := hbody.sound
    rwa [houtcome] at this
  have hstack : inside.guard.stack = seeded.guard.stack := by
    have := hbody.balanced
    rwa [houtcome] at this
  have hchecked : outcome checked seeded = (result, inside) := hbody.checks.trans houtcome
  obtain ⟨left, after, hleaving, -, hafter, -⟩ := Walk.outcome_leaving hseeded houtcome fun _ => hstack
  refine ⟨by rwa [hleaving], by rw [hleaving]; exact hafter hresult, ?_⟩
  have hleave : outcome (Checked.leaveAll opened.reverse) inside =
      outcome (Walk.leaveAll opened.reverse) inside := by
    apply Checked.outcome_leaveAll
    · rw [hstack]
      exact hseeded.nodup
    · rw [hstack, hseeded.stack, List.reverse_reverse]
  rw [Checked.leaving, Walk.leaving, outcome_bind, outcome_bind, outcome_attempt, outcome_attempt, houtcome, hchecked]
  -- An error is held back until the symbols have been left.
  rcases result with (error | fault) | type
  · dsimp only
    rw [outcome_bind, outcome_bind, hleave]
  · exact absurd trivial hresult
  · dsimp only
    rw [outcome_bind, outcome_bind, hleave]

/-- A walk within open symbols leaves them again in order, also after an error. -/
theorem typeWithin (hgraph : pass.graph.Indexed) (hnodup : pass.guard.stack.Nodup)
    {visiting : List SymbolId} (hvisiting : ∀ id ∈ visiting, id < pass.graph.size) (ty : Ty) :
    pass.Disciplined (Walk.typeWithin visiting ty) (Checked.typeWithin visiting ty) := by
  obtain ⟨opened, denied, seeded, hseed, hseeded, -, hdenied⟩ := Walk.outcome_seed visiting pass hnodup
  cases denied with
  | some id =>
      have hid : id < seeded.graph.size := by
        rw [hseeded.graph]
        exact hvisiting id (hdenied id rfl).1
      obtain ⟨hsound, hbalanced, hchecks⟩ := leaving hseeded (abort hid)
      rw [← Walk.outcome_typeWithin_of_some hseed ty] at hsound hbalanced hchecks
      refine ⟨?_, hsound, hbalanced⟩
      rw [← hchecks, Checked.typeWithin, outcome_bind, hseed]
  | none =>
      have htype : seeded.Disciplined (Walk.type ty) (Walk.resolve Checked.symbol ty) := by
        apply type
        rw [hseeded.graph]
        exact hgraph
      obtain ⟨hsound, hbalanced, hchecks⟩ := leaving hseeded htype
      rw [← Walk.outcome_typeWithin_of_none hseed ty] at hsound hbalanced hchecks
      refine ⟨?_, hsound, hbalanced⟩
      rw [← hchecks, Checked.typeWithin, outcome_bind, hseed]

end Pass.Disciplined

/-! ### Requests -/

theorem Graph.Finalization.built {first second : Graph} {writes : List (SymbolId × Ty)}
    (h : first.Finalization writes second) (hfirst : first.Built) : second.Built := by
  induction h with
  | none => exact hfirst
  | write _ _ _ _ ih => exact ih (.set _ _ hfirst)

namespace Resolver

/-- The numbers in a request are those of symbols of the graph. -/
def Call.Declared (graph : Graph) : Call → Prop
  | .resolve id | .tryResolve id => id < graph.size
  | .tryResolveTypeWithin _ visiting => ∀ id ∈ visiting, id < graph.size
  | .resolvePath _ | .resolveAll | .tryResolveAll | .resolveType _ => True

/-- Whatever has become of the types of its symbols, a request over this graph does not fault. -/
def Safe {α : Type} (graph : Graph) (request : Resolving α) : Prop :=
  ∀ resolver : Resolver, graph.SameSymbols resolver.graph → ¬Faulty (outcome request resolver).1

namespace Safe

variable {α β : Type} {graph : Graph}

theorem pure (value : α) : Safe graph (Pure.pure value) := fun _ _ => not_faulty_ok value

theorem bind {action : Resolving α} {next : α → Resolving β} (haction : Safe graph action)
    (hleads : Leads action) (hnext : ∀ value, Safe graph (next value)) : Safe graph (action >>= next) := by
  intro resolver hsame
  have hresult := haction resolver hsame
  obtain ⟨writes, hwrites, -⟩ := (hleads resolver).finalization
  have hafter := hsame.trans hwrites.sameSymbols
  rw [outcome_bind]
  rcases houtcome : outcome action resolver with ⟨(error | fault) | value, after⟩
  · exact not_faulty_error error
  · rw [houtcome] at hresult
    exact absurd trivial hresult
  · rw [houtcome] at hafter
    exact hnext value after hafter

theorem map {action : Resolving α} (haction : Safe graph action) (f : α → β) : Safe graph (f <$> action) := by
  intro resolver hsame
  have hresult := haction resolver hsame
  rw [outcome_map]
  rcases houtcome : outcome action resolver with ⟨(error | fault) | value, after⟩
  · exact not_faulty_error error
  · rw [houtcome] at hresult
    exact absurd trivial hresult
  · exact not_faulty_ok (f value)

theorem degrade {request : Resolving Ty} (hrequest : Safe graph request) :
    Safe graph (Resolver.degrade request) := by
  intro resolver hsame
  have hresult := hrequest resolver hsame
  rw [Resolver.degrade, outcome_tryCatch]
  rcases houtcome : outcome request resolver with ⟨(error | fault) | type, after⟩
  · exact not_faulty_ok Ty.unknown
  · rw [houtcome] at hresult
    exact absurd trivial hresult
  · exact not_faulty_ok type

theorem forM {ids : List SymbolId} {request : SymbolId → Resolving Unit}
    (hrequest : ∀ id ∈ ids, Safe graph (request id)) (hleads : ∀ id, Leads (request id)) :
    Safe graph (ids.forM request) := by
  induction ids with
  | nil => exact pure ()
  | cons id rest ih =>
      change Safe graph (request id >>= fun _ => rest.forM request)
      refine (hrequest id List.mem_cons_self).bind (hleads id) fun _ => ih ?_
      intro other hother
      exact hrequest other (List.mem_cons_of_mem id hother)

/-- A resolution that keeps to the discipline ends with an empty stack, so that its guard may be given
up. -/
theorem run {walk checked : Walk Ty}
    (hwalk : ∀ later limits, graph.SameSymbols later → (Pass.start later limits).Disciplined walk checked) :
    Safe graph (Resolver.run walk) := by
  intro resolver hsame
  obtain ⟨-, hsound, hbalanced⟩ := hwalk resolver.graph resolver.profile.limits hsame
  rcases houtcome : outcome walk (.start resolver.graph resolver.profile.limits) with ⟨result, pass⟩
  rw [houtcome] at hsound hbalanced
  rw [outcome_run houtcome fun _ => hbalanced]
  exact hsound

/-- Requests for all symbols ask for those of the graph only. -/
theorem eachId {request : SymbolId → Resolving Unit}
    (hrequest : ∀ id, id < graph.size → Safe graph (request id)) (hleads : ∀ id, Leads (request id)) :
    Safe graph (do (← get).graph.ids.forM request) := by
  intro resolver hsame
  rw [outcome_get_bind, hsame.ids_eq]
  refine forM ?_ hleads resolver hsame
  intro id hid
  exact hrequest id (List.mem_range.mp hid)

variable (hgraph : graph.Indexed)
include hgraph

theorem tryResolve {id : SymbolId} (hid : id < graph.size) : Safe graph (Resolver.tryResolve id) := by
  apply run
  intro later limits hsame
  exact .symbol (hgraph.of_sameSymbols hsame) (hsame.size ▸ hid)

theorem tryResolveTypeWithin (type : Ty) {visiting : List SymbolId}
    (hvisiting : ∀ id ∈ visiting, id < graph.size) :
    Safe graph (Resolver.tryResolveTypeWithin type visiting) := by
  apply run
  intro later limits hsame
  refine .typeWithin (hgraph.of_sameSymbols hsame) List.nodup_nil ?_ type
  intro id hid
  exact hsame.size ▸ hvisiting id hid

theorem resolvePath (path : Path) : Safe graph (Resolver.resolvePath path) := by
  intro resolver hsame
  rw [Resolver.resolvePath, outcome_get_bind]
  cases hlookup : resolver.graph.lookup path with
  | some id =>
      rw [hsame.lookup_eq] at hlookup
      exact (tryResolve hgraph (hgraph.lt_size hlookup)).degrade resolver hsame
  | none => exact not_faulty_ok Ty.unknown

/-- A call about declared symbols does not fault. -/
theorem answer {call : Call} (hcall : call.Declared graph) : Safe graph call.answer := by
  cases call with
  | resolve id => exact (tryResolve hgraph hcall).degrade.map _
  | tryResolve id => exact (tryResolve hgraph hcall).map _
  | resolvePath path => exact (resolvePath hgraph path).map _
  | resolveAll =>
      have hleads : ∀ id, Leads (discard (Resolver.resolve id)) := fun id => (leads_resolve id).map _
      refine bind ?_ (.get_bind fun _ => .forM hleads) fun _ => pure none
      exact eachId (fun id hid => (tryResolve hgraph hid).degrade.map _) hleads
  | tryResolveAll =>
      have hleads : ∀ id, Leads (discard (Resolver.tryResolve id)) := fun id => (leads_tryResolve id).map _
      refine bind ?_ (.get_bind fun _ => .forM hleads) fun _ => pure none
      exact eachId (fun id hid => (tryResolve hgraph hid).map _) hleads
  | resolveType type => exact (tryResolveTypeWithin hgraph type (List.forall_mem_nil _)).degrade.map _
  | tryResolveTypeWithin type visiting => exact (tryResolveTypeWithin hgraph type hcall).map _

end Safe

end Resolver

/-- **The guard is used with discipline.** From every state over a graph that came about by declarations,
each part of a resolution (a symbol of the graph, a type, a reference, a chain) gives the same with all
checks as without, does not fault, and ends with the stack with which it began, whether it finds a type or
gives up. The same holds of a request from within symbols of the graph, in any order and with repetitions:
its stack is empty at the end. So no request for symbols of the graph faults, and the graph that it leaves
allows the same requests. -/
theorem guard_discipline :
    (∀ pass : Pass, pass.graph.Built →
      (∀ id < pass.graph.size, pass.Disciplined (Walk.symbol id) (Checked.symbol id)) ∧
      (∀ type, pass.Disciplined (Walk.type type) (Walk.resolve Checked.symbol type)) ∧
      (∀ target chain, pass.Disciplined (Walk.resolveReference Walk.symbol target chain)
        (Walk.resolveReference Checked.symbol target chain)) ∧
      ∀ chain type, pass.Disciplined (Walk.applyChain Walk.symbol chain type)
        (Walk.applyChain Checked.symbol chain type)) ∧
    (∀ graph : Graph, graph.Built → ∀ limits visiting type, (∀ id ∈ visiting, id < graph.size) →
      (Pass.start graph limits).Disciplined (Walk.typeWithin visiting type)
        (Checked.typeWithin visiting type)) ∧
    ∀ resolver : Resolver, resolver.graph.Built → ∀ call : Resolver.Call, call.Declared resolver.graph →
      ¬Faulty (outcome call.answer resolver).1 ∧ (outcome call.answer resolver).2.graph.Built ∧
        (outcome call.answer resolver).2.graph.size = resolver.graph.size := by
  refine ⟨?_, ?_, ?_⟩
  · intro pass hgraph
    refine ⟨fun id hid => .symbol hgraph.indexed hid, fun type => .type hgraph.indexed type, ?_, ?_⟩
    · intro target chain
      rw [← Inquiry.run_reference, ← Inquiry.run_reference]
      exact .inquiry hgraph.indexed _
    · intro chain type
      rw [← Inquiry.run_ofChain, ← Inquiry.run_ofChain]
      exact .inquiry hgraph.indexed _
  · intro graph hgraph limits visiting type hvisiting
    exact .typeWithin hgraph.indexed List.nodup_nil hvisiting type
  · intro resolver hgraph call hcall
    obtain ⟨writes, hwrites, -⟩ := (Resolver.leads_answer call resolver).finalization
    exact ⟨Resolver.Safe.answer hgraph.indexed hcall resolver (.refl _), hwrites.built hgraph,
      hwrites.sameSymbols.size⟩

/-- Two functions that call each other and a method: a chain from within both functions, with a budget
that does not suffice, and a request for all symbols. -/
theorem guard_discipline_mutual :
    let even := Path.function "even"
    let odd := Path.function "odd"
    let get := Path.method "Store" "get"
    let functions := ((Graph.empty.declare even (.call odd)).2.declare odd (.union [.call even])).2
    let graph := (functions.declare get (.call even)).2
    let limits : Limits := ⟨2, 10⟩
    let type := Ty.reference get [.callResult]
    (outcome (Walk.typeWithin [1, 0, 1] type) (.start graph limits)).1 =
        .error (.error (.aborted get 2 4)) ∧
      outcome (Checked.typeWithin [1, 0, 1] type) (.start graph limits) =
        outcome (Walk.typeWithin [1, 0, 1] type) (.start graph limits) ∧
      (outcome (Walk.typeWithin [1, 0, 1] type) (.start graph limits)).2.guard.stack = [] ∧
      ¬Faulty (outcome (Resolver.Call.answer .resolveAll) ⟨graph, .interactive, {}⟩).1 := by
  intro even odd get functions graph limits type
  have hgraph : graph.Built := .declare get _ (.declare odd _ (.declare even _ .empty))
  obtain ⟨-, hwithin, hrequests⟩ := guard_discipline
  have hdeclared : ∀ id ∈ [1, 0, 1], id < graph.size := by decide +kernel
  obtain ⟨hchecks, -, hbalanced⟩ := hwithin graph hgraph limits [1, 0, 1] type hdeclared
  exact ⟨by decide +kernel, hchecks, hbalanced, (hrequests ⟨graph, .interactive, {}⟩ hgraph .resolveAll trivial).1⟩

end DeferredTypes
