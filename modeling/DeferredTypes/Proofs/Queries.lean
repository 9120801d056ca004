import DeferredTypes.Proofs.GuardDiscipline
import DeferredTypes.Proofs.Report

/-! Questions about a program in terms of one resolver. Each question gets a resolver of its own, which
counts from nothing, and its counts are added up afterwards. What a request gives does not depend on the
counts, and it counts on top of what was counted before it, whether it ends well or not. So a program
cannot be told from one resolver that lives for all the questions. -/

namespace DeferredTypes

/-! ### Requests that count on top of what was counted before -/

namespace Resolver

/-- The resolver with some counts of before. -/
def credit (resolver : Resolver) (earlier : Stats) : Resolver :=
  { resolver with stats := earlier.merge resolver.stats }

/-- The counts of before change nothing but the counts after the request, in which they are contained; and
the limits stay. -/
structure Additive {α : Type} (request : Resolving α) : Prop where
  outcome_credit : ∀ (resolver : Resolver) (earlier : Stats),
    outcome request (resolver.credit earlier) =
      ((outcome request resolver).1, (outcome request resolver).2.credit earlier)
  profile_eq : ∀ resolver : Resolver, (outcome request resolver).2.profile = resolver.profile

namespace Additive

variable {α β : Type}

theorem pure (value : α) : Additive (Pure.pure value) := ⟨fun _ _ => rfl, fun _ => rfl⟩

theorem throw (halt : Halt) : Additive (MonadExcept.throw halt : Resolving α) :=
  ⟨fun _ _ => rfl, fun _ => rfl⟩

theorem bind {request : Resolving α} {next : α → Resolving β} (hrequest : Additive request)
    (hnext : ∀ value, Additive (next value)) : Additive (request >>= next) := by
  constructor
  · intro resolver earlier
    rw [outcome_bind, outcome_bind, hrequest.outcome_credit]
    rcases outcome request resolver with ⟨halt | value, after⟩
    · rfl
    · exact (hnext value).outcome_credit after earlier
  · intro resolver
    have hprofile := hrequest.profile_eq resolver
    rw [outcome_bind]
    rcases houtcome : outcome request resolver with ⟨halt | value, after⟩
    · rwa [houtcome] at hprofile
    · rw [houtcome] at hprofile
      exact ((hnext value).profile_eq after).trans hprofile

theorem map {request : Resolving α} (hrequest : Additive request) (f : α → β) :
    Additive (f <$> request) := by
  rw [map_eq_pure_bind]
  exact hrequest.bind fun value => pure (f value)

theorem tryCatch {request : Resolving α} {handler : Halt → Resolving α} (hrequest : Additive request)
    (hhandler : ∀ halt, Additive (handler halt)) : Additive (MonadExcept.tryCatch request handler) := by
  constructor
  · intro resolver earlier
    rw [outcome_tryCatch, outcome_tryCatch, hrequest.outcome_credit]
    rcases outcome request resolver with ⟨halt | value, after⟩
    · exact (hhandler halt).outcome_credit after earlier
    · rfl
  · intro resolver
    have hprofile := hrequest.profile_eq resolver
    rw [outcome_tryCatch]
    rcases houtcome : outcome request resolver with ⟨halt | value, after⟩
    · rw [houtcome] at hprofile
      exact ((hhandler halt).profile_eq after).trans hprofile
    · rwa [houtcome] at hprofile

/-- A request may depend on the graph and on the limits. -/
theorem get_bind {next : Resolver → Resolving α} (hnext : ∀ resolver, Additive (next resolver))
    (hblind : ∀ resolver earlier, next (credit resolver earlier) = next resolver) :
    Additive (get >>= next) := by
  constructor
  · intro resolver earlier
    rw [outcome_get_bind, outcome_get_bind, hblind]
    exact (hnext resolver).outcome_credit resolver earlier
  · intro resolver
    exact (hnext resolver).profile_eq resolver

theorem forM {ids : List SymbolId} {request : SymbolId → Resolving Unit}
    (hrequest : ∀ id, Additive (request id)) : Additive (ids.forM request) := by
  induction ids with
  | nil => exact pure ()
  | cons id rest ih =>
      change Additive (request id >>= fun _ => rest.forM request)
      exact (hrequest id).bind fun _ => ih

theorem degrade {request : Resolving Ty} (hrequest : Additive request) :
    Additive (Resolver.degrade request) := by
  refine hrequest.tryCatch fun halt => ?_
  cases halt with
  | error error => exact pure Ty.unknown
  | fault fault => exact throw (.fault fault)

/-- A resolution sees the graph and the limits only. -/
theorem run (walk : Walk α) : Additive (Resolver.run walk) := by
  constructor
  · intro resolver earlier
    rcases hwalk : StateT.run walk.run (.start resolver.graph resolver.profile.limits) with ⟨result, pass⟩
    have hcredit : StateT.run walk.run (.start (resolver.credit earlier).graph
      (resolver.credit earlier).profile.limits) = (result, pass) := hwalk
    have hstats : (resolver.credit earlier).stats.merge (Stats.ofJournal pass.journal) =
        earlier.merge (resolver.stats.merge (Stats.ofJournal pass.journal)) := Stats.merge_assoc _ _ _
    rw [Resolver.run, outcome_get_bind, outcome_get_bind, hwalk, hcredit]
    simp only [outcome_set_bind, hstats]
    rcases result with (error | fault) | value <;> cases pass.guard.close <;> rfl
  · intro resolver
    rcases hwalk : StateT.run walk.run (.start resolver.graph resolver.profile.limits) with ⟨result, pass⟩
    rw [Resolver.run, outcome_get_bind, hwalk]
    simp only [outcome_set_bind]
    rcases result with (error | fault) | value <;> cases pass.guard.close <;> rfl

theorem resolve (id : SymbolId) : Additive (Resolver.resolve id) := (run _).degrade

theorem resolvePath (path : Path) : Additive (Resolver.resolvePath path) := by
  constructor
  · intro resolver earlier
    have hcredit : (resolver.credit earlier).graph.lookup path = resolver.graph.lookup path := rfl
    rw [Resolver.resolvePath, outcome_get_bind, outcome_get_bind, hcredit]
    cases resolver.graph.lookup path with
    | some id => exact (resolve id).outcome_credit resolver earlier
    | none => rfl
  · intro resolver
    rw [Resolver.resolvePath, outcome_get_bind]
    cases resolver.graph.lookup path with
    | some id => exact (resolve id).profile_eq resolver
    | none => rfl

theorem answer (call : Call) : Additive call.answer := by
  cases call with
  | resolve id => exact (resolve id).map _
  | tryResolve id => exact (run _).map _
  | resolvePath path => exact (resolvePath path).map _
  | resolveAll =>
      exact bind (get_bind (fun _ => forM fun id => (resolve id).map _) fun _ _ => rfl) fun _ => pure none
  | tryResolveAll =>
      exact bind (get_bind (fun _ => forM fun id => (run _).map _) fun _ _ => rfl) fun _ => pure none
  | resolveType type => exact (run _).degrade.map _
  | tryResolveTypeWithin type visiting => exact (run _).map _

end Additive

section Attempt

variable {α : Type} {request : Resolving α}

theorem Additive.attempt (hrequest : Additive request) : Additive (DeferredTypes.attempt request) := by
  refine (hrequest.map Except.ok).tryCatch fun halt => ?_
  cases halt with
  | error error => exact pure (Except.error error)
  | fault fault => exact throw (.fault fault)

theorem Leads.attempt (hrequest : Leads request) : Leads (DeferredTypes.attempt request) := by
  intro resolver
  have hreaches := hrequest resolver
  rw [outcome_attempt]
  rcases houtcome : outcome request resolver with ⟨(error | fault) | value, after⟩ <;>
    rwa [houtcome] at hreaches

theorem Safe.attempt {graph : Graph} (hrequest : Safe graph request) :
    Safe graph (DeferredTypes.attempt request) := by
  intro resolver hsame
  have hresult := hrequest resolver hsame
  rw [outcome_attempt]
  rcases houtcome : outcome request resolver with ⟨(error | fault) | value, after⟩
  · exact not_faulty_ok (Except.error error)
  · rw [houtcome] at hresult
    exact absurd trivial hresult
  · exact not_faulty_ok (Except.ok value)

end Attempt

end Resolver

/-! ### What callers do with a resolver -/

/-- What a caller does with a resolver: it makes requests one after the other, and may look at the graph
and the limits in between. What comes next may depend on all that it has seen; it does not look at the
counts. -/
inductive Script (α : Type)
  | done (value : α)
  | request (call : Resolver.Call) (next : Except ResolveError (Option Ty) → Script α)
  | look (next : Graph → Profile → Script α)

namespace Script

variable {α : Type}

/-- Lets a resolver answer the requests. An error is an answer, too. -/
def run : Script α → Resolving α
  | .done value => pure value
  | .request call next => do
      let reply ← attempt call.answer
      (next reply).run
  | .look next => do
      let resolver ← get
      (next resolver.graph resolver.profile).run

/-- The numbers in all requests are those of symbols of the graph. -/
def Declared (graph : Graph) : Script α → Prop
  | .done _ => True
  | .request call next => call.Declared graph ∧ ∀ reply, (next reply).Declared graph
  | .look next => ∀ later profile, graph.SameSymbols later → (next later profile).Declared graph

/-- A script reads no counts, since none of its calls does. -/
theorem additive (script : Script α) : Resolver.Additive script.run := by
  induction script with
  | done value => exact .pure value
  | request call next ih => exact (Resolver.Additive.answer call).attempt.bind ih
  | look next ih => exact .get_bind (fun resolver => ih resolver.graph resolver.profile) fun _ _ => rfl

theorem leads (script : Script α) : Resolver.Leads script.run := by
  induction script with
  | done value => exact .pure value
  | request call next ih => exact (Resolver.leads_answer call).attempt.bind ih
  | look next ih => exact .get_bind fun resolver => ih resolver.graph resolver.profile

/-- A script whose calls are about declared symbols does not fault. -/
theorem safe {graph : Graph} (hgraph : graph.Indexed) (script : Script α) (hscript : script.Declared graph) :
    Resolver.Safe graph script.run := by
  induction script with
  | done value => exact .pure value
  | request call next ih =>
      refine (Resolver.Safe.answer hgraph hscript.1).attempt.bind (Resolver.leads_answer call).attempt ?_
      exact fun reply => ih reply (hscript.2 reply)
  | look next ih =>
      intro resolver hsame
      exact ih resolver.graph resolver.profile (hscript _ _ hsame) resolver hsame

end Script

/-! ### Questions about a program -/

/-- A question about a program. What callers do with a resolver gives them a value of some type. -/
inductive Query (α : Type)
  | functionType (name : String)
  | tryFunctionType (name : String)
  | methodType (owner name : String)
  | tryMethodType (owner name : String)
  | methods (owner : String)
  | resolve (id : SymbolId)
  | tryResolve (id : SymbolId)
  | resolveAll
  | tryResolveAll
  | withResolver (script : Script α)

inductive Answer (α : Type)
  | type (type : Ty)
  | listing (methods : List (String × Ty))
  | done
  | value (value : α)

/-- What one resolver is asked about the symbol with a path, by the paths of a graph in the order of their
numbers: a request for its number, or nothing if nobody declared it. -/
def Resolver.typeAt (graph : Graph) (path : Path) (request : SymbolId → Resolving Ty) : Resolving Ty :=
  match graph.paths.idxOf? path with
  | some id => request id
  | none => pure .unknown

namespace Query

variable {α : Type}

def answer : Query α → Querying (Answer α)
  | .functionType name => .type <$> Program.functionType name
  | .tryFunctionType name => .type <$> Program.tryFunctionType name
  | .methodType owner name => .type <$> Program.methodType owner name
  | .tryMethodType owner name => .type <$> Program.tryMethodType owner name
  | .methods owner => .listing <$> Program.methods owner
  | .resolve id => .type <$> Program.resolve id
  | .tryResolve id => .type <$> Program.tryResolve id
  | .resolveAll => (fun _ => .done) <$> Program.resolveAll
  | .tryResolveAll => (fun _ => .done) <$> Program.tryResolveAll
  | .withResolver script => .value <$> Program.withResolver script.run

/-- The requests to one resolver that correspond to a question about a program with the symbols of a
graph. For the methods of a class each of them is asked for, in the order of the numbers. -/
def request (graph : Graph) : Query α → Resolving (Answer α)
  | .functionType name => .type <$> Resolver.typeAt graph (.function name) Resolver.resolve
  | .tryFunctionType name => .type <$> Resolver.typeAt graph (.function name) Resolver.tryResolve
  | .methodType owner name => .type <$> Resolver.typeAt graph (.method owner name) Resolver.resolve
  | .tryMethodType owner name => .type <$> Resolver.typeAt graph (.method owner name) Resolver.tryResolve
  | .methods owner => .listing <$> (graph.owned (some owner)).mapM fun method =>
      (method.1, ·) <$> Resolver.resolve method.2
  | .resolve id => .type <$> Resolver.resolve id
  | .tryResolve id => .type <$> Resolver.tryResolve id
  | .resolveAll => (fun _ => .done) <$> Resolver.resolveAll
  | .tryResolveAll => (fun _ => .done) <$> Resolver.tryResolveAll
  | .withResolver script => .value <$> script.run

/-- The numbers in a question are those of symbols of the graph. -/
def Declared (graph : Graph) : Query α → Prop
  | .resolve id | .tryResolve id => id < graph.size
  | .withResolver script => script.Declared graph
  | .functionType _ | .tryFunctionType _ | .methodType _ _ | .tryMethodType _ _ | .methods _
  | .resolveAll | .tryResolveAll => True

end Query

namespace Program

def toResolver (program : Program) : Resolver := ⟨program.graph, program.profile, program.stats⟩

def lookingUp (path : Path) (query : SymbolId → Querying Ty) : Querying Ty := do
  match (← get).graph.lookup path with
  | some id => query id
  | none => return .unknown

/-- The name of a function and its path lead to the same question. -/
theorem functionType_eq (name : String) : functionType name = lookingUp (.function name) resolve := by
  simp only [lookingUp, Graph.lookup_function]
  rfl

theorem tryFunctionType_eq (name : String) :
    tryFunctionType name = lookingUp (.function name) tryResolve := by
  simp only [lookingUp, Graph.lookup_function]
  rfl

theorem methodType_eq (owner name : String) :
    methodType owner name = lookingUp (.method owner name) resolve := by
  simp only [lookingUp, Graph.lookup_method]
  rfl

theorem tryMethodType_eq (owner name : String) :
    tryMethodType owner name = lookingUp (.method owner name) tryResolve := by
  simp only [lookingUp, Graph.lookup_method]
  rfl

/-- Over the symbols of a graph the question does not fault, and it gives and leaves what the request does
that is made to the resolver standing for the program. -/
def Realizes {α : Type} (graph : Graph) (query : Querying α) (request : Resolving α) : Prop :=
  ∀ program : Program, graph.SameSymbols program.graph →
    ¬Faulty (outcome query program).1 ∧ graph.SameSymbols (outcome query program).2.graph ∧
    outcome request program.toResolver =
      ((outcome query program).1, (outcome query program).2.toResolver)

namespace Realizes

variable {α β : Type} {graph : Graph} {query : Querying α} {request : Resolving α}

theorem pure (value : α) : Realizes graph (Pure.pure value) (Pure.pure value) :=
  fun _ hsame => ⟨not_faulty_ok value, hsame, rfl⟩

theorem bind {next : α → Querying β} {later : α → Resolving β} (hquery : Realizes graph query request)
    (hnext : ∀ value, Realizes graph (next value) (later value)) :
    Realizes graph (query >>= next) (request >>= later) := by
  intro program hsame
  obtain ⟨hsound, hafter, hagrees⟩ := hquery program hsame
  rw [outcome_bind, outcome_bind, hagrees]
  rcases houtcome : outcome query program with ⟨(error | fault) | value, after⟩
  · rw [houtcome] at hafter
    exact ⟨not_faulty_error error, hafter, rfl⟩
  · rw [houtcome] at hsound
    exact absurd trivial hsound
  · rw [houtcome] at hafter
    exact hnext value after hafter

theorem map (hquery : Realizes graph query request) (f : α → β) :
    Realizes graph (f <$> query) (f <$> request) := by
  rw [map_eq_pure_bind, map_eq_pure_bind]
  exact hquery.bind fun value => pure (f value)

theorem mapM {items : List α} {queries : α → Querying β} {requests : α → Resolving β}
    (hitems : ∀ item ∈ items, Realizes graph (queries item) (requests item)) :
    Realizes graph (items.mapM queries) (items.mapM requests) := by
  induction items with
  | nil => exact pure []
  | cons item rest ih =>
      obtain ⟨hitem, hrest⟩ := List.forall_mem_cons.mp hitems
      rw [List.mapM_cons, List.mapM_cons]
      exact hitem.bind fun first => (ih hrest).bind fun others => pure (first :: others)

/-- The counts of a new resolver, added to those of before, are the counts of one that counted these. -/
theorem withResolver (hadditive : Resolver.Additive request) (hleads : Resolver.Leads request)
    (hsafe : Resolver.Safe graph request) : Realizes graph (Program.withResolver request) request := by
  intro program hsame
  rcases houtcome : outcome request (.start program.graph program.profile) with ⟨result, resolver⟩
  have hresult : ¬Faulty result := by
    have hsound := hsafe (.start program.graph program.profile) hsame
    rwa [houtcome] at hsound
  have hafter : graph.SameSymbols resolver.graph := by
    obtain ⟨writes, hwrites, -⟩ := (hleads (.start program.graph program.profile)).finalization
    rw [houtcome] at hwrites
    exact hsame.trans hwrites.sameSymbols
  have hprofile : resolver.profile = program.profile := by
    have hstart := hadditive.profile_eq (.start program.graph program.profile)
    rwa [houtcome] at hstart
  rw [outcome_withResolver houtcome hresult]
  refine ⟨hresult, hafter, ?_⟩
  calc
    outcome request program.toResolver
    _ = outcome request ((Resolver.start program.graph program.profile).credit program.stats) := rfl
    _ = (result, resolver.credit program.stats) := by rw [hadditive.outcome_credit, houtcome]
    _ = (result, ⟨resolver.graph, program.profile, program.stats.merge resolver.stats⟩) := by
      rw [Resolver.credit, ← hprofile]

/-- A script can be run within one question or by one resolver for all. -/
theorem script (hgraph : graph.Indexed) {script : Script α} (hscript : script.Declared graph) :
    Realizes graph (Program.withResolver script.run) script.run :=
  withResolver script.additive script.leads (script.safe hgraph hscript)

theorem eachId {request : SymbolId → Resolving Unit} (hadditive : ∀ id, Resolver.Additive (request id))
    (hleads : ∀ id, Resolver.Leads (request id))
    (hsafe : ∀ id, id < graph.size → Resolver.Safe graph (request id)) :
    Realizes graph (Program.withResolver do (← get).graph.ids.forM request)
      (do (← get).graph.ids.forM request) :=
  withResolver (.get_bind (fun _ => .forM hadditive) fun _ _ => rfl) (.get_bind fun _ => .forM hleads)
    (.eachId hsafe hleads)

variable (hgraph : graph.Indexed)
include hgraph

theorem tryResolve (id : SymbolId) (hid : id < graph.size) :
    Realizes graph (Program.tryResolve id) (Resolver.tryResolve id) :=
  withResolver (.run _) (Resolver.leads_tryResolve id) (.tryResolve hgraph hid)

theorem resolve (id : SymbolId) (hid : id < graph.size) :
    Realizes graph (Program.resolve id) (Resolver.resolve id) :=
  withResolver (.resolve id) (Resolver.leads_resolve id) (Resolver.Safe.tryResolve hgraph hid).degrade

theorem resolveAll : Realizes graph Program.resolveAll Resolver.resolveAll :=
  eachId (fun id => (Resolver.Additive.resolve id).map _) (fun id => (Resolver.leads_resolve id).map _)
    fun _ hid => (Resolver.Safe.tryResolve hgraph hid).degrade.map _

theorem tryResolveAll : Realizes graph Program.tryResolveAll Resolver.tryResolveAll :=
  eachId (fun _ => (Resolver.Additive.run _).map _) (fun id => (Resolver.leads_tryResolve id).map _)
    fun _ hid => (Resolver.Safe.tryResolve hgraph hid).map _

/-- The index leads to the same symbol as the table of the symbols. -/
theorem lookingUp (path : Path) {query : SymbolId → Querying Ty} {request : SymbolId → Resolving Ty}
    (hquery : ∀ id, id < graph.size → Realizes graph (query id) (request id)) :
    Realizes graph (Program.lookingUp path query) (Resolver.typeAt graph path request) := by
  intro program hsame
  have hlookup : program.graph.lookup path = graph.paths.idxOf? path := by
    rw [hsame.lookup_eq, hgraph.lookup_eq_idxOf?]
  rw [Program.lookingUp, outcome_get_bind, hlookup, Resolver.typeAt]
  cases hindex : graph.paths.idxOf? path with
  | none => exact pure Ty.unknown program hsame
  | some id =>
      rw [← hgraph.lookup_eq_idxOf?] at hindex
      exact hquery id (hgraph.lt_size hindex) program hsame

/-- The methods of a class are asked for one by one, in the order of their declarations. -/
theorem methods (hlisted : graph.Listed) (owner : String) :
    Realizes graph (Program.methods owner)
      ((graph.owned (some owner)).mapM fun method => (method.1, ·) <$> Resolver.resolve method.2) := by
  intro program hsame
  have hmethods : program.graph.methodsOf owner = graph.owned (some owner) := by
    rw [← Graph.owned_of_sameSymbols hsame]
    exact hlisted.of_sameSymbols hsame (some owner)
  rw [Program.methods, outcome_get_bind, hmethods]
  refine mapM ?_ program hsame
  rintro ⟨name, id⟩ hmem
  have hid : id < graph.size := Graph.lt_size_of_path? (Graph.mem_owned.mp hmem)
  exact (resolve hgraph id hid).map _

end Realizes

end Program

theorem Query.realizes {α : Type} {graph : Graph} (hgraph : graph.Built) (query : Query α)
    (hquery : query.Declared graph) : Program.Realizes graph query.answer (query.request graph) := by
  have hindexed := hgraph.indexed
  have hresolve := Program.Realizes.resolve hindexed
  have htryResolve := Program.Realizes.tryResolve hindexed
  cases query with
  | functionType name =>
      rw [answer, Program.functionType_eq]
      exact (Program.Realizes.lookingUp hindexed _ hresolve).map _
  | tryFunctionType name =>
      rw [answer, Program.tryFunctionType_eq]
      exact (Program.Realizes.lookingUp hindexed _ htryResolve).map _
  | methodType owner name =>
      rw [answer, Program.methodType_eq]
      exact (Program.Realizes.lookingUp hindexed _ hresolve).map _
  | tryMethodType owner name =>
      rw [answer, Program.tryMethodType_eq]
      exact (Program.Realizes.lookingUp hindexed _ htryResolve).map _
  | methods owner => exact (Program.Realizes.methods hindexed hgraph.listed owner).map _
  | resolve id => exact (hresolve id hquery).map _
  | tryResolve id => exact (htryResolve id hquery).map _
  | resolveAll => exact (Program.Realizes.resolveAll hindexed).map _
  | tryResolveAll => exact (Program.Realizes.tryResolveAll hindexed).map _
  | withResolver script => exact (Program.Realizes.script hindexed hquery).map _

/-! ### Series of questions -/

/-- What some actions give one after the other, each from the state that the one before it left, whatever
came of it. -/
def outcomes {σ α : Type} : List (ExceptT Halt (StateM σ) α) → σ → List (Except Halt α) × σ
  | [], state => ([], state)
  | action :: rest, state =>
      let first := outcome action state
      let others := outcomes rest first.2
      (first.1 :: others.1, others.2)

theorem Program.outcomes_of_realizes {ι α : Type} {graph : Graph} {items : List ι}
    {queries : ι → Querying α} {requests : ι → Resolving α}
    (hitems : ∀ item ∈ items, Realizes graph (queries item) (requests item)) (program : Program)
    (hsame : graph.SameSymbols program.graph) :
    (∀ result ∈ (outcomes (items.map queries) program).1, ¬Faulty result) ∧
    graph.SameSymbols (outcomes (items.map queries) program).2.graph ∧
    outcomes (items.map requests) program.toResolver =
      ((outcomes (items.map queries) program).1, (outcomes (items.map queries) program).2.toResolver) := by
  induction items generalizing program with
  | nil => exact ⟨List.forall_mem_nil _, hsame, rfl⟩
  | cons item rest ih =>
      obtain ⟨hitem, hrest⟩ := List.forall_mem_cons.mp hitems
      obtain ⟨hsound, hafter, hagrees⟩ := hitem program hsame
      obtain ⟨hothers, hlast, hlater⟩ := ih hrest _ hafter
      refine ⟨List.forall_mem_cons.mpr ⟨hsound, hothers⟩, hlast, ?_⟩
      simp only [List.map_cons, outcomes, hagrees, hlater]

/-- A question about a path that nobody declared is answered at once. -/
theorem Program.outcome_lookingUp_of_not_mem {graph : Graph} (hgraph : graph.Built) {program : Program}
    (hsame : graph.SameSymbols program.graph) {path : Path} (hpath : path ∉ graph.paths)
    (query : SymbolId → Querying Ty) : outcome (lookingUp path query) program = (.ok .unknown, program) := by
  have hlookup : program.graph.lookup path = none := by
    rw [hsame.lookup_eq, hgraph.indexed.lookup_eq_idxOf?, List.idxOf?_eq_none_iff]
    exact hpath
  rw [lookingUp, outcome_get_bind, hlookup]
  rfl

/-- **A program answers as one resolver would.** For every graph that came about by declarations, every
budget and every series of questions about symbols of the graph: the answers, errors among them, are those
of one resolver over the graph to which the corresponding requests are made in the same order, and so are
the graph and the counts at the end; none of the questions faults. Callers who are handed a resolver may go
on as its answers, the graph and the limits suggest, but they do not read its counts: each question has a
resolver of its own that counts from zero, whereas the one resolver has counted all questions before. A
question for a function or a method that nobody declared, asked after all of these, is answered with unknown
and changes nothing. -/
theorem queries_of_one_resolver {α : Type} {graph : Graph} (hgraph : graph.Built) (profile : Profile)
    (queries : List (Query α)) (hqueries : ∀ query ∈ queries, query.Declared graph) :
    let asked := outcomes (queries.map Query.answer) (Program.start graph profile)
    let served := outcomes (queries.map (Query.request graph)) (Resolver.start graph profile)
    (∀ answer ∈ asked.1, ¬Faulty answer) ∧
    asked.1 = served.1 ∧ asked.2.graph = served.2.graph ∧ asked.2.stats = served.2.stats ∧
    (∀ name, .function name ∉ graph.paths →
      outcome (Program.functionType name) asked.2 = (.ok .unknown, asked.2) ∧
      outcome (Program.tryFunctionType name) asked.2 = (.ok .unknown, asked.2)) ∧
    ∀ owner name, .method owner name ∉ graph.paths →
      outcome (Program.methodType owner name) asked.2 = (.ok .unknown, asked.2) ∧
      outcome (Program.tryMethodType owner name) asked.2 = (.ok .unknown, asked.2) := by
  intro asked served
  obtain ⟨hsound, hsame, hserved⟩ := Program.outcomes_of_realizes
    (fun query hquery => Query.realizes hgraph query (hqueries query hquery))
    (Program.start graph profile) (.refl graph)
  change graph.SameSymbols asked.2.graph at hsame
  change served = (asked.1, asked.2.toResolver) at hserved
  refine ⟨hsound, ?_, ?_, ?_, ?_, ?_⟩
  · rw [hserved]
  · rw [hserved]
    rfl
  · rw [hserved]
    rfl
  · intro name hname
    rw [Program.functionType_eq, Program.tryFunctionType_eq]
    exact ⟨Program.outcome_lookingUp_of_not_mem hgraph hsame hname _,
      Program.outcome_lookingUp_of_not_mem hgraph hsame hname _⟩
  · intro owner name hname
    rw [Program.methodType_eq, Program.tryMethodType_eq]
    exact ⟨Program.outcome_lookingUp_of_not_mem hgraph hsame hname _,
      Program.outcome_lookingUp_of_not_mem hgraph hsame hname _⟩

/-- A function whose budget does not suffice, the methods of a class, one of them stored on the way, a
function that nobody declared, and a caller who makes a request and then counts what is left. -/
theorem queries_of_one_resolver_budgeted :
    let first := Path.function "first"
    let second := Path.function "second"
    let functions := ((Graph.empty.declare first (.call second)).2.declare second (.call (.function "gone"))).2
    let methods := (functions.declare (.method "Store" "get") (.object "Store")).2
    let graph := (methods.declare (.method "Store" "next") (.call second)).2
    let script : Script Nat := .request (.resolve 0) fun _ => .look fun later _ => .done later.pending.length
    let queries := [.tryFunctionType "first", .functionType "none", .methodType "Store" "none",
      .withResolver script, .functionType "second", .methods "Store", .tryResolveAll]
    let asked := outcomes (queries.map Query.answer) (Program.start graph (.custom 1 9))
    let served := outcomes (queries.map (Query.request graph)) (Resolver.start graph (.custom 1 9))
    asked.1 = served.1 ∧ asked.1.length = 7 ∧ asked.2.graph = served.2.graph ∧ served.2.graph.pending = [] ∧
    asked.2.stats = served.2.stats ∧ served.2.stats = ⟨5, 6, 0, 1, 3⟩ ∧
    outcome (Program.functionType "gone") asked.2 = (.ok .unknown, asked.2) := by
  intro first second functions methods graph script queries asked served
  have hgraph : graph.Built := .declare _ _ (.declare _ _ (.declare _ _ (.declare _ _ .empty)))
  have hsize : 0 < graph.size := by decide +kernel
  have hscript : script.Declared graph := ⟨hsize, fun _ _ _ _ => trivial⟩
  have hqueries : ∀ query ∈ queries, query.Declared graph := by
    simp only [queries, List.forall_mem_cons]
    exact ⟨trivial, trivial, trivial, hscript, trivial, trivial, trivial, List.forall_mem_nil _⟩
  obtain ⟨-, hanswers, hfinal, hstats, hundeclared, -⟩ :=
    queries_of_one_resolver hgraph (.custom 1 9) queries hqueries
  exact ⟨hanswers, by decide +kernel, hfinal, by decide +kernel, hstats, by decide +kernel,
    (hundeclared "gone" (by decide +kernel)).1⟩

end DeferredTypes
