import DeferredTypes.Proofs.Requests

/-! Where the parts of an answer come from. A walk invents no literal and no object: each of them stands in a
type of the graph or in the type that was asked for. Nor does something get unknown without a cause: it was
unknown before, a cycle was cut, a symbol was asked for that nobody declared, or a method was called on what
a chain had come to. -/

namespace DeferredTypes

namespace Ty

/-- A chain in the type calls a method. -/
def callsMethod (type : Ty) : Bool :=
  type.containsMatching fun
    | .reference _ chain => chain.any fun op => op ≠ .callResult
    | _ => false

/-- The part of a type has its origin in one of some types. What is unknown has to be excused, and so has
a chain that calls a method, since this may come to something unknown. -/
def Rooted (sources : List Ty) (excused : Prop) : Ty → Prop
  | .unknown => excused
  | .literal value => ∃ source ∈ sources, .literal value ∈ source.subterms
  | .object owner => ∃ source ∈ sources, .object owner ∈ source.subterms
  | .reference _ chain => ∀ method, .memberCall method ∈ chain → excused
  | .array _ | .function _ _ | .union _ => True

/-- All parts of a type have their origin in some types. -/
def Grounded (sources : List Ty) (excused : Prop) (type : Ty) : Prop :=
  ∀ part ∈ type.subterms, part.Rooted sources excused

variable {sources : List Ty} {excused : Prop} {type : Ty}

theorem grounded_iff (type : Ty) :
    type.Grounded sources excused ↔
      type.Rooted sources excused ∧ ∀ child ∈ type.children, child.Grounded sources excused :=
  forall_mem_subterms_iff _ type

/-- Whatever a walk makes of types that have their origin in some types has its origin there. -/
theorem inheritedIf_grounded : InheritedIf excused (Grounded sources excused) :=
  inheritedIf_of_parts grounded_iff (fun hexcused => hexcused) (fun _ => trivial) (fun _ _ => trivial)
    fun _ _ htype hmembers => good_canonicalizeUnion (fun _ h => ((grounded_iff _).mp h).2)
      (fun _ _ h => (grounded_iff _).mpr ⟨trivial, h⟩) hmembers htype

theorem grounded_of_isLeaf {part : Ty} (hleaf : part.IsLeaf) (hpart : part.Rooted sources excused) :
    part.Grounded sources excused := by
  cases part with
  | literal _ | object _ => exact (grounded_iff _).mpr ⟨hpart, fun _ hchild => by cases hchild⟩
  | unknown | array _ | function _ _ | union _ | reference _ _ => exact hleaf.elim

/-- A walk through a grounded type takes grounded parts from it. -/
theorem Grounded.coveredIf (htype : type.Grounded sources excused) :
    type.CoveredIf excused (fun _ => True) (Grounded sources excused) where
  paths _ _ := trivial
  leaves part hpart hleaf := grounded_of_isLeaf hleaf (htype part hpart)
  unknowns hpart := htype _ hpart
  calls _ _ method hpart := htype _ hpart method

/-- Something in the type is unknown, or a chain in it calls a method. -/
def Doubtful (type : Ty) : Prop := type.containsUnknown = true ∨ type.callsMethod = true

theorem containsUnknown_iff (type : Ty) : type.containsUnknown = true ↔ .unknown ∈ type.subterms := by
  rw [containsUnknown, containsMatching, List.any_eq_true]
  constructor
  · rintro ⟨part, hpart, hunknown⟩
    cases part with
    | unknown => exact hpart
    | literal _ | object _ | array _ | function _ _ | union _ | reference _ _ => cases hunknown
  · exact fun hpart => ⟨.unknown, hpart, rfl⟩

theorem callsMethod_of_mem {target : Path} {chain : List ChainOp} {method : String}
    (hpart : .reference target chain ∈ type.subterms) (hmethod : .memberCall method ∈ chain) :
    type.callsMethod = true := by
  refine List.any_eq_true.mpr ⟨_, hpart, List.any_eq_true.mpr ⟨_, hmethod, ?_⟩⟩
  simp

/-- Types are grounded in themselves if what is doubtful in them is excused. -/
theorem grounded_of_mem (hsource : type ∈ sources) (hexcused : type.Doubtful → excused) :
    type.Grounded sources excused := by
  intro part hpart
  cases part with
  | unknown => exact hexcused (Or.inl ((containsUnknown_iff type).mpr hpart))
  | literal _ | object _ => exact ⟨type, hsource, hpart⟩
  | reference target chain => exact fun method hmethod => hexcused (Or.inr (callsMethod_of_mem hpart hmethod))
  | array _ | function _ _ | union _ => trivial

theorem Grounded.mem_subterms {part : Ty} (htype : type.Grounded sources excused)
    (hpart : part ∈ type.subterms) (hleaf : part.IsLeaf) : ∃ source ∈ sources, part ∈ source.subterms := by
  have hrooted := htype part hpart
  cases part with
  | literal _ | object _ => exact hrooted
  | unknown | array _ | function _ _ | union _ | reference _ _ => exact hleaf.elim

end Ty

/-! ### Runs -/

namespace Graph

/-- The types of the symbols. -/
def types (graph : Graph) : List Ty := graph.symbols.toList.map Symbol.type

theorem mem_types_of_get? {graph : Graph} {id : SymbolId} {type : Ty} (hget : graph.get? id = some type) :
    type ∈ graph.types := by
  obtain ⟨symbol, hsymbol, rfl⟩ := Option.map_eq_some_iff.mp hget
  exact List.mem_map_of_mem (Array.mem_toList_iff.mpr (Array.mem_of_getElem? hsymbol))

def TypesAre (good : Ty → Prop) (graph : Graph) : Prop := ∀ id type, graph.get? id = some type → good type

theorem TypesAre.set {good : Ty → Prop} {graph : Graph} {type : Ty} (hgraph : graph.TypesAre good)
    (htype : good type) (id : SymbolId) : (graph.set id type).TypesAre good := by
  intro other stored hstored
  rw [get?_set] at hstored
  by_cases hother : other = id
  · rw [if_pos hother, Option.map_eq_some_iff] at hstored
    obtain ⟨_, -, rfl⟩ := hstored
    exact htype
  · rw [if_neg hother] at hstored
    exact hgraph other stored hstored

end Graph

namespace Event

/-- Something was lost: a cycle was cut, or nobody declared what was asked for. -/
def isLoss : Event → Bool
  | .cut .. | .missing _ => true
  | _ => false

end Event

/-- A loss among the events shows in the counts. -/
theorem Stats.counts_of_isLoss {events : List Event} {event : Event} (hevent : event ∈ events)
    (hloss : event.isLoss = true) :
    0 < (ofJournal events).cyclesCut ∨ 0 < (ofJournal events).unresolvedTargets := by
  induction events with
  | nil => cases hevent
  | cons first rest ih =>
      rw [ofJournal_cons]
      rcases List.mem_cons.mp hevent with rfl | hevent
      · cases event with
        | cut => exact Or.inl (Nat.lt_of_lt_of_le Nat.one_pos (Nat.le_add_right _ _))
        | missing => exact Or.inr (Nat.lt_of_lt_of_le Nat.one_pos (Nat.le_add_right _ _))
        | seeded | walked | left | recalled | stored | provisional => cases hloss
      · rcases ih hevent with h | h
        · exact Or.inl (Nat.lt_of_lt_of_le h (Nat.le_add_left _ _))
        · exact Or.inr (Nat.lt_of_lt_of_le h (Nat.le_add_left _ _))

namespace Task

/-- The task hands out good types if the replies to its questions are good, and excused where there is none. -/
def HandsOutIf (excused : Prop) (good : Ty → Prop) : Task → Prop
  | .symbol _ => True
  | .inquiry questions => questions.MeetsIf excused (fun _ => True) good good

variable {sources : List Ty} {excused : Prop}

/-- A run over a graph of grounded types hands out a grounded type and leaves the graph so. -/
theorem Runs.grounded {task : Task} {pass after : Pass} {result : Except Halt Ty} {events : List Event}
    (run : task.Runs pass result events after)
    (hevents : ∀ event ∈ events, event.isLoss = true → excused)
    (hgraph : pass.graph.TypesAre (Ty.Grounded sources excused))
    (htask : task.HandsOutIf excused (Ty.Grounded sources excused)) :
    (∀ type, result = .ok type → type.Grounded sources excused) ∧
      after.graph.TypesAre (Ty.Grounded sources excused) := by
  induction run with
  | cut =>
      refine ⟨?_, hgraph⟩
      rintro type ⟨⟩
      exact Ty.inheritedIf_grounded.unknown (hevents _ List.mem_cons_self rfl)
  | unallocated | exhausted | refuse => exact ⟨fun _ h => (by cases h), hgraph⟩
  | recalled _ hget _ =>
      refine ⟨?_, hgraph⟩
      rintro type ⟨⟩
      exact hgraph _ _ hget
  | @walked pass id type result events inside hwaits _ _ ih =>
      have hinside : ∀ event ∈ events, event.isLoss = true → excused := fun event hevent =>
        hevents event (List.mem_append_left _ (List.mem_append_right _ hevent))
      have htype := (hgraph id type hwaits.get).coveredIf
      obtain ⟨hresult, hafter⟩ := ih hinside hgraph (Inquiry.meetsIf_ofTy Ty.inheritedIf_grounded type htype)
      refine ⟨hresult, ?_⟩
      rcases pass.write_settled inside id result with ⟨hsettled, -⟩ | ⟨found, hfound, hsettled, -⟩
      · rw [hsettled]
        exact hafter
      · rw [hsettled]
        exact hafter.set (hresult found hfound) id
  | answer =>
      refine ⟨?_, hgraph⟩
      rintro type ⟨⟩
      exact htask
  | missing _ _ ih =>
      have hmissing : excused := hevents _ (List.mem_append_right _ List.mem_cons_self) rfl
      exact ih (fun event hevent => hevents event (List.mem_append_left _ hevent)) hgraph
        (htask.2.1 hmissing)
  | halted _ _ ih => exact ih hevents hgraph trivial
  | found _ _ _ ihsymbol ihrest =>
      obtain ⟨hfound, hmiddle⟩ := ihsymbol
        (fun event hevent => hevents event (List.mem_append_right _ hevent)) hgraph trivial
      exact ihrest (fun event hevent => hevents event (List.mem_append_left _ hevent)) hmiddle
        (htask.2.2 _ (hfound _ rfl))

end Task

/-! ### Requests -/

namespace Resolver

/-- A type that a request handed out is explained by some types and by what the request counted: there is a
cause for what is unknown in it, and every literal and every object in it stands in one of these types. -/
structure Explains (before after : Resolver) (sources : List Ty) (type : Ty) : Prop where
  unknown : type.containsUnknown = true →
    (∃ source ∈ sources, source.containsUnknown = true) ∨
    before.stats.cyclesCut < after.stats.cyclesCut ∨
    before.stats.unresolvedTargets < after.stats.unresolvedTargets ∨
    ∃ source ∈ sources, source.callsMethod = true
  leaves : ∀ part ∈ type.subterms, part.IsLeaf → ∃ source ∈ sources, part ∈ source.subterms

variable {resolver : Resolver}

/-- The types of the graph and the events of a run explain its result. -/
theorem explains_of_run {task : Task} {pass after : Pass} {events : List Event} {type : Ty} {sources : List Ty}
    (run : task.Runs pass (.ok type) events after) (hgraph : pass.graph = resolver.graph)
    (hsources : resolver.graph.types ⊆ sources)
    (htask : ∀ excused : Prop, (∀ source ∈ sources, source.Doubtful → excused) →
      task.HandsOutIf excused (Ty.Grounded sources excused)) :
    resolver.Explains (resolver.advance after.graph events) sources type := by
  let excused := (∃ source ∈ sources, source.Doubtful) ∨ ∃ event ∈ events, event.isLoss = true
  have hdoubt : ∀ source ∈ sources, source.Doubtful → excused := fun source hsource h =>
    Or.inl ⟨source, hsource, h⟩
  have hstored : pass.graph.TypesAre (Ty.Grounded sources excused) := by
    intro id stored hget
    rw [hgraph] at hget
    have hmem : stored ∈ sources := hsources (Graph.mem_types_of_get? hget)
    exact Ty.grounded_of_mem hmem (hdoubt stored hmem)
  have hgrounded : type.Grounded sources excused :=
    (run.grounded (fun event hevent h => Or.inr ⟨event, hevent, h⟩) hstored (htask excused hdoubt)).1 type rfl
  refine ⟨fun hunknown => ?_, fun part hpart hleaf => hgrounded.mem_subterms hpart hleaf⟩
  have hexcused : excused := hgrounded .unknown ((Ty.containsUnknown_iff type).mp hunknown)
  rcases hexcused with ⟨source, hsource, hsome | hcalls⟩ | ⟨event, hevent, hloss⟩
  · exact Or.inl ⟨source, hsource, hsome⟩
  · exact Or.inr (Or.inr (Or.inr ⟨source, hsource, hcalls⟩))
  · rcases Stats.counts_of_isLoss hevent hloss with hcuts | hmissing
    · exact Or.inr (Or.inl (Nat.lt_add_of_pos_right hcuts))
    · exact Or.inr (Or.inr (Or.inl (Nat.lt_add_of_pos_right hmissing)))

/-- **Nothing in an answer lacks an origin.** If something is unknown in a type that was found for a symbol,
then something was unknown in a type of the graph before, or a cycle was cut in this request, or something
was asked for in it that nobody declared, or a chain in a type of the graph calls a method. Every literal and
every object in the type found stands in a type of the graph. The same holds of a type that was found for a
type, as seen from within whatever symbols, the type asked for being one of those that the parts may come
from. -/
theorem answers_have_origins (resolver : Resolver) :
    (∀ id type, (outcome (tryResolve id) resolver).1 = .ok type →
      resolver.Explains (outcome (tryResolve id) resolver).2 resolver.graph.types type) ∧
    ∀ asked visiting type, (outcome (tryResolveTypeWithin asked visiting) resolver).1 = .ok type →
      resolver.Explains (outcome (tryResolveTypeWithin asked visiting) resolver).2
        (asked :: resolver.graph.types) type := by
  constructor
  · intro id type hresult
    obtain ⟨result, events, after, run⟩ :=
      (Task.symbol id).exists_run (.start resolver.graph resolver.profile.limits)
    rw [outcome_tryResolve run] at hresult ⊢
    obtain rfl : result = .ok type := hresult
    exact explains_of_run run rfl (List.Subset.refl _) fun _ _ => trivial
  · intro asked visiting type hresult
    obtain ⟨opened, seeded, hseeded, -, ⟨-, halt, houtcome⟩ | ⟨result, events, after, run, houtcome⟩⟩ :=
      outcome_tryResolveTypeWithin asked visiting resolver
    · rw [houtcome] at hresult
      cases hresult
    · rw [houtcome] at hresult ⊢
      obtain rfl : result = .ok type := hresult
      refine explains_of_run run hseeded.graph (List.subset_cons_self _ _) fun excused hdoubt => ?_
      have hasked : asked.Grounded (asked :: resolver.graph.types) excused :=
        Ty.grounded_of_mem List.mem_cons_self (hdoubt asked List.mem_cons_self)
      exact Inquiry.meetsIf_ofTy Ty.inheritedIf_grounded asked hasked.coveredIf

/-- Two functions that call each other, and a type with a literal of its own that is asked for from within
one of them. In neither request is something unknown but for a cycle that was cut. -/
theorem answers_have_origins_mutual :
    let graph := (Graph.empty.append (.function "even") (.call (.function "odd"))).append
      (.function "odd") (.union [.call (.function "even"), .object "Odd"])
    let resolver : Resolver := ⟨graph, .interactive, {}⟩
    let asked := Ty.union [.literal .null, .call (.function "odd")]
    let kept := Ty.union [.unknown, .object "Odd"]
    let found := Ty.union [.unknown, .literal .null, .object "Odd"]
    (∀ source ∈ asked :: graph.types, source.containsUnknown = false ∧ source.callsMethod = false) ∧
    (outcome (tryResolve 0) resolver).1 = .ok kept ∧
    resolver.Explains (outcome (tryResolve 0) resolver).2 graph.types kept ∧
    (outcome (tryResolveTypeWithin asked [0, 7]) resolver).1 = .ok found ∧
    resolver.Explains (outcome (tryResolveTypeWithin asked [0, 7]) resolver).2 (asked :: graph.types) found := by
  intro graph resolver asked kept found
  have hkept : (outcome (tryResolve 0) resolver).1 = .ok kept := by decide +kernel
  have hfound : (outcome (tryResolveTypeWithin asked [0, 7]) resolver).1 = .ok found := by decide +kernel
  obtain ⟨hsymbols, htypes⟩ := answers_have_origins resolver
  exact ⟨by decide +kernel, hkept, hsymbols 0 kept hkept, hfound, htypes asked [0, 7] found hfound⟩

end Resolver

end DeferredTypes
