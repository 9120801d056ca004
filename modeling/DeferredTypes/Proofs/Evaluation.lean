import Mathlib.Logic.Relation
import DeferredTypes.Proofs.Finalization

/-! Types as a function of the graph alone. The evaluator here has no stack, no budget and no journal,
and it keeps nothing: a final type stands for itself, any other is walked anew wherever it is asked for.
Where no symbol depends on itself, the value of a symbol is determined by the values of the symbols it
depends on. -/

namespace DeferredTypes

/-! ### The evaluator -/

namespace Graph

/-- The type after a chain of calls, given the types of the symbols. -/
def chainValue (graph : Graph) (value : SymbolId → Except Halt Ty) :
    List ChainOp → Ty → Except Halt Ty
  | [], type => pure type
  | .callResult :: rest, type => chainValue graph value rest type.callResult
  | .memberCall method :: rest, .object owner =>
      match graph.lookupMethod owner method with
      | some id => do
          let type ← value id
          chainValue graph value rest type.callResult
      | none => pure .unknown
  | .memberCall _ :: _, _ => pure .unknown

/-- The type that a reference stands for. -/
def referenceValue (graph : Graph) (value : SymbolId → Except Halt Ty) (target : Path)
    (chain : List ChainOp) : Except Halt Ty :=
  match graph.lookup target with
  | some id => do
      let type ← value id
      chainValue graph value chain type
  | none => pure .unknown

def unionValue (members : List Ty) : Except Halt Ty :=
  (Ty.canonicalizeUnion members).mapError fun error => .error (.precondition error)

mutual

/-- A type with the references replaced, given the types of the symbols. -/
def typeValue (graph : Graph) (value : SymbolId → Except Halt Ty) : Ty → Except Halt Ty
  | .unknown => pure .unknown
  | .literal literal => pure (.literal literal)
  | .object owner => pure (.object owner)
  | .array entries => do
      let entries ← entriesValue graph value entries
      return .array entries
  | .function params result => do
      let params ← paramsValue graph value params
      let result ← typeValue graph value result
      return .function params result
  | .union members => do
      let members ← membersValue graph value members
      unionValue members
  | .reference target chain => referenceValue graph value target chain

def entriesValue (graph : Graph) (value : SymbolId → Except Halt Ty) :
    List (Key × Ty) → Except Halt (List (Key × Ty))
  | [] => pure []
  | (key, type) :: rest => do
      let type ← typeValue graph value type
      let rest ← entriesValue graph value rest
      return (key, type) :: rest

def paramsValue (graph : Graph) (value : SymbolId → Except Halt Ty) :
    List (String × Ty) → Except Halt (List (String × Ty))
  | [] => pure []
  | (name, type) :: rest => do
      let type ← typeValue graph value type
      let rest ← paramsValue graph value rest
      return (name, type) :: rest

def membersValue (graph : Graph) (value : SymbolId → Except Halt Ty) :
    List Ty → Except Halt (List Ty)
  | [] => pure []
  | type :: rest => do
      let type ← typeValue graph value type
      let rest ← membersValue graph value rest
      return type :: rest

end

/-- The type of a symbol, evaluated with each of the given symbols at most once on the way: a final type
as it is, any other by a walk. -/
def symbolValue (graph : Graph) (closed : List SymbolId) (id : SymbolId) : Except Halt Ty :=
  match graph.get? id with
  | some type =>
      if type.containsReference then
        if _h : id ∈ closed then
          typeValue graph (fun next => symbolValue graph (closed.erase id) next) type
        else pure .unknown
      else pure type
  | none => throw (.fault (.unallocated id))
termination_by closed.length
decreasing_by
  have hpos := List.length_pos_of_mem _h
  rw [List.length_erase_of_mem _h]
  omega

def evaluate (graph : Graph) (id : SymbolId) : Except Halt Ty := symbolValue graph graph.ids id

end Graph

/-! ### The questions of a walk, answered by the evaluator -/

namespace Inquiry

variable {α β : Type}

/-- Answers the questions with the types of the symbols. -/
def evaluate (graph : Graph) (value : SymbolId → Except Halt Ty) : Inquiry α → Except Halt α
  | .answer found => pure found
  | .refuse error => throw (.error (.precondition error))
  | .ask path rest =>
      match graph.lookup path with
      | some id => do
          let type ← value id
          (rest (some type)).evaluate graph value
      | none => (rest none).evaluate graph value

theorem evaluate_ask_of_some {graph : Graph} {path : Path} {id : SymbolId}
    (hlookup : graph.lookup path = some id) (value : SymbolId → Except Halt Ty)
    (rest : Option Ty → Inquiry α) :
    (ask path rest).evaluate graph value =
      value id >>= fun type => (rest (some type)).evaluate graph value := by
  rw [evaluate, hlookup]

theorem evaluate_ask_of_none {graph : Graph} {path : Path} (hlookup : graph.lookup path = none)
    (value : SymbolId → Except Halt Ty) (rest : Option Ty → Inquiry α) :
    (ask path rest).evaluate graph value = (rest none).evaluate graph value := by
  rw [evaluate, hlookup]

variable (graph : Graph) (value : SymbolId → Except Halt Ty)

theorem evaluate_bind (inquiry : Inquiry α) (next : α → Inquiry β) :
    (inquiry.bind next).evaluate graph value =
      inquiry.evaluate graph value >>= fun found => (next found).evaluate graph value := by
  induction inquiry with
  | answer found => rfl
  | refuse error => rfl
  | ask path rest ih =>
      simp only [bind, evaluate]
      cases graph.lookup path with
      | some id => simp only [ih, bind_assoc]
      | none => exact ih none

theorem evaluate_ofUnion (members : List Ty) :
    (ofUnion members).evaluate graph value = Graph.unionValue members := by
  rw [ofUnion, Graph.unionValue]
  cases Ty.canonicalizeUnion members <;> rfl

theorem evaluate_ofChain (chain : List ChainOp) (type : Ty) :
    (ofChain chain type).evaluate graph value = graph.chainValue value chain type := by
  induction chain generalizing type with
  | nil => rfl
  | cons op rest ih =>
      cases op with
      | callResult => exact ih type.callResult
      | memberCall method =>
          cases type with
          | object owner =>
              simp only [ofChain, evaluate, Graph.chainValue, Graph.lookup_method]
              cases graph.lookupMethod owner method with
              | some id => simp only [ih]
              | none => rfl
          | unknown | literal _ | array _ | function _ _ | union _ | reference _ _ => rfl

theorem evaluate_reference (target : Path) (chain : List ChainOp) :
    (ofTy (.reference target chain)).evaluate graph value = graph.referenceValue value target chain := by
  rw [ofTy, evaluate, Graph.referenceValue]
  cases graph.lookup target with
  | some id => simp only [evaluate_ofChain]
  | none => rfl

mutual

/-- Answered with the values of the symbols, the questions of a walk through a type give its value. -/
theorem evaluate_ofTy : (type : Ty) →
    (ofTy type).evaluate graph value = graph.typeValue value type
  | .unknown => rfl
  | .literal _ => rfl
  | .object _ => rfl
  | .array entries => by
      rw [ofTy, evaluate_bind, evaluate_ofEntries entries, Graph.typeValue]
      rfl
  | .function params result => by
      rw [ofTy, evaluate_bind, evaluate_ofParams params, Graph.typeValue]
      simp only [evaluate_bind, evaluate_ofTy result]
      rfl
  | .union members => by
      rw [ofTy, evaluate_bind, evaluate_ofMembers members, Graph.typeValue]
      simp only [evaluate_ofUnion]
  | .reference target chain => by rw [evaluate_reference, Graph.typeValue]

theorem evaluate_ofEntries : (entries : List (Key × Ty)) →
    (ofEntries entries).evaluate graph value = graph.entriesValue value entries
  | [] => rfl
  | (key, type) :: rest => by
      rw [ofEntries, evaluate_bind, evaluate_ofTy type, Graph.entriesValue]
      simp only [evaluate_bind, evaluate_ofEntries rest]
      rfl

theorem evaluate_ofParams : (params : List (String × Ty)) →
    (ofParams params).evaluate graph value = graph.paramsValue value params
  | [] => rfl
  | (name, type) :: rest => by
      rw [ofParams, evaluate_bind, evaluate_ofTy type, Graph.paramsValue]
      simp only [evaluate_bind, evaluate_ofParams rest]
      rfl

theorem evaluate_ofMembers : (members : List Ty) →
    (ofMembers members).evaluate graph value = graph.membersValue value members
  | [] => rfl
  | type :: rest => by
      rw [ofMembers, evaluate_bind, evaluate_ofTy type, Graph.membersValue]
      simp only [evaluate_bind, evaluate_ofMembers rest]
      rfl

end

variable {graph : Graph} {value value' : SymbolId → Except Halt Ty}

/-- The answer depends only on the types of the symbols that are asked for. -/
theorem evaluate_congr {allowed : Path → Prop} {inquiry : Inquiry α}
    (hmeets : inquiry.Meets allowed (fun _ => True) fun _ => True)
    (hvalue : ∀ path id, allowed path → graph.lookup path = some id → value id = value' id) :
    inquiry.evaluate graph value = inquiry.evaluate graph value' := by
  induction inquiry with
  | answer found => rfl
  | refuse error => rfl
  | ask path rest ih =>
      have hrest : ∀ reply, (rest reply).evaluate graph value = (rest reply).evaluate graph value' :=
        fun reply => ih reply (hmeets.2 reply fun _ _ => trivial)
      cases hlookup : graph.lookup path with
      | some id =>
          rw [evaluate_ask_of_some hlookup, evaluate_ask_of_some hlookup,
            hvalue path id hmeets.1 hlookup]
          simp only [hrest]
      | none =>
          rw [evaluate_ask_of_none hlookup, evaluate_ask_of_none hlookup]
          exact hrest none

/-- A walk asks for what its type mentions only. -/
theorem meets_mentions {allowed : Path → Prop} {type : Ty}
    (hallowed : ∀ path, type.Mentions path → allowed path) :
    (ofTy type).Meets allowed (fun _ => True) fun _ => True :=
  meets_ofTy ⟨trivial, fun _ _ => trivial, fun _ _ => trivial, fun _ _ _ _ => trivial,
    fun _ _ _ _ => trivial⟩ type ⟨hallowed, fun _ _ _ => trivial⟩

end Inquiry

/-! ### Dependencies -/

namespace Graph

/-- The type of a symbol mentions the path of another one: as the target of a reference, or as a method,
of whatever class, that the chain of a reference calls. -/
def DependsOn (graph : Graph) (id next : SymbolId) : Prop :=
  ∃ type path, graph.get? id = some type ∧ type.Mentions path ∧ graph.lookup path = some next

/-- No symbol depends on itself, be it through others. -/
def Acyclic (graph : Graph) : Prop := ∀ id, ¬Relation.TransGen graph.DependsOn id id

/-- The symbols that a part of a type asks for by itself. -/
def targets (graph : Graph) : Ty → List SymbolId
  | .reference target chain => (graph.lookup target).toList ++ chain.flatMap fun
      | .memberCall method => graph.classNames.filterMap fun owner => graph.lookupMethod owner method
      | .callResult => []
  | _ => []

/-- The symbols that a symbol depends on directly. -/
def dependencies (graph : Graph) (id : SymbolId) : List SymbolId :=
  match graph.get? id with
  | some type => type.subterms.flatMap graph.targets
  | none => []

theorem mem_classNames_of_lookupMethod {graph : Graph} {owner method : String} {id : SymbolId}
    (hlookup : graph.lookupMethod owner method = some id) : owner ∈ graph.classNames := by
  obtain ⟨methods, hmethods, -⟩ := Option.bind_eq_some_iff.mp hlookup
  rw [OrderedMap.find?, List.lookup_eq_some_iff] at hmethods
  obtain ⟨before, after, hlist, -⟩ := hmethods
  rw [classNames, OrderedMap.keys, hlist]
  simp

theorem mem_targets {graph : Graph} {target : Path} {chain : List ChainOp} {next : SymbolId} :
    next ∈ graph.targets (.reference target chain) ↔ ∃ path, graph.lookup path = some next ∧
      (path = target ∨ ∃ owner method, .memberCall method ∈ chain ∧ path = .method owner method) := by
  rw [targets, List.mem_append, Option.mem_toList, List.mem_flatMap]
  constructor
  · rintro (hlookup | ⟨op, hop, hnext⟩)
    · exact ⟨target, hlookup, Or.inl rfl⟩
    · cases op with
      | callResult => cases hnext
      | memberCall method =>
          obtain ⟨owner, -, hlookup⟩ := List.mem_filterMap.mp hnext
          refine ⟨.method owner method, ?_, Or.inr ⟨owner, method, hop, rfl⟩⟩
          rw [lookup_method, hlookup]
  · rintro ⟨path, hlookup, rfl | ⟨owner, method, hop, rfl⟩⟩
    · exact Or.inl hlookup
    · rw [lookup_method] at hlookup
      exact Or.inr ⟨_, hop, List.mem_filterMap.mpr
        ⟨owner, mem_classNames_of_lookupMethod hlookup, hlookup⟩⟩

theorem mem_dependencies {graph : Graph} {id next : SymbolId} :
    next ∈ graph.dependencies id ↔ graph.DependsOn id next := by
  rw [dependencies]
  cases hget : graph.get? id with
  | none => simp [DependsOn, hget]
  | some type =>
      simp only [List.mem_flatMap]
      constructor
      · rintro ⟨part, hpart, hnext⟩
        cases part with
        | reference target chain =>
            obtain ⟨path, hlookup, hpath⟩ := mem_targets.mp hnext
            exact ⟨type, path, hget, ⟨target, chain, hpart, hpath⟩, hlookup⟩
        | unknown | literal _ | object _ | array _ | function _ _ | union _ => cases hnext
      · rintro ⟨stored, path, hstored, ⟨target, chain, hpart, hpath⟩, hlookup⟩
        obtain rfl := Option.some.inj (hget.symm.trans hstored)
        exact ⟨_, hpart, mem_targets.mpr ⟨path, hlookup, hpath⟩⟩

/-- Numbers that fall along every dependency rule out cycles. -/
theorem acyclic_of_rank {graph : Graph} (rank : SymbolId → Nat)
    (hrank : ∀ id ∈ graph.ids, ∀ next ∈ graph.dependencies id, rank next < rank id) :
    graph.Acyclic := by
  have hstep : ∀ id next, graph.DependsOn id next → rank next < rank id := by
    intro id next hdepends
    have hnext := mem_dependencies.mpr hdepends
    obtain ⟨type, -, hget, -⟩ := hdepends
    exact hrank id (List.mem_range.mpr (lt_size_of_get? hget)) next hnext
  have hpath : ∀ id next, Relation.TransGen graph.DependsOn id next → rank next < rank id := by
    intro id next path
    induction path with
    | single hdepends => exact hstep _ _ hdepends
    | tail _ hdepends ih => exact Nat.lt_trans (hstep _ _ hdepends) ih
  exact fun id path => Nat.lt_irrefl _ (hpath id id path)

/-- All symbols that a symbol depends on, and the symbol itself, are listed. -/
def Covers (graph : Graph) (closed : List SymbolId) (id : SymbolId) : Prop :=
  ∀ next type, Relation.ReflTransGen graph.DependsOn id next → graph.get? next = some type →
    next ∈ closed

variable {graph : Graph} {closed closed' : List SymbolId} {id next : SymbolId} {type : Ty}

theorem covers_ids (graph : Graph) (id : SymbolId) : graph.Covers graph.ids id :=
  fun _ _ _ hget => List.mem_range.mpr (lt_size_of_get? hget)

/-- What a symbol depends on does not need the symbol itself. -/
theorem Covers.erase (hcovers : graph.Covers closed id) (hacyclic : graph.Acyclic)
    (hdepends : graph.DependsOn id next) : graph.Covers (closed.erase id) next := by
  intro other type hpath hget
  have hother : other ≠ id := by
    rintro rfl
    exact hacyclic other (.head' hdepends hpath)
  exact (List.mem_erase_of_ne hother).mpr (hcovers other type (.head hdepends hpath) hget)

/-- The value of a type depends on the values of the symbols that it mentions only. -/
theorem typeValue_congr {value value' : SymbolId → Except Halt Ty} (hget : graph.get? id = some type)
    (hvalue : ∀ next, graph.DependsOn id next → value next = value' next) :
    graph.typeValue value type = graph.typeValue value' type := by
  rw [← Inquiry.evaluate_ofTy, ← Inquiry.evaluate_ofTy]
  refine Inquiry.evaluate_congr (Inquiry.meets_mentions fun _ hpath => hpath) ?_
  exact fun path next hpath hlookup => hvalue next ⟨type, path, hget, hpath, hlookup⟩

/-- The list of symbols does not matter as long as it has all that are needed. -/
theorem symbolValue_eq_of_covers (hacyclic : graph.Acyclic) (hcovers : graph.Covers closed id)
    (hcovers' : graph.Covers closed' id) :
    graph.symbolValue closed id = graph.symbolValue closed' id := by
  induction hlength : closed.length using Nat.strongRecOn generalizing closed closed' id with
  | ind length ih =>
      rw [symbolValue, symbolValue]
      cases hget : graph.get? id with
      | none => rfl
      | some type =>
          have hid := hcovers id type .refl hget
          have hid' := hcovers' id type .refl hget
          dsimp only
          rw [dif_pos hid, dif_pos hid']
          -- The walk of the symbol takes it off both lists, and what it depends on does not need it.
          congr 1
          refine typeValue_congr hget fun next hdepends => ?_
          refine ih _ ?_ (hcovers.erase hacyclic hdepends) (hcovers'.erase hacyclic hdepends) rfl
          rw [List.length_erase_of_mem hid, hlength]
          have := List.length_pos_of_mem hid
          omega

theorem evaluate_of_none (hget : graph.get? id = none) :
    graph.evaluate id = .error (.fault (.unallocated id)) := by
  rw [evaluate, symbolValue, hget]
  rfl

theorem evaluate_of_final (hget : graph.get? id = some type) (hfinal : type.Final) :
    graph.evaluate id = .ok type := by
  rw [evaluate, symbolValue, hget]
  dsimp only
  rw [if_neg (Bool.eq_false_iff.mp hfinal)]
  rfl

/-- The type of a symbol that waits is its stored one with the references replaced by the types of the
symbols it depends on. -/
theorem evaluate_of_pending (hacyclic : graph.Acyclic) (hget : graph.get? id = some type)
    (hpending : type.containsReference = true) :
    graph.evaluate id = graph.typeValue graph.evaluate type := by
  have hid := graph.covers_ids id id type .refl hget
  rw [evaluate, symbolValue, hget]
  dsimp only
  rw [if_pos hpending, dif_pos hid]
  refine typeValue_congr hget fun next hdepends => ?_
  exact symbolValue_eq_of_covers hacyclic ((graph.covers_ids id).erase hacyclic hdepends)
    (graph.covers_ids next)

end Graph

end DeferredTypes
