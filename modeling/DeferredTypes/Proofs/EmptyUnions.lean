import DeferredTypes.Proofs.Budget
import DeferredTypes.Proofs.Declarations

/-! When a request without a budget fails. All that a walk can refuse is to make one type of no
alternatives. Every union that a walk puts together has a member as long as the unions of the stored types
have, so that no such union comes about by flattening. A type with a union without members, on the other
hand, never gets through a walk. -/

namespace DeferredTypes

namespace Ty

def HasEmptyUnion (type : Ty) : Prop := .union [] ∈ type.subterms

instance (type : Ty) : Decidable type.HasEmptyUnion := inferInstanceAs (Decidable (_ ∈ _))

abbrev Populated (type : Ty) : Prop := ¬type.HasEmptyUnion

theorem hasEmptyUnion_iff (type : Ty) :
    type.HasEmptyUnion ↔ type = .union [] ∨ ∃ child ∈ type.children, child.HasEmptyUnion := by
  rw [HasEmptyUnion, subterms_eq, List.mem_cons, List.mem_flatMap]
  exact or_congr_left eq_comm

theorem populated_iff (type : Ty) :
    type.Populated ↔ type ≠ .union [] ∧ ∀ child ∈ type.children, child.Populated := by
  rw [Populated, hasEmptyUnion_iff, not_or]
  simp only [not_exists, not_and]

theorem populated_of_childless {type : Ty} (htype : type ≠ .union []) (hchildren : type.children = []) :
    type.Populated := by
  rw [populated_iff, hchildren]
  exact ⟨htype, nofun⟩

theorem inherited_populated : Inherited Populated := by
  apply inherited_of_children populated_iff
  · exact nofun
  · exact fun _ => nofun
  · exact fun _ _ => nofun
  · intro members hne hunion
    exact hne (Ty.union.inj hunion)

theorem covered_populated (type : Ty) : type.Covered (fun _ => True) Populated := by
  refine ⟨fun _ _ => trivial, fun part _ hleaf => ?_⟩
  cases part with
  | literal _ | object _ => exact populated_of_childless nofun rfl
  | unknown | array _ | function _ _ | union _ | reference _ _ => exact hleaf.elim

/-! ### Unions with members stay so when they are laid open -/

namespace UnionMembers

/-- Some alternative has been collected. -/
def Occupied (members : UnionMembers) : Prop := members.unknowns ++ members.others ≠ []

theorem occupied_add (members : UnionMembers) (type : Ty) : (members.add type).Occupied := by
  unfold UnionMembers.add
  split
  · simp [Occupied]
  · split
    · -- A member that is left out equals one that is there.
      rename_i hseen
      intro hempty
      rw [(List.append_eq_nil_iff.mp hempty).2] at hseen
      cases hseen
    · simp [Occupied]

mutual

/-- A type without empty unions has an alternative to collect. -/
theorem occupied_push : (type : Ty) → (members : UnionMembers) → type.Populated →
    (members.push type).Occupied
  | .union inner, members, htype => by
      obtain ⟨hne, hinner⟩ := (populated_iff _).mp htype
      rw [UnionMembers.push]
      apply occupied_pushAll inner members hinner
      right
      rintro rfl
      exact hne rfl
  | .unknown, members, _ => members.occupied_add _
  | .literal _, members, _ => members.occupied_add _
  | .object _, members, _ => members.occupied_add _
  | .array _, members, _ => members.occupied_add _
  | .function _ _, members, _ => members.occupied_add _
  | .reference _ _, members, _ => members.occupied_add _

theorem occupied_pushAll : (types : List Ty) → (members : UnionMembers) →
    (∀ type ∈ types, type.Populated) → members.Occupied ∨ types ≠ [] → (members.pushAll types).Occupied
  | [], _, _, hsome => hsome.resolve_right fun hne => hne rfl
  | type :: rest, members, htypes, _ => by
      rw [UnionMembers.pushAll]
      apply occupied_pushAll rest
      · exact fun type htype => htypes type (List.mem_cons_of_mem _ htype)
      · exact Or.inl (occupied_push type members (htypes type List.mem_cons_self))

end

end UnionMembers

/-- A union with members, none of which has an empty union in it, can be made canonical. -/
theorem exists_canonicalizeUnion {members : List Ty} (hne : members ≠ [])
    (hmembers : ∀ member ∈ members, member.Populated) : ∃ type, canonicalizeUnion members = .ok type := by
  have hoccupied := UnionMembers.occupied_pushAll members ⟨[], []⟩ hmembers (Or.inr hne)
  unfold canonicalizeUnion
  dsimp only
  split
  · contradiction
  · exact ⟨_, rfl⟩
  · exact ⟨_, rfl⟩

end Ty

/-! ### Walks that are not refused, and walks that have no answer -/

namespace Inquiry

open Ty (Populated HasEmptyUnion)

variable {α β : Type} {allowed : Path → Prop} {good : Ty → Prop} {middle : α → Prop}
  {inquiry : Inquiry α} {next : α → Inquiry β}

/-- As long as the replies are good the inquiry is not refused. -/
def Serves (good : Ty → Prop) : Inquiry α → Prop
  | .answer _ => True
  | .refuse _ => False
  | .ask _ rest => ∀ reply, (∀ type, reply = some type → good type) → (rest reply).Serves good

/-- Whatever the replies, the inquiry has no answer. -/
def Fails : Inquiry α → Prop := Meets (fun _ => True) (fun _ => True) fun _ => False

theorem meets_true (inquiry : Inquiry α) : inquiry.Meets (fun _ => True) good fun _ => True := by
  induction inquiry with
  | answer value => trivial
  | refuse error => trivial
  | ask path rest ih => exact ⟨trivial, fun reply _ => ih reply⟩

theorem Serves.bind_of_meets (hserves : inquiry.Serves good) (hmeets : inquiry.Meets allowed good middle)
    (hnext : ∀ value, middle value → (next value).Serves good) : (inquiry.bind next).Serves good := by
  induction inquiry with
  | answer value => exact hnext value hmeets
  | refuse error => exact hserves.elim
  | ask path rest ih =>
      intro reply hreply
      exact ih reply (hserves reply hreply) (hmeets.2 reply hreply)

theorem Serves.bind (hserves : inquiry.Serves good) (hnext : ∀ value, (next value).Serves good) :
    (inquiry.bind next).Serves good :=
  hserves.bind_of_meets inquiry.meets_true fun value _ => hnext value

theorem Fails.bind (hfails : inquiry.Fails) (next : α → Inquiry β) : (inquiry.bind next).Fails :=
  Meets.bind hfails fun _ h => h.elim

theorem Fails.of_next (inquiry : Inquiry α) (hnext : ∀ value, (next value).Fails) :
    (inquiry.bind next).Fails :=
  inquiry.meets_true.bind fun value _ => hnext value

theorem serves_ofUnion {members : List Ty} (hne : members ≠ [])
    (hmembers : ∀ member ∈ members, member.Populated) : (ofUnion members).Serves good := by
  obtain ⟨type, htype⟩ := Ty.exists_canonicalizeUnion hne hmembers
  rw [ofUnion, htype]
  trivial

theorem serves_ofChain (chain : List ChainOp) (type : Ty) : (ofChain chain type).Serves good := by
  induction chain generalizing type with
  | nil => trivial
  | cons op rest ih =>
      cases op with
      | callResult => exact ih type.callResult
      | memberCall method =>
          cases type with
          | object owner =>
              intro reply _
              cases reply with
              | some found => exact ih found.callResult
              | none => trivial
          | unknown | literal _ | array _ | function _ _ | union _ | reference _ _ => trivial

theorem meets_ofMembers_of_ne_nil {members : List Ty} (hne : members ≠ []) :
    (ofMembers members).Meets (fun _ => True) Populated fun resolved =>
      resolved ≠ [] ∧ ∀ member ∈ resolved, member.Populated := by
  cases members with
  | nil => exact absurd rfl hne
  | cons type rest =>
      rw [ofMembers]
      apply (meets_ofTy Ty.inherited_populated type type.covered_populated).bind
      intro found hfound
      apply (meets_ofMembers Ty.inherited_populated rest fun member _ => member.covered_populated).bind
      intro resolved hresolved
      exact ⟨List.cons_ne_nil _ _, List.forall_mem_cons.mpr ⟨hfound, hresolved⟩⟩

mutual

/-- Unless there is an empty union in the type or in the replies, the walk through it is not refused. -/
theorem serves_ofTy : (type : Ty) → type.Populated → (ofTy type).Serves Populated
  | .unknown, _ => trivial
  | .literal _, _ => trivial
  | .object _, _ => trivial
  | .array entries, htype => by
      have hparts := ((Ty.populated_iff _).mp htype).2
      have hentries := serves_ofEntries entries fun entry hentry =>
        hparts entry.2 (List.mem_map_of_mem hentry)
      rw [ofTy]
      exact hentries.bind fun _ => trivial
  | .function params result, htype => by
      have hparts := ((Ty.populated_iff _).mp htype).2
      have hparams := serves_ofParams params fun param hparam =>
        hparts param.2 (List.mem_append_left _ (List.mem_map_of_mem hparam))
      have hresult := serves_ofTy result (hparts result (List.mem_append_right _ List.mem_cons_self))
      rw [ofTy]
      exact hparams.bind fun _ => hresult.bind fun _ => trivial
  | .union members, htype => by
      obtain ⟨hne, hmembers⟩ := (Ty.populated_iff _).mp htype
      have hsome : members ≠ [] := fun h => hne (congrArg Ty.union h)
      rw [ofTy]
      apply (serves_ofMembers members hmembers).bind_of_meets (meets_ofMembers_of_ne_nil hsome)
      intro resolved hresolved
      exact serves_ofUnion hresolved.1 hresolved.2
  | .reference target chain, _ => by
      intro reply _
      cases reply with
      | some found => exact serves_ofChain chain found
      | none => trivial

theorem serves_ofEntries : (entries : List (Key × Ty)) → (∀ entry ∈ entries, entry.2.Populated) →
    (ofEntries entries).Serves Populated
  | [], _ => trivial
  | (key, type) :: rest, hentries => by
      obtain ⟨htype, hrest⟩ := List.forall_mem_cons.mp hentries
      rw [ofEntries]
      exact (serves_ofTy type htype).bind fun _ => (serves_ofEntries rest hrest).bind fun _ => trivial

theorem serves_ofParams : (params : List (String × Ty)) → (∀ param ∈ params, param.2.Populated) →
    (ofParams params).Serves Populated
  | [], _ => trivial
  | (name, type) :: rest, hparams => by
      obtain ⟨htype, hrest⟩ := List.forall_mem_cons.mp hparams
      rw [ofParams]
      exact (serves_ofTy type htype).bind fun _ => (serves_ofParams rest hrest).bind fun _ => trivial

theorem serves_ofMembers : (members : List Ty) → (∀ member ∈ members, member.Populated) →
    (ofMembers members).Serves Populated
  | [], _ => trivial
  | type :: rest, hmembers => by
      obtain ⟨htype, hrest⟩ := List.forall_mem_cons.mp hmembers
      rw [ofMembers]
      exact (serves_ofTy type htype).bind fun _ => (serves_ofMembers rest hrest).bind fun _ => trivial

end

mutual

/-- No replies can help a walk through a type with an empty union. -/
theorem fails_ofTy : (type : Ty) → type.HasEmptyUnion → (ofTy type).Fails
  | .array entries, htype => by
      obtain ⟨⟨⟩⟩ | ⟨child, hchild, hempty⟩ := (Ty.hasEmptyUnion_iff _).mp htype
      obtain ⟨entry, hentry, rfl⟩ := List.mem_map.mp hchild
      rw [ofTy]
      exact (fails_ofEntries entries ⟨entry, hentry, hempty⟩).bind _
  | .function params result, htype => by
      obtain ⟨⟨⟩⟩ | ⟨child, hchild, hempty⟩ := (Ty.hasEmptyUnion_iff _).mp htype
      rw [ofTy]
      rcases List.mem_append.mp hchild with hchild | hchild
      · obtain ⟨param, hparam, rfl⟩ := List.mem_map.mp hchild
        exact (fails_ofParams params ⟨param, hparam, hempty⟩).bind _
      · rw [List.mem_singleton.mp hchild] at hempty
        exact .of_next _ fun _ => (fails_ofTy result hempty).bind _
  | .union members, htype => by
      rw [ofTy]
      obtain hunion | ⟨child, hchild, hempty⟩ := (Ty.hasEmptyUnion_iff _).mp htype
      · obtain rfl := Ty.union.inj hunion
        trivial
      · exact (fails_ofMembers members ⟨child, hchild, hempty⟩).bind _
  | .unknown, htype => absurd htype (Ty.populated_of_childless nofun rfl)
  | .literal _, htype => absurd htype (Ty.populated_of_childless nofun rfl)
  | .object _, htype => absurd htype (Ty.populated_of_childless nofun rfl)
  | .reference _ _, htype => absurd htype (Ty.populated_of_childless nofun rfl)

theorem fails_ofEntries : (entries : List (Key × Ty)) → (∃ entry ∈ entries, entry.2.HasEmptyUnion) →
    (ofEntries entries).Fails
  | [], hentries => by
      obtain ⟨_, hentry, -⟩ := hentries
      cases hentry
  | (key, type) :: rest, hentries => by
      rw [ofEntries]
      rcases (List.exists_mem_cons_iff _ _ _).mp hentries with htype | hrest
      · exact (fails_ofTy type htype).bind _
      · exact .of_next _ fun _ => (fails_ofEntries rest hrest).bind _

theorem fails_ofParams : (params : List (String × Ty)) → (∃ param ∈ params, param.2.HasEmptyUnion) →
    (ofParams params).Fails
  | [], hparams => by
      obtain ⟨_, hparam, -⟩ := hparams
      cases hparam
  | (name, type) :: rest, hparams => by
      rw [ofParams]
      rcases (List.exists_mem_cons_iff _ _ _).mp hparams with htype | hrest
      · exact (fails_ofTy type htype).bind _
      · exact .of_next _ fun _ => (fails_ofParams rest hrest).bind _

theorem fails_ofMembers : (members : List Ty) → (∃ member ∈ members, member.HasEmptyUnion) →
    (ofMembers members).Fails
  | [], hmembers => by
      obtain ⟨_, hmember, -⟩ := hmembers
      cases hmember
  | type :: rest, hmembers => by
      rw [ofMembers]
      rcases (List.exists_mem_cons_iff _ _ _).mp hmembers with htype | hrest
      · exact (fails_ofTy type htype).bind _
      · exact .of_next _ fun _ => (fails_ofMembers rest hrest).bind _

end

end Inquiry

/-! ### How a run ends -/

/-- The result says that a type was not what a step needs. -/
def Refused {α : Type} : Except Halt α → Prop
  | .error (.error (.precondition _)) => True
  | _ => False

namespace Graph

/-- No stored type has a union without members. -/
def Populated (graph : Graph) : Prop := ∀ id type, graph.get? id = some type → type.Populated

namespace Populated

variable {graph : Graph} {type : Ty}

theorem empty : Graph.empty.Populated := fun _ _ hget => by cases hget

theorem set (hgraph : graph.Populated) (htype : type.Populated) (id : SymbolId) :
    (graph.set id type).Populated := by
  intro other stored hstored
  rw [get?_set] at hstored
  by_cases hother : other = id
  · rw [if_pos hother, Option.map_eq_some_iff] at hstored
    obtain ⟨_, -, rfl⟩ := hstored
    exact htype
  · rw [if_neg hother] at hstored
    exact hgraph other stored hstored

theorem append (hgraph : graph.Populated) (htype : type.Populated) (path : Path) :
    (graph.append path type).Populated := by
  intro other stored hstored
  rw [get?_append] at hstored
  by_cases hother : other = graph.size
  · rw [if_pos hother] at hstored
    obtain rfl := Option.some.inj hstored
    exact htype
  · rw [if_neg hother] at hstored
    exact hgraph other stored hstored

theorem declare (hgraph : graph.Populated) (path : Path) (htype : type.Populated) :
    (graph.declare path type).2.Populated := by
  unfold Graph.declare
  cases graph.lookup path with
  | some id => exact hgraph.set htype id
  | none => exact hgraph.append htype path

end Populated

end Graph

namespace Task

/-- The task is not refused and hands out types whose unions have members, if the replies to its questions
are such types. -/
def Served : Task → Prop
  | .symbol _ => True
  | .inquiry questions => questions.Serves Ty.Populated ∧
      questions.Meets (fun _ => True) Ty.Populated Ty.Populated

theorem Served.ofTy {type : Ty} (htype : type.Populated) : (Task.inquiry (.ofTy type)).Served :=
  ⟨Inquiry.serves_ofTy type htype,
    Inquiry.meets_ofTy Ty.inherited_populated type type.covered_populated⟩

theorem Served.rest {path : Path} {rest : Option Ty → Inquiry Ty}
    (htask : (Task.inquiry (.ask path rest)).Served) {reply : Option Ty}
    (hreply : ∀ type, reply = some type → type.Populated) : (Task.inquiry (rest reply)).Served :=
  ⟨htask.1 reply hreply, htask.2.2 reply hreply⟩

namespace Runs

variable {task : Task} {pass after : Pass} {result : Except Halt Ty} {events : List Event}

/-- Where there are no empty unions a run is not refused, and none come up. -/
theorem populated (run : task.Runs pass result events after) (hgraph : pass.graph.Populated)
    (htask : task.Served) :
    ¬Refused result ∧ (∀ type, result = .ok type → type.Populated) ∧ after.graph.Populated := by
  induction run with
  | cut =>
      refine ⟨fun h => h, ?_, hgraph⟩
      rintro type ⟨⟩
      exact Ty.inherited_populated.unknown
  | unallocated | exhausted => exact ⟨fun h => h, nofun, hgraph⟩
  | recalled _ hget _ =>
      refine ⟨fun h => h, ?_, hgraph⟩
      rintro type ⟨⟩
      exact hgraph _ _ hget
  | @walked pass id type result events inside hwaits _ _ ih =>
      obtain ⟨hrefuse, hresult, hinside⟩ := ih hgraph (.ofTy (hgraph id type hwaits.get))
      refine ⟨hrefuse, hresult, ?_⟩
      rcases pass.write_settled inside id result with ⟨hsettled, -⟩ | ⟨found, hfound, hsettled, -⟩
      · rw [hsettled]
        exact hinside
      · rw [hsettled]
        exact hinside.set (hresult found hfound) id
  | answer =>
      refine ⟨fun h => h, ?_, hgraph⟩
      rintro type ⟨⟩
      exact htask.2
  | refuse => exact htask.1.elim
  | missing _ _ ih => exact ih hgraph (htask.rest nofun)
  | halted _ _ ih => exact ih hgraph trivial
  | found _ _ _ ihsymbol ihrest =>
      obtain ⟨-, hfound, hmiddle⟩ := ihsymbol hgraph trivial
      apply ihrest hmiddle
      apply htask.rest
      rintro type ⟨⟩
      exact hfound _ rfl

theorem not_ok_of_fails {questions : Inquiry Ty} {type : Ty} (hfails : questions.Fails) :
    ¬(Task.inquiry questions).Runs pass (.ok type) events after := by
  intro run
  generalize htask : Task.inquiry questions = task at run
  generalize hresult : Except.ok type = result at run
  induction run generalizing questions with
  | cut | unallocated | recalled | exhausted | walked => cases htask
  | refuse | halted => cases hresult
  | answer =>
      cases htask
      exact hfails
  | missing _ _ ih =>
      cases htask
      exact ih (hfails.2 none fun _ _ => trivial) rfl hresult
  | found _ _ _ _ ih =>
      cases htask
      exact ih (hfails.2 _ fun _ _ => trivial) rfl hresult

/-- The walk of a symbol that waits goes through its whole type. -/
theorem not_ok_of_hasEmptyUnion {id : SymbolId} {type found : Ty} (hwaits : pass.Waits id type)
    (hempty : type.HasEmptyUnion) : ¬(Task.symbol id).Runs pass (.ok found) events after := by
  intro run
  generalize hresult : Except.ok found = result at run
  cases run with
  | cut hposition => exact hwaits.closed (Guard.mem_of_position? hposition)
  | unallocated | exhausted => cases hresult
  | recalled _ hget hfinal =>
      obtain rfl := Option.some.inj (hwaits.get.symm.trans hget)
      exact Bool.false_ne_true (hfinal.symm.trans hwaits.pending)
  | walked hwaits' _ hwalk =>
      obtain rfl := Option.some.inj (hwaits.get.symm.trans hwaits'.get)
      subst hresult
      exact not_ok_of_fails (Inquiry.fails_ofTy type hempty) hwalk

/-- With room for every symbol and without empty unions, a run for what is declared gives a type. -/
theorem exists_ok (run : task.Runs pass result events after) (hroomy : pass.Roomy)
    (hindexed : pass.graph.Indexed) (hdeclared : task.Declared pass.graph)
    (hgraph : pass.graph.Populated) (htask : task.Served) :
    ∃ type, result = .ok type ∧ type.Populated ∧ after.graph.Populated := by
  obtain ⟨hrefuse, hresult, hafter⟩ := run.populated hgraph htask
  have hfault := run.not_faulty hindexed hdeclared
  have habort := run.not_aborted hroomy
  rcases result with ((⟨path, depth, iterations⟩ | precondition) | fault) | type
  · exact absurd trivial habort
  · exact absurd trivial hrefuse
  · exact absurd trivial hfault
  · exact ⟨type, rfl, hresult type rfl, hafter⟩

end Runs

end Task

namespace Resolver

/-- Without a budget the symbols of the graph can be opened from the outside, and a run is made. -/
theorem exists_run_within {graph : Graph} (hsize : graph.size < maxCount) (stats : Stats) (type : Ty)
    {visiting : List SymbolId} (hvisiting : ∀ id ∈ visiting, id < graph.size) :
    ∃ pass result events after, pass.Roomy ∧ pass.graph = graph ∧
      (Task.inquiry (.ofTy type)).Runs pass result events after ∧
      outcome (tryResolveTypeWithin type visiting) ⟨graph, .unbounded, stats⟩ =
        (result, advance ⟨graph, .unbounded, stats⟩ after.graph events) := by
  obtain ⟨opened, seeded, hseeded, hsubset, hcases⟩ :=
    outcome_tryResolveTypeWithin type visiting ⟨graph, .unbounded, stats⟩
  have hgraph : seeded.graph = graph := hseeded.graph
  have hroomy : seeded.Roomy := by
    refine ⟨hseeded.limits, hseeded.nodup, fun id hid => ?_, ?_⟩
    · rw [hseeded.stack] at hid
      rw [hgraph]
      exact hvisiting id (hsubset hid)
    · rw [hgraph]
      exact Nat.le_of_lt hsize
  obtain ⟨hdenied, -⟩ | ⟨result, events, after, run, houtcome⟩ := hcases
  · exact absurd hdenied (hroomy.not_denied (by rwa [hgraph]))
  · exact ⟨seeded, result, events, after, hroomy, hgraph, run, houtcome⟩

/-- **Without a budget only empty unions fail.** Over a graph whose symbols a count can hold, no request
without a budget is aborted. If no union in a stored type, nor in the type asked for, is without members,
the request ends with a type, and neither this type nor a stored one has such a union then. A symbol that
waits and has such a union in its type, however deep, fails with any limits. -/
theorem unbounded_fails_on_empty_unions {graph : Graph} (hgraph : graph.Built) (stats : Stats) :
    (graph.size < maxCount →
      let resolver : Resolver := ⟨graph, .unbounded, stats⟩
      (∀ id < graph.size, ¬Aborted (outcome (tryResolve id) resolver).1 ∧
        (graph.Populated → ∃ type later, outcome (tryResolve id) resolver = (.ok type, later) ∧
          type.Populated ∧ later.graph.Populated)) ∧
      ∀ type visiting, (∀ id ∈ visiting, id < graph.size) →
        ¬Aborted (outcome (tryResolveTypeWithin type visiting) resolver).1 ∧
        (graph.Populated → type.Populated → ∃ found later,
          outcome (tryResolveTypeWithin type visiting) resolver = (.ok found, later) ∧
          found.Populated ∧ later.graph.Populated)) ∧
    ∀ profile id type, graph.get? id = some type → type.containsReference = true → type.HasEmptyUnion →
      ∃ error, (outcome (tryResolve id) ⟨graph, profile, stats⟩).1 = .error (.error error) := by
  have hindexed := hgraph.indexed
  refine ⟨fun hsize => ⟨fun id hid => ?_, fun type visiting hvisiting => ?_⟩,
    fun profile id type hget hpending hempty => ?_⟩
  · obtain ⟨result, events, after, run⟩ :=
      (Task.symbol id).exists_run (.start graph Profile.unbounded.limits)
    have hroomy := Pass.Roomy.start (Nat.le_of_lt hsize)
    rw [show outcome _ _ = _ from outcome_tryResolve run]
    refine ⟨run.not_aborted hroomy, fun hpopulated => ?_⟩
    obtain ⟨type, rfl, htype, hafter⟩ := run.exists_ok hroomy hindexed hid hpopulated trivial
    exact ⟨type, _, rfl, htype, hafter⟩
  · obtain ⟨pass, result, events, after, hroomy, rfl, run, houtcome⟩ :=
      exists_run_within hsize stats type hvisiting
    rw [houtcome]
    refine ⟨run.not_aborted hroomy, fun hpopulated htype => ?_⟩
    obtain ⟨found, rfl, hfound, hafter⟩ :=
      run.exists_ok hroomy hindexed trivial hpopulated (.ofTy htype)
    exact ⟨found, _, rfl, hfound, hafter⟩
  · obtain ⟨result, events, after, run⟩ := (Task.symbol id).exists_run (.start graph profile.limits)
    rw [show outcome _ _ = _ from outcome_tryResolve run]
    have hfault := run.not_faulty hindexed (Graph.lt_size_of_get? hget)
    rcases result with (error | fault) | found
    · exact ⟨error, rfl⟩
    · exact absurd trivial hfault
    · exact absurd run (Task.Runs.not_ok_of_hasEmptyUnion ⟨List.not_mem_nil, hget, hpending⟩ hempty)

/-- A union of a function with itself, of a nested union and of a symbol that nobody declared, asked for
from within another function. With one more function, whose array has a union without members, this
function fails. -/
theorem unbounded_fails_on_empty_unions_nested :
    let pick := Ty.union [.call (.function "pick"), .union [.call (.function "pair")]]
    let pair := Ty.returning (.union [.object "Box", .call (.function "lost")])
    let broken := Ty.array [(.int 0, .call (.function "pick")), (.int 1, .union [])]
    let graph := ((Graph.empty.declare (.function "pick") pick).2.declare (.function "pair") pair).2
    let more := (graph.declare (.function "broken") broken).2
    let request := tryResolveTypeWithin (.call (.function "pick")) [1, 1]
    (graph.size < maxCount ∧ ¬Aborted (outcome request ⟨graph, .unbounded, {}⟩).1 ∧
      ∃ found later, outcome request ⟨graph, .unbounded, {}⟩ = (.ok found, later) ∧
        found.Populated ∧ later.graph.Populated) ∧
    ∃ error, (outcome (tryResolve 2) ⟨more, .interactive, {}⟩).1 = .error (.error error) := by
  intro pick pair broken graph more request
  have hsize : graph.size < maxCount := by decide +kernel
  have hvisiting : ∀ id ∈ [1, 1], id < graph.size := by decide +kernel
  have hbuilt : graph.Built := .declare _ _ (.declare _ _ .empty)
  have hpopulated : graph.Populated :=
    (Graph.Populated.empty.declare _ (by decide +kernel)).declare _ (by decide +kernel)
  obtain ⟨haborted, hserved⟩ := ((unbounded_fails_on_empty_unions hbuilt {}).1 hsize).2
    (.call (.function "pick")) [1, 1] hvisiting
  exact ⟨⟨hsize, haborted, hserved hpopulated (by decide +kernel)⟩,
    (unbounded_fails_on_empty_unions (.declare _ _ hbuilt) {}).2 .interactive 2 broken
      (by decide +kernel) (by decide +kernel) (by decide +kernel)⟩

end Resolver

end DeferredTypes
