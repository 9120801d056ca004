import DeferredTypes.Proofs.FinalAnswers

/-! Canonical types. A walk makes every union canonical once its members are known, so that what it hands
out is canonical if the final types it meets in the graph are, whatever the types that it walks look like.
A type in canonical form without references goes through a walk as it is. -/

namespace DeferredTypes

/-! ### The canonical form -/

namespace Ty

def isUnion : Ty → Bool
  | .union _ => true
  | _ => false

/-- Neither of two members stands for the other. -/
def Distinct (left right : Ty) : Prop := left.dedupEq right = false ∧ right.dedupEq left = false

instance (left right : Ty) : Decidable (left.Distinct right) := inferInstanceAs (Decidable (_ ∧ _))

/-- What is unknown does not stand behind anything else. -/
def InOrder (left right : Ty) : Prop := right.isUnknown = true → left.isUnknown = true

instance (left right : Ty) : Decidable (left.InOrder right) := inferInstanceAs (Decidable (_ → _))

/-- The members of a canonical union: at least two, none of them a union, what is unknown in front of all
others, and no two that stand for each other. -/
structure CanonicalMembers (members : List Ty) : Prop where
  two_le : 2 ≤ members.length
  flat : ∀ member ∈ members, member.isUnion = false
  unknowns_first : members.Pairwise InOrder
  distinct : members.Pairwise Distinct

instance (members : List Ty) : Decidable (CanonicalMembers members) :=
  decidable_of_iff (2 ≤ members.length ∧ (∀ member ∈ members, member.isUnion = false) ∧
      members.Pairwise InOrder ∧ members.Pairwise Distinct)
    ⟨fun h => ⟨h.1, h.2.1, h.2.2.1, h.2.2.2⟩, fun h => ⟨h.1, h.2, h.3, h.4⟩⟩

/-- The type is no union, or one in canonical form. -/
def CanonicalAtTop : Ty → Prop
  | .union members => CanonicalMembers members
  | _ => True

instance : (type : Ty) → Decidable type.CanonicalAtTop
  | .union members => inferInstanceAs (Decidable (CanonicalMembers members))
  | .unknown | .literal _ | .object _ | .array _ | .function _ _ | .reference _ _ => .isTrue trivial

/-- Every union in the type is in canonical form. -/
def Canonical (type : Ty) : Prop := ∀ part ∈ type.subterms, part.CanonicalAtTop

instance (type : Ty) : Decidable type.Canonical := inferInstanceAs (Decidable (∀ part ∈ _, _))

theorem canonical_iff (type : Ty) :
    type.Canonical ↔ type.CanonicalAtTop ∧ ∀ child ∈ type.children, child.Canonical :=
  forall_mem_subterms_iff _ type

theorem Canonical.child {type child : Ty} (htype : type.Canonical) (hchild : child ∈ type.children) :
    child.Canonical :=
  ((canonical_iff type).mp htype).2 child hchild

theorem canonical_of_isLeaf {type : Ty} (htype : type.IsLeaf) : type.Canonical := by
  cases type with
  | literal _ | object _ => exact (canonical_iff _).mpr ⟨trivial, fun _ hchild => by cases hchild⟩
  | unknown | array _ | function _ _ | union _ | reference _ _ => exact htype.elim

theorem containsUnknown_unknown : Ty.unknown.containsUnknown = true := rfl

theorem eq_unknown_of_isUnknown {type : Ty} (htype : type.isUnknown = true) : type = .unknown := by
  cases type with
  | unknown => rfl
  | literal _ | object _ | array _ | function _ _ | union _ | reference _ _ => cases htype

theorem dedupEq_comm (left right : Ty) : left.dedupEq right = right.dedupEq left := by
  by_cases heq : left = right
  · rw [heq]
  · simp [dedupEq, heq, Ne.symm heq]

theorem distinct_of_dedupEq {left right : Ty} (h : left.dedupEq right = false) : left.Distinct right :=
  ⟨h, by rw [dedupEq_comm, h]⟩

/-- What is unknown stands for nothing else. -/
theorem distinct_unknown (type : Ty) : Ty.unknown.Distinct type :=
  distinct_of_dedupEq (by rw [dedupEq, containsUnknown_unknown]; rfl)

/-! ### Collecting members makes a canonical union -/

namespace UnionMembers

/-- The members collected so far are in order: they make a canonical union as soon as there are two. -/
structure Orderly (members : UnionMembers) : Prop where
  unknowns : ∀ member ∈ members.unknowns, member = .unknown
  others : ∀ member ∈ members.others, member.isUnknown = false ∧ member.isUnion = false
  distinct : members.others.Pairwise Distinct

theorem Orderly.nil : Orderly ⟨[], []⟩ :=
  ⟨nofun, nofun, .nil⟩

theorem add_unknown (members : UnionMembers) :
    members.add .unknown = { members with unknowns := members.unknowns ++ [.unknown] } := rfl

theorem add_of_known {type : Ty} (hknown : type.isUnknown = false) (members : UnionMembers) :
    members.add type = if members.others.any fun seen => seen.dedupEq type then members
      else { members with others := members.others ++ [type] } := by
  cases type with
  | unknown => cases hknown
  | literal _ | object _ | array _ | function _ _ | union _ | reference _ _ => rfl

/-- A type that is no union is collected in order. -/
theorem Orderly.add {members : UnionMembers} (hmembers : members.Orderly) (type : Ty)
    (hflat : type.isUnion = false) : (members.add type).Orderly := by
  cases hknown : type.isUnknown with
  | true =>
      rw [eq_unknown_of_isUnknown hknown, add_unknown]
      refine ⟨?_, hmembers.others, hmembers.distinct⟩
      intro member hmember
      rcases List.mem_append.mp hmember with hmember | hmember
      · exact hmembers.unknowns member hmember
      · exact List.mem_singleton.mp hmember
  | false =>
      rw [add_of_known hknown]
      split
      · exact hmembers
      · rename_i hseen
        rw [Bool.not_eq_true, List.any_eq_false] at hseen
        refine ⟨hmembers.unknowns, ?_, ?_⟩
        · intro member hmember
          rcases List.mem_append.mp hmember with hmember | hmember
          · exact hmembers.others member hmember
          · rw [List.mem_singleton.mp hmember]
            exact ⟨hknown, hflat⟩
        · refine List.pairwise_append.mpr ⟨hmembers.distinct, List.pairwise_singleton _ _, ?_⟩
          intro seen hmember last hlast
          rw [List.mem_singleton.mp hlast]
          exact distinct_of_dedupEq (Bool.not_eq_true _ ▸ hseen seen hmember)

mutual

theorem Orderly.push : (type : Ty) → (members : UnionMembers) → members.Orderly →
    (members.push type).Orderly
  | .union inner, members, hmembers => by
      rw [UnionMembers.push]
      exact Orderly.pushAll inner members hmembers
  | .unknown, _, hmembers => hmembers.add .unknown rfl
  | .literal value, _, hmembers => hmembers.add (.literal value) rfl
  | .object owner, _, hmembers => hmembers.add (.object owner) rfl
  | .array entries, _, hmembers => hmembers.add (.array entries) rfl
  | .function params result, _, hmembers => hmembers.add (.function params result) rfl
  | .reference target chain, _, hmembers => hmembers.add (.reference target chain) rfl

theorem Orderly.pushAll : (types : List Ty) → (members : UnionMembers) → members.Orderly →
    (members.pushAll types).Orderly
  | [], _, hmembers => hmembers
  | type :: rest, members, hmembers => by
      rw [UnionMembers.pushAll]
      exact Orderly.pushAll rest _ (Orderly.push type members hmembers)

end

theorem Orderly.canonicalMembers {members : UnionMembers} (hmembers : members.Orderly)
    (htwo : 2 ≤ (members.unknowns ++ members.others).length) :
    CanonicalMembers (members.unknowns ++ members.others) where
  two_le := htwo
  flat := by
    intro member hmember
    rcases List.mem_append.mp hmember with hmember | hmember
    · rw [hmembers.unknowns member hmember]
      rfl
    · exact (hmembers.others member hmember).2
  unknowns_first := by
    refine List.pairwise_append.mpr ⟨?_, ?_, ?_⟩
    · refine List.pairwise_of_forall_mem_list fun left hleft _ _ _ => ?_
      rw [hmembers.unknowns left hleft]
      rfl
    · refine List.pairwise_of_forall_mem_list fun _ _ right hright hunknown => ?_
      rw [(hmembers.others right hright).1] at hunknown
      cases hunknown
    · intro left hleft _ _ _
      rw [hmembers.unknowns left hleft]
      rfl
  distinct := by
    refine List.pairwise_append.mpr ⟨?_, hmembers.distinct, ?_⟩
    · refine List.pairwise_of_forall_mem_list fun left hleft right _ => ?_
      rw [hmembers.unknowns left hleft]
      exact distinct_unknown right
    · intro left hleft right _
      rw [hmembers.unknowns left hleft]
      exact distinct_unknown right

/-! ### Collecting the members of a canonical union gives them back -/

theorem push_of_flat {type : Ty} (hflat : type.isUnion = false) (members : UnionMembers) :
    members.push type = members.add type := by
  cases type with
  | union _ => cases hflat
  | unknown | literal _ | object _ | array _ | function _ _ | reference _ _ => rfl

/-- Members that stand for nothing seen so far are all kept, apart by whether they are unknown. -/
theorem pushAll_of_distinct (types : List Ty) (members : UnionMembers)
    (hflat : ∀ type ∈ types, type.isUnion = false)
    (hdistinct : (members.others ++ types).Pairwise Distinct) :
    members.pushAll types =
      ⟨members.unknowns ++ types.filter isUnknown,
        members.others ++ types.filter fun type => !type.isUnknown⟩ := by
  induction types generalizing members with
  | nil => simp [UnionMembers.pushAll]
  | cons type rest ih =>
      have hrest := fun other hother => hflat other (List.mem_cons_of_mem _ hother)
      rw [UnionMembers.pushAll, push_of_flat (hflat type List.mem_cons_self)]
      cases hknown : type.isUnknown with
      | true =>
          obtain rfl := eq_unknown_of_isUnknown hknown
          have hskipped : (members.others ++ rest).Pairwise Distinct :=
            hdistinct.sublist ((List.sublist_cons_self _ _).append_left _)
          rw [add_unknown, ih ⟨members.unknowns ++ [Ty.unknown], members.others⟩ hrest hskipped]
          simp [hknown]
      | false =>
          have hseen : ¬(members.others.any fun seen => seen.dedupEq type) = true := by
            rw [Bool.not_eq_true, List.any_eq_false]
            intro seen hmember
            rw [((List.pairwise_append.mp hdistinct).2.2 seen hmember type List.mem_cons_self).1]
            exact Bool.false_ne_true
          rw [add_of_known hknown, if_neg hseen, ih _ hrest (by simpa using hdistinct)]
          simp [hknown]

end UnionMembers

theorem filter_unknowns_first {types : List Ty}
    (hfirst : types.Pairwise InOrder) :
    types.filter isUnknown ++ types.filter (fun type => !type.isUnknown) = types := by
  induction hfirst with
  | nil => rfl
  | @cons type rest hrest _ ih =>
      cases hknown : type.isUnknown with
      | true => simpa [hknown] using ih
      | false =>
          -- Nothing behind a known member is unknown.
          have hnone : rest.filter isUnknown = [] := by
            rw [List.filter_eq_nil_iff]
            intro other hother hunknown
            rw [hrest other hother hunknown] at hknown
            cases hknown
          rw [hnone, List.nil_append] at ih
          simp [hknown, hnone, ih]

/-- A canonical union is left as it is. -/
theorem canonicalizeUnion_of_canonicalMembers {members : List Ty} (hmembers : CanonicalMembers members) :
    canonicalizeUnion members = .ok (.union members) := by
  have hpush := UnionMembers.pushAll_of_distinct members ⟨[], []⟩ hmembers.flat hmembers.distinct
  have hlength := hmembers.two_le
  unfold canonicalizeUnion
  dsimp only
  rw [hpush, List.nil_append, List.nil_append, filter_unknowns_first hmembers.unknowns_first]
  split
  · simp at hlength
  · simp at hlength
  · rfl

/-- A union of canonical types becomes canonical. -/
theorem canonical_canonicalizeUnion {members : List Ty} {type : Ty}
    (htype : canonicalizeUnion members = .ok type) (hmembers : ∀ member ∈ members, member.Canonical) :
    type.Canonical := by
  have horderly := UnionMembers.Orderly.pushAll members ⟨[], []⟩ .nil
  have hall : (UnionMembers.pushAll ⟨[], []⟩ members).All Canonical :=
    UnionMembers.All.pushAll (fun _ h => ((canonical_iff _).mp h).2) members ⟨[], []⟩
      (fun member hmember => by cases hmember) hmembers
  unfold canonicalizeUnion at htype
  dsimp only at htype
  unfold UnionMembers.All at hall
  split at htype
  · cases htype
  · rename_i hsingle
    cases htype
    rw [hsingle] at hall
    exact hall _ List.mem_cons_self
  · rename_i hempty hsingle
    cases htype
    refine (canonical_iff _).mpr ⟨horderly.canonicalMembers ?_, hall⟩
    generalize (UnionMembers.pushAll ⟨[], []⟩ members).unknowns ++
      (UnionMembers.pushAll ⟨[], []⟩ members).others = types at hempty hsingle
    match types, hempty, hsingle with
    | [], hempty, _ => exact absurd rfl hempty
    | [type], _, hsingle => exact absurd rfl (hsingle type)
    | _ :: _ :: _, _, _ => simp

theorem inherited_canonical : Inherited Canonical :=
  inherited_of_parts canonical_iff trivial (fun _ => trivial) (fun _ _ => trivial)
    fun _ _ => canonical_canonicalizeUnion

end Ty

/-! ### A canonical type goes through a walk as it is -/

namespace Inquiry

open Ty (Final Canonical)

mutual

/-- A walk through a final and canonical type asks for nothing and gives the type back. -/
theorem ofTy_of_canonical : (type : Ty) → type.Final → type.Canonical → ofTy type = .answer type
  | .unknown, _, _ => rfl
  | .literal _, _, _ => rfl
  | .object _, _, _ => rfl
  | .array entries, hfinal, hcanonical => by
      have hparts : ∀ entry ∈ entries, entry.2.Final ∧ entry.2.Canonical := fun entry hentry =>
        have hchild := List.mem_map_of_mem hentry
        ⟨((Ty.final_iff _).mp hfinal).2 entry.2 hchild, hcanonical.child hchild⟩
      rw [ofTy, ofEntries_of_canonical entries hparts]
      rfl
  | .function params result, hfinal, hcanonical => by
      have hchildren := ((Ty.final_iff _).mp hfinal).2
      have hparts : ∀ param ∈ params, param.2.Final ∧ param.2.Canonical := fun param hparam =>
        have hchild := List.mem_append_left _ (List.mem_map_of_mem hparam)
        ⟨hchildren param.2 hchild, hcanonical.child hchild⟩
      have hresult : result ∈ (Ty.function params result).children :=
        List.mem_append_right _ List.mem_cons_self
      rw [ofTy, ofParams_of_canonical params hparts,
        ofTy_of_canonical result (hchildren result hresult) (hcanonical.child hresult)]
      rfl
  | .union members, hfinal, hcanonical => by
      have hparts : ∀ member ∈ members, member.Final ∧ member.Canonical := fun member hmember =>
        ⟨((Ty.final_iff _).mp hfinal).2 member hmember, hcanonical.child hmember⟩
      have hmembers : Ty.CanonicalMembers members := ((Ty.canonical_iff _).mp hcanonical).1
      rw [ofTy, ofMembers_of_canonical members hparts]
      show ofUnion members = _
      rw [ofUnion, Ty.canonicalizeUnion_of_canonicalMembers hmembers]
  | .reference _ _, hfinal, _ => by cases hfinal

theorem ofEntries_of_canonical : (entries : List (Key × Ty)) →
    (∀ entry ∈ entries, entry.2.Final ∧ entry.2.Canonical) → ofEntries entries = .answer entries
  | [], _ => rfl
  | (key, type) :: rest, hparts => by
      obtain ⟨⟨hfinal, hcanonical⟩, hrest⟩ := List.forall_mem_cons.mp hparts
      rw [ofEntries, ofTy_of_canonical type hfinal hcanonical, ofEntries_of_canonical rest hrest]
      rfl

theorem ofParams_of_canonical : (params : List (String × Ty)) →
    (∀ param ∈ params, param.2.Final ∧ param.2.Canonical) → ofParams params = .answer params
  | [], _ => rfl
  | (name, type) :: rest, hparts => by
      obtain ⟨⟨hfinal, hcanonical⟩, hrest⟩ := List.forall_mem_cons.mp hparts
      rw [ofParams, ofTy_of_canonical type hfinal hcanonical, ofParams_of_canonical rest hrest]
      rfl

theorem ofMembers_of_canonical : (members : List Ty) →
    (∀ member ∈ members, member.Final ∧ member.Canonical) → ofMembers members = .answer members
  | [], _ => rfl
  | type :: rest, hparts => by
      obtain ⟨⟨hfinal, hcanonical⟩, hrest⟩ := List.forall_mem_cons.mp hparts
      rw [ofMembers, ofTy_of_canonical type hfinal hcanonical, ofMembers_of_canonical rest hrest]
      rfl

end

end Inquiry

/-! ### Properties of all types that a resolver hands out -/

/-- Every final type of the graph has a property. -/
def Graph.FinalsAre (good : Ty → Prop) (graph : Graph) : Prop :=
  ∀ id type, graph.get? id = some type → type.Final → good type

theorem Graph.finalsAre_iff (good : Ty → Prop) (graph : Graph) :
    graph.FinalsAre good ↔ ∀ symbol ∈ graph.symbols.toList, symbol.type.Final → good symbol.type := by
  simp only [FinalsAre, get?, Option.map_eq_some_iff, forall_exists_index, and_imp]
  constructor
  · intro h symbol hsymbol
    obtain ⟨id, hid⟩ := List.mem_iff_getElem?.mp hsymbol
    exact h id symbol.type symbol (by rwa [← Array.getElem?_toList]) rfl
  · rintro h id _ symbol hsymbol rfl
    exact h symbol (Array.mem_toList_iff.mpr (Array.mem_of_getElem? hsymbol))

instance (good : Ty → Prop) [DecidablePred good] (graph : Graph) : Decidable (graph.FinalsAre good) :=
  decidable_of_iff _ (Graph.finalsAre_iff good graph).symm

/-- The task hands out good types if the replies to its questions are good. -/
def Task.HandsOut (good : Ty → Prop) : Task → Prop
  | .symbol _ => True
  | .inquiry questions => questions.Meets (fun _ => True) good good

section

variable {good : Ty → Prop} (hgood : Ty.Inherited good) (hleaf : ∀ type : Ty, type.IsLeaf → good type)

theorem Graph.FinalsAre.set {graph : Graph} {type : Ty} (hgraph : graph.FinalsAre good)
    (htype : good type) (id : SymbolId) : (graph.set id type).FinalsAre good := by
  intro other stored hstored hfinal
  rw [get?_set] at hstored
  by_cases hother : other = id
  · rw [if_pos hother, Option.map_eq_some_iff] at hstored
    obtain ⟨_, -, rfl⟩ := hstored
    exact htype
  · rw [if_neg hother] at hstored
    exact hgraph other stored hstored hfinal

include hgood hleaf

theorem Task.Asked.handsOut {task : Task} (htask : task.Asked) : task.HandsOut good := by
  cases htask with
  | symbol id => trivial
  | type asked =>
      exact Inquiry.meets_ofTy hgood asked ⟨fun _ _ => trivial, fun part _ => hleaf part⟩

/-- A run over a graph whose final types are good hands out good types and leaves the graph so. -/
theorem Task.Runs.finalsAre {task : Task} {pass after : Pass} {result : Except Halt Ty}
    {events : List Event} (run : task.Runs pass result events after)
    (hgraph : pass.graph.FinalsAre good) (htask : task.HandsOut good) :
    (∀ type, result = .ok type → good type) ∧ after.graph.FinalsAre good := by
  induction run with
  | cut =>
      refine ⟨?_, hgraph⟩
      rintro type ⟨⟩
      exact hgood.unknown
  | unallocated | exhausted | refuse => exact ⟨nofun, hgraph⟩
  | recalled _ hget hfinal =>
      refine ⟨?_, hgraph⟩
      rintro type ⟨⟩
      exact hgraph _ _ hget hfinal
  | @walked pass id type result events inside hwaits _ _ ih =>
      obtain ⟨hresult, hinside⟩ := ih hgraph ((Asked.type type).handsOut hgood hleaf)
      refine ⟨hresult, ?_⟩
      rcases pass.write_settled inside id result with ⟨hsettled, -⟩ | ⟨found, hfound, hsettled, -⟩
      · rw [hsettled]
        exact hinside
      · rw [hsettled]
        exact hinside.set (hresult found hfound) id
  | answer =>
      refine ⟨?_, hgraph⟩
      rintro type ⟨⟩
      exact htask
  | missing _ _ ih => exact ih hgraph (htask.2 none nofun)
  | halted _ _ ih => exact ih hgraph trivial
  | found _ _ _ ihsymbol ihrest =>
      obtain ⟨hfound, hmiddle⟩ := ihsymbol hgraph trivial
      apply ihrest hmiddle
      apply htask.2
      rintro type ⟨⟩
      exact hfound _ rfl

namespace Resolver

variable {resolver later : Resolver}

theorem Step.finalsAre (step : resolver.Step later) (hgraph : resolver.graph.FinalsAre good) :
    later.graph.FinalsAre good := by
  cases step with
  | missed | limited => exact hgraph
  | @resolved pass id _ _ _ hpass run =>
      exact (run.finalsAre hgood hleaf (hpass ▸ hgraph) ((Task.Asked.symbol id).handsOut hgood hleaf)).2
  | @replaced pass type _ _ _ hpass run =>
      exact (run.finalsAre hgood hleaf (hpass ▸ hgraph) ((Task.Asked.type type).handsOut hgood hleaf)).2

/-- What is inherited and holds of the final types at first holds of all that become final later. -/
theorem Reaches.finalsAre (steps : resolver.Reaches later) (hgraph : resolver.graph.FinalsAre good) :
    later.graph.FinalsAre good := by
  induction steps with
  | refl => exact hgraph
  | tail _ step ih => exact step.finalsAre hgood hleaf ih

theorem good_of_finds {type : Ty} (hfinds : resolver.Finds type)
    (hgraph : resolver.graph.FinalsAre good) : good type := by
  obtain rfl | ⟨task, pass, events, after, htask, hpass, run⟩ := exists_run_of_finds hfinds
  · exact hgood.unknown
  · exact (run.finalsAre hgood hleaf (hpass ▸ hgraph) (htask.handsOut hgood hleaf)).1 type rfl

end Resolver

end

/-! ### Canonical form in a series of requests -/

namespace Resolver

/-- A request for a type about which nothing is asked changes nothing. -/
theorem outcome_resolveType_of_answer {type : Ty} (htype : Inquiry.ofTy type = .answer type)
    (resolver : Resolver) : outcome (resolveType type) resolver = (.ok type, resolver) := by
  have hwalk : outcome (Walk.typeWithin [] type) (.start resolver.graph resolver.profile.limits) =
      (.ok type, .start resolver.graph resolver.profile.limits) := by
    have hrun : (Task.inquiry (.ofTy type)).Runs (.start resolver.graph resolver.profile.limits)
        (.ok type) [] (.start resolver.graph resolver.profile.limits) := by
      rw [htype]
      exact .answer
    rw [Walk.outcome_typeWithin_of_none rfl, Walk.leaving, outcome_bind, outcome_attempt,
      hrun.outcome_type]
    rfl
  rw [resolveType, degrade, outcome_tryCatch, tryResolveTypeWithin, outcome_run hwalk fun _ => rfl]
  show (Except.ok type, resolver.advance resolver.graph []) = _
  rw [advance]
  exact congrArg (fun stats => (Except.ok type, { resolver with stats })) (Stats.merge_zero resolver.stats)

/-- **Answers are canonical and stay as they are.** If the final types of a graph are canonical, they are
so after any requests with any limits, and so is every type that a further request hands out. Such a type
is given back by a request for the type itself, from whatever resolver, which is then as before. Of the
types with references in the graph, and of the types asked for, nothing is assumed. -/
theorem performAll_canonical (resolver : Resolver) (hgraph : resolver.graph.FinalsAre Ty.Canonical)
    (requests : List (Profile × Call)) :
    (resolver.performAll requests).graph.FinalsAre Ty.Canonical ∧
    ∀ profile call type,
      (outcome (Call.answer call) { resolver.performAll requests with profile }).1 = .ok (some type) →
      type.Canonical ∧ ∀ other : Resolver, outcome (resolveType type) other = (.ok type, other) := by
  have hlater := (resolver.reaches_performAll requests).finalsAre Ty.inherited_canonical
    (fun _ => Ty.canonical_of_isLeaf) hgraph
  refine ⟨hlater, ?_⟩
  intro profile call type hresult
  have hcanonical : type.Canonical := good_of_finds Ty.inherited_canonical
    (fun _ => Ty.canonical_of_isLeaf) (finds_of_answer hresult) hlater
  refine ⟨hcanonical, ?_⟩
  intro other
  exact outcome_resolveType_of_answer
    (Inquiry.ofTy_of_canonical type (final_of_answer hresult) hcanonical) other

/-- A function with a canonical type, and another one with a union in which the result of the first stands
twice, once in a union within a union. A request without a budget fails before the second is asked for. -/
theorem performAll_canonical_spliced :
    let pick := Ty.returning (.union [.unknown, .object "Box"])
    let twice := Ty.union [.call (.function "pick"), .union [.union [.literal .null]],
      .union [.literal .null, .call (.function "pick")]]
    let graph := (Graph.empty.append (.function "pick") pick).append (.function "twice") twice
    let resolver : Resolver := ⟨graph, .interactive, {}⟩
    let requests := [(Profile.custom 0 0, Call.tryResolveAll), (.unbounded, .resolvePath (.function "pick"))]
    let later := { resolver.performAll requests with profile := Profile.custom 1 1 }
    let found := Ty.union [.unknown, .unknown, .object "Box", .literal .null]
    ¬twice.Canonical ∧ graph.FinalsAre Ty.Canonical ∧
    (resolver.performAll requests).graph.FinalsAre Ty.Canonical ∧
    (outcome (Call.answer (.resolve 1)) later).1 = .ok (some found) ∧ found.Canonical ∧
    outcome (resolveType found) later = (.ok found, later) := by
  intro pick twice graph resolver requests later found
  have htwice : ¬twice.Canonical := by decide +kernel
  have hgraph : graph.FinalsAre Ty.Canonical := by decide +kernel
  have hfound : (outcome (Call.answer (.resolve 1)) later).1 = .ok (some found) := by decide +kernel
  obtain ⟨hlater, hanswers⟩ := performAll_canonical resolver hgraph requests
  obtain ⟨hcanonical, hfixed⟩ := hanswers (.custom 1 1) (.resolve 1) found hfound
  exact ⟨htwice, hgraph, hlater, hfound, hcanonical, hfixed later⟩

end Resolver

end DeferredTypes
