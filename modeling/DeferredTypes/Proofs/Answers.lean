import DeferredTypes.Proofs.Collections
import DeferredTypes.Proofs.Run

/-! What an inquiry asks for and what it answers. A walk asks only for paths that its type mentions,
and its answer has every property that is handed on from the replies to the types built of them. In
particular the answers of a run are final. -/

namespace DeferredTypes

namespace Ty

/-- A type without references. -/
abbrev Final (type : Ty) : Prop := type.containsReference = false

/-- A path that a walk through the type may ask for: the target of a reference in it, or a method, of
whatever class, that the chain of one calls. -/
def Mentions (type : Ty) (path : Path) : Prop :=
  ∃ target chain, .reference target chain ∈ type.subterms ∧
    (path = target ∨ ∃ owner method, .memberCall method ∈ chain ∧ path = .method owner method)

theorem mem_subterms_self (type : Ty) : type ∈ type.subterms := by
  rw [subterms_eq]
  exact List.mem_cons_self

theorem mem_subterms_of_child {type child part : Ty} (hchild : child ∈ type.children)
    (hpart : part ∈ child.subterms) : part ∈ type.subterms := by
  rw [subterms_eq]
  exact List.mem_cons_of_mem _ (List.mem_flatMap.mpr ⟨child, hchild, hpart⟩)

theorem sizeOf_lt_of_child {type child : Ty} (hchild : child ∈ type.children) :
    sizeOf child < sizeOf type := by
  cases type with
  | array entries =>
      obtain ⟨⟨key, type⟩, hentry, rfl⟩ := List.mem_map.mp hchild
      have hsize := List.sizeOf_lt_of_mem hentry
      simp only [Prod.mk.sizeOf_spec, array.sizeOf_spec] at hsize ⊢
      omega
  | function params result =>
      rw [function.sizeOf_spec]
      rcases List.mem_append.mp hchild with hchild | hchild
      · obtain ⟨⟨name, type⟩, hparam, rfl⟩ := List.mem_map.mp hchild
        have hsize := List.sizeOf_lt_of_mem hparam
        simp only [Prod.mk.sizeOf_spec] at hsize ⊢
        omega
      · rw [List.mem_singleton.mp hchild]
        omega
  | union members =>
      have hsize : sizeOf child < sizeOf members := List.sizeOf_lt_of_mem hchild
      rw [union.sizeOf_spec]
      omega
  | unknown | literal _ | object _ | reference _ _ => cases hchild

/-- Induction on the immediate parts of a type. -/
theorem children_induction {motive : Ty → Prop}
    (step : ∀ type : Ty, (∀ child ∈ type.children, motive child) → motive type) (type : Ty) : motive type :=
  step type fun child _ => children_induction step child
termination_by sizeOf type
decreasing_by exact sizeOf_lt_of_child (by assumption)

/-- All parts of a type are its own part and those of its immediate parts. -/
theorem forall_mem_subterms_iff (good : Ty → Prop) (type : Ty) :
    (∀ part ∈ type.subterms, good part) ↔
      good type ∧ ∀ child ∈ type.children, ∀ part ∈ child.subterms, good part := by
  rw [subterms_eq]
  simp only [List.mem_cons, List.mem_flatMap, forall_eq_or_imp, forall_exists_index, and_imp]
  exact and_congr_right fun _ =>
    ⟨fun h child hchild part hpart => h part child hchild hpart,
      fun h part child hchild hpart => h child hchild part hpart⟩

theorem Mentions.of_child {type child : Ty} {path : Path} (hchild : child ∈ type.children)
    (hpath : child.Mentions path) : type.Mentions path := by
  obtain ⟨target, chain, hpart, hpath⟩ := hpath
  exact ⟨target, chain, mem_subterms_of_child hchild hpart, hpath⟩

/-- A search looks at the type itself and then into its immediate parts. -/
theorem containsMatching_eq (property : Ty → Bool) (type : Ty) :
    type.containsMatching property =
      (property type || type.children.any fun child => child.containsMatching property) := by
  rw [containsMatching, subterms_eq, List.any_cons, List.any_flatMap]
  rfl

/-- Of a type that is no reference itself, the first reference is the first one in its parts. -/
theorem firstReference?_of_isReference_eq_false {type : Ty} (htype : type.isReference = false) :
    type.firstReference? = type.children.findSome? firstReference? := by
  rw [firstReference?, subterms_eq, List.findSome?_cons, findSome?_flatMap]
  cases type with
  | reference target chain => cases htype
  | unknown | literal _ | object _ | array _ | function _ _ | union _ => rfl

/-- A type is final if it is no reference and its immediate parts are final. -/
theorem final_iff (type : Ty) :
    type.Final ↔ type.isReference = false ∧ ∀ child ∈ type.children, child.Final := by
  rw [Final, containsReference, containsMatching_eq, Bool.or_eq_false_iff, List.any_eq_false]
  simp only [Bool.not_eq_true]
  rfl

/-- No reference is found in a type if and only if the type is final. -/
theorem firstReference?_eq_none_iff {type : Ty} : type.firstReference? = none ↔ type.Final := by
  rw [firstReference?, List.findSome?_eq_none_iff, Final, containsReference, containsMatching,
    List.any_eq_false]
  refine forall₂_congr fun part _ => ?_
  cases part <;> simp [isReference]

/-- A type without references has a canonical text, the one that is displayed. -/
theorem Final.render_eq {type : Ty} (hfinal : type.Final) : type.render = .ok type.display := by
  rw [render, firstReference?_eq_none_iff.mpr hfinal]

/-- Literals and objects stay as they are in a walk. -/
def IsLeaf : Ty → Prop
  | .literal _ | .object _ => True
  | _ => False

/-! ### Properties handed on to the types that a walk builds -/

/-- A property of types that the types built by a walk have if the types they are built of have it. -/
structure Inherited (good : Ty → Prop) : Prop where
  unknown : good .unknown
  callResult : ∀ type, good type → good type.callResult
  array : ∀ entries : List (Key × Ty), (∀ entry ∈ entries, good entry.2) → good (.array entries)
  function : ∀ (params : List (String × Ty)) (result : Ty), (∀ param ∈ params, good param.2) →
    good result → good (.function params result)
  union : ∀ members type, canonicalizeUnion members = .ok type → (∀ member ∈ members, good member) →
    good type

/-- The same where what is unknown has the property on a condition: something was lost that excuses it. -/
structure InheritedIf (excused : Prop) (good : Ty → Prop) : Prop where
  unknown : excused → good .unknown
  callResult : ∀ type, good type → good type.callResult
  array : ∀ entries : List (Key × Ty), (∀ entry ∈ entries, good entry.2) → good (.array entries)
  function : ∀ (params : List (String × Ty)) (result : Ty), (∀ param ∈ params, good param.2) →
    good result → good (.function params result)
  union : ∀ members type, canonicalizeUnion members = .ok type → (∀ member ∈ members, good member) →
    good type

theorem Inherited.inheritedIf {good : Ty → Prop} (hgood : Inherited good) : InheritedIf True good :=
  ⟨fun _ => hgood.unknown, hgood.callResult, hgood.array, hgood.function, hgood.union⟩

/-- What a walk takes from a type itself is in order: the paths that the type mentions are allowed, and
its leaves are good. -/
structure Covered (allowed : Path → Prop) (good : Ty → Prop) (type : Ty) : Prop where
  paths : ∀ path, type.Mentions path → allowed path
  leaves : ∀ part ∈ type.subterms, part.IsLeaf → good part

/-- What a walk takes from a type itself is in order, and if something in the type is unknown, or a method
is called on whatever a chain has come to, this is excused. -/
structure CoveredIf (excused : Prop) (allowed : Path → Prop) (good : Ty → Prop) (type : Ty) : Prop
    extends Covered allowed good type where
  unknowns : .unknown ∈ type.subterms → excused
  calls : ∀ target chain method, .reference target chain ∈ type.subterms →
    .memberCall method ∈ chain → excused

theorem Covered.coveredIf {allowed : Path → Prop} {good : Ty → Prop} {type : Ty}
    (htype : type.Covered allowed good) : type.CoveredIf True allowed good :=
  ⟨htype, fun _ => trivial, fun _ _ _ _ _ => trivial⟩

theorem CoveredIf.child {excused : Prop} {allowed : Path → Prop} {good : Ty → Prop} {type child : Ty}
    (htype : type.CoveredIf excused allowed good) (hchild : child ∈ type.children) :
    child.CoveredIf excused allowed good where
  paths path hpath := htype.paths path (hpath.of_child hchild)
  leaves part hpart := htype.leaves part (mem_subterms_of_child hchild hpart)
  unknowns hpart := htype.unknowns (mem_subterms_of_child hchild hpart)
  calls target chain method hpart := htype.calls target chain method (mem_subterms_of_child hchild hpart)

end Ty

namespace Inquiry

variable {α β : Type} {allowed : Path → Prop} {good : Ty → Prop} {middle : α → Prop} {post : β → Prop}

/-- The inquiry asks for allowed paths only, and as long as the replies are good its answer meets a
condition. -/
def Meets (allowed : Path → Prop) (good : Ty → Prop) (post : α → Prop) : Inquiry α → Prop
  | .answer value => post value
  | .refuse _ => True
  | .ask path rest =>
      allowed path ∧ ∀ reply, (∀ type, reply = some type → good type) →
        (rest reply).Meets allowed good post

theorem Meets.bind {inquiry : Inquiry α} {next : α → Inquiry β}
    (hfirst : inquiry.Meets allowed good middle)
    (hnext : ∀ value, middle value → (next value).Meets allowed good post) :
    (inquiry.bind next).Meets allowed good post := by
  induction inquiry with
  | answer value => exact hnext value hfirst
  | refuse error => trivial
  | ask path rest ih =>
      exact ⟨hfirst.1, fun reply hreply => ih reply (hfirst.2 reply hreply)⟩

/-- The inquiry asks for allowed paths only, and as long as the replies are good its answer meets a
condition; a reply that nobody declared the path has to be excused. -/
def MeetsIf (excused : Prop) (allowed : Path → Prop) (good : Ty → Prop) (post : α → Prop) : Inquiry α → Prop
  | .answer value => post value
  | .refuse _ => True
  | .ask path rest =>
      allowed path ∧ (excused → (rest none).MeetsIf excused allowed good post) ∧
        ∀ type, good type → (rest (some type)).MeetsIf excused allowed good post

theorem MeetsIf.meets {inquiry : Inquiry α} (h : inquiry.MeetsIf True allowed good middle) :
    inquiry.Meets allowed good middle := by
  induction inquiry with
  | answer value => exact h
  | refuse error => trivial
  | ask path rest ih =>
      refine ⟨h.1, fun reply hreply => ?_⟩
      cases reply with
      | none => exact ih none (h.2.1 trivial)
      | some type => exact ih (some type) (h.2.2 type (hreply type rfl))

variable {excused : Prop}

theorem MeetsIf.bind {inquiry : Inquiry α} {next : α → Inquiry β}
    (hfirst : inquiry.MeetsIf excused allowed good middle)
    (hnext : ∀ value, middle value → (next value).MeetsIf excused allowed good post) :
    (inquiry.bind next).MeetsIf excused allowed good post := by
  induction inquiry with
  | answer value => exact hnext value hfirst
  | refuse error => trivial
  | ask path rest ih =>
      exact ⟨hfirst.1, fun hexcused => ih none (hfirst.2.1 hexcused),
        fun type htype => ih (some type) (hfirst.2.2 type htype)⟩

theorem meetsIf_ofUnion (hgood : Ty.InheritedIf excused good) (members : List Ty)
    (hmembers : ∀ member ∈ members, good member) : (ofUnion members).MeetsIf excused allowed good good := by
  rw [ofUnion]
  cases hunion : Ty.canonicalizeUnion members with
  | ok type => exact hgood.union members type hunion hmembers
  | error error => trivial

theorem meetsIf_ofChain (hgood : Ty.InheritedIf excused good) (chain : List ChainOp) (type : Ty)
    (htype : good type)
    (hallowed : ∀ owner method, .memberCall method ∈ chain → allowed (.method owner method))
    (hcalls : ∀ method, .memberCall method ∈ chain → excused) :
    (ofChain chain type).MeetsIf excused allowed good good := by
  induction chain generalizing type with
  | nil => exact htype
  | cons op rest ih =>
      have hrest : ∀ type, good type → (ofChain rest type).MeetsIf excused allowed good good :=
        fun type htype => ih type htype
          (fun owner method hmem => hallowed owner method (List.mem_cons_of_mem _ hmem))
          fun method hmem => hcalls method (List.mem_cons_of_mem _ hmem)
      cases op with
      | callResult => exact hrest _ (hgood.callResult type htype)
      | memberCall method =>
          have hunknown : good .unknown := hgood.unknown (hcalls method List.mem_cons_self)
          cases type with
          | object owner =>
              exact ⟨hallowed owner method List.mem_cons_self, fun _ => hunknown,
                fun found hfound => hrest _ (hgood.callResult found hfound)⟩
          | unknown | literal _ | array _ | function _ _ | union _ | reference _ _ => exact hunknown

theorem meetsIf_reference (hgood : Ty.InheritedIf excused good) (target : Path) (chain : List ChainOp)
    (hcovered : (Ty.reference target chain).CoveredIf excused allowed good) :
    (ofTy (.reference target chain)).MeetsIf excused allowed good good := by
  have hself := Ty.mem_subterms_self (.reference target chain)
  refine ⟨hcovered.paths target ⟨target, chain, hself, Or.inl rfl⟩, hgood.unknown, ?_⟩
  intro found hfound
  refine meetsIf_ofChain hgood chain found hfound (fun owner method hmem => ?_) fun method =>
    hcovered.calls target chain method hself
  exact hcovered.paths _ ⟨target, chain, hself, Or.inr ⟨owner, method, hmem, rfl⟩⟩

mutual

/-- A walk through a type that is covered asks for allowed paths only, and makes a good type from good
replies. -/
theorem meetsIf_ofTy (hgood : Ty.InheritedIf excused good) : (type : Ty) → type.CoveredIf excused allowed good →
    (ofTy type).MeetsIf excused allowed good good
  | .unknown, hcovered => hgood.unknown (hcovered.unknowns (Ty.mem_subterms_self _))
  | .literal _, hcovered => hcovered.leaves _ (Ty.mem_subterms_self _) trivial
  | .object _, hcovered => hcovered.leaves _ (Ty.mem_subterms_self _) trivial
  | .array entries, hcovered => by
      rw [ofTy]
      exact (meetsIf_ofEntries hgood entries fun entry hentry =>
        hcovered.child (List.mem_map_of_mem hentry)).bind hgood.array
  | .function params result, hcovered => by
      rw [ofTy]
      refine (meetsIf_ofParams hgood params fun param hparam =>
        hcovered.child (List.mem_append_left _ (List.mem_map_of_mem hparam))).bind
          fun resolved hresolved => ?_
      exact (meetsIf_ofTy hgood result (hcovered.child (List.mem_append_right _ List.mem_cons_self))).bind
        fun found hfound => hgood.function resolved found hresolved hfound
  | .union members, hcovered => by
      rw [ofTy]
      exact (meetsIf_ofMembers hgood members fun member hmember => hcovered.child hmember).bind
        (meetsIf_ofUnion hgood)
  | .reference target chain, hcovered => meetsIf_reference hgood target chain hcovered

theorem meetsIf_ofEntries (hgood : Ty.InheritedIf excused good) : (entries : List (Key × Ty)) →
    (∀ entry ∈ entries, entry.2.CoveredIf excused allowed good) →
    (ofEntries entries).MeetsIf excused allowed good fun resolved => ∀ entry ∈ resolved, good entry.2
  | [], _ => by simp [ofEntries, MeetsIf]
  | (key, type) :: rest, hcovered => by
      rw [ofEntries]
      refine (meetsIf_ofTy hgood type (hcovered _ List.mem_cons_self)).bind fun found hfound =>
        (meetsIf_ofEntries hgood rest fun entry hentry => hcovered entry (List.mem_cons_of_mem _ hentry)).bind
          fun resolved hresolved => ?_
      exact List.forall_mem_cons.mpr ⟨hfound, hresolved⟩

theorem meetsIf_ofParams (hgood : Ty.InheritedIf excused good) : (params : List (String × Ty)) →
    (∀ param ∈ params, param.2.CoveredIf excused allowed good) →
    (ofParams params).MeetsIf excused allowed good fun resolved => ∀ param ∈ resolved, good param.2
  | [], _ => by simp [ofParams, MeetsIf]
  | (name, type) :: rest, hcovered => by
      rw [ofParams]
      refine (meetsIf_ofTy hgood type (hcovered _ List.mem_cons_self)).bind fun found hfound =>
        (meetsIf_ofParams hgood rest fun param hparam => hcovered param (List.mem_cons_of_mem _ hparam)).bind
          fun resolved hresolved => ?_
      exact List.forall_mem_cons.mpr ⟨hfound, hresolved⟩

theorem meetsIf_ofMembers (hgood : Ty.InheritedIf excused good) : (members : List Ty) →
    (∀ member ∈ members, member.CoveredIf excused allowed good) →
    (ofMembers members).MeetsIf excused allowed good fun resolved => ∀ member ∈ resolved, good member
  | [], _ => by simp [ofMembers, MeetsIf]
  | type :: rest, hcovered => by
      rw [ofMembers]
      refine (meetsIf_ofTy hgood type (hcovered _ List.mem_cons_self)).bind fun found hfound =>
        (meetsIf_ofMembers hgood rest fun member hmember =>
          hcovered member (List.mem_cons_of_mem _ hmember)).bind fun resolved hresolved => ?_
      exact List.forall_mem_cons.mpr ⟨hfound, hresolved⟩

end

section

variable (hgood : Ty.Inherited good)

include hgood

theorem meets_ofTy (type : Ty) (hcovered : type.Covered allowed good) :
    (ofTy type).Meets allowed good good :=
  (meetsIf_ofTy hgood.inheritedIf type hcovered.coveredIf).meets

theorem meets_ofMembers (members : List Ty) (hcovered : ∀ member ∈ members, member.Covered allowed good) :
    (ofMembers members).Meets allowed good fun resolved => ∀ member ∈ resolved, good member :=
  (meetsIf_ofMembers hgood.inheritedIf members fun member hmember =>
    (hcovered member hmember).coveredIf).meets

end

end Inquiry

/-! ### Answers are final -/

namespace Ty

namespace UnionMembers

/-- All members collected so far. -/
def All (good : Ty → Prop) (members : UnionMembers) : Prop :=
  ∀ member ∈ members.unknowns ++ members.others, good member

variable {good : Ty → Prop}

theorem All.add {members : UnionMembers} {type : Ty} (hmembers : members.All good) (htype : good type) :
    (members.add type).All good := by
  have hgrown : ∀ member, member ∈ members.unknowns ++ members.others ∨ member = type → good member := by
    rintro member (hmember | rfl)
    · exact hmembers member hmember
    · exact htype
  unfold UnionMembers.add
  split
  · intro member hmember
    apply hgrown
    simp only [List.mem_append, List.mem_singleton] at hmember ⊢
    tauto
  · split
    · exact hmembers
    · intro member hmember
      apply hgrown
      simp only [List.mem_append, List.mem_singleton] at hmember ⊢
      tauto

mutual

theorem All.push (hunion : ∀ members, good (.union members) → ∀ member ∈ members, good member) :
    (type : Ty) → (members : UnionMembers) → members.All good → good type →
    (members.push type).All good
  | .union inner, members, hmembers, htype => by
      rw [UnionMembers.push]
      exact All.pushAll hunion inner members hmembers (hunion inner htype)
  | .unknown, _, hmembers, htype => hmembers.add htype
  | .literal _, _, hmembers, htype => hmembers.add htype
  | .object _, _, hmembers, htype => hmembers.add htype
  | .array _, _, hmembers, htype => hmembers.add htype
  | .function _ _, _, hmembers, htype => hmembers.add htype
  | .reference _ _, _, hmembers, htype => hmembers.add htype

theorem All.pushAll (hunion : ∀ members, good (.union members) → ∀ member ∈ members, good member) :
    (types : List Ty) → (members : UnionMembers) → members.All good →
    (∀ type ∈ types, good type) → (members.pushAll types).All good
  | [], _, hmembers, _ => hmembers
  | type :: rest, members, hmembers, htypes => by
      rw [UnionMembers.pushAll]
      exact All.pushAll hunion rest _ (All.push hunion type members hmembers (htypes type List.mem_cons_self))
        fun type htype => htypes type (List.mem_cons_of_mem _ htype)

end

end UnionMembers

/-- A property of unions that is one of their members goes over to canonical unions. -/
theorem good_canonicalizeUnion {good : Ty → Prop} {members : List Ty} {type : Ty}
    (hparts : ∀ members, good (.union members) → ∀ member ∈ members, good member)
    (hwhole : ∀ members, members ≠ [] → (∀ member ∈ members, good member) → good (.union members))
    (hmembers : ∀ member ∈ members, good member) (htype : canonicalizeUnion members = .ok type) :
    good type := by
  have hall : (UnionMembers.pushAll ⟨[], []⟩ members).All good :=
    UnionMembers.All.pushAll hparts members ⟨[], []⟩ (fun member hmember => by cases hmember) hmembers
  unfold canonicalizeUnion at htype
  dsimp only at htype
  unfold UnionMembers.All at hall
  split at htype
  · cases htype
  · rename_i hsingle
    cases htype
    rw [hsingle] at hall
    exact hall _ List.mem_cons_self
  · rename_i hempty _
    cases htype
    exact hwhole _ hempty hall

/-- A property that is one of a type by itself together with all parts of the type is handed on if it is
handed on to canonical unions. -/
theorem inheritedIf_of_parts {excused : Prop} {good own : Ty → Prop}
    (hgood : ∀ type, good type ↔ own type ∧ ∀ child ∈ type.children, good child)
    (hunknown : excused → own .unknown) (harray : ∀ entries, own (.array entries))
    (hfunction : ∀ params result, own (.function params result))
    (hunion : ∀ members type, canonicalizeUnion members = .ok type → (∀ member ∈ members, good member) →
      good type) : InheritedIf excused good where
  unknown hexcused := (hgood _).mpr ⟨hunknown hexcused, fun _ hchild => by cases hchild⟩
  callResult type htype := by
    cases type with
    | function params result =>
        exact ((hgood _).mp htype).2 result (List.mem_append_right _ List.mem_cons_self)
    | unknown | literal _ | object _ | array _ | union _ | reference _ _ => exact htype
  array entries hentries := (hgood _).mpr ⟨harray entries, fun child hchild => by
    obtain ⟨entry, hentry, rfl⟩ := List.mem_map.mp hchild
    exact hentries entry hentry⟩
  function params result hparams hresult := (hgood _).mpr ⟨hfunction params result, fun child hchild => by
    rcases List.mem_append.mp hchild with hchild | hchild
    · obtain ⟨param, hparam, rfl⟩ := List.mem_map.mp hchild
      exact hparams param hparam
    · rw [List.mem_singleton.mp hchild]
      exact hresult⟩
  union := hunion

/-- A property is inherited if it is one of all parts of a type and the types that a walk may make have it.
-/
theorem inherited_of_parts {good own : Ty → Prop}
    (hgood : ∀ type, good type ↔ own type ∧ ∀ child ∈ type.children, good child)
    (hunknown : own .unknown) (harray : ∀ entries, own (.array entries))
    (hfunction : ∀ params result, own (.function params result))
    (hunion : ∀ members type, canonicalizeUnion members = .ok type → (∀ member ∈ members, good member) →
      good type) : Inherited good :=
  have h : InheritedIf True good :=
    inheritedIf_of_parts hgood (fun _ => hunknown) harray hfunction hunion
  ⟨h.unknown trivial, h.callResult, h.array, h.function, h.union⟩

/-- A property is handed on if it is one of a type by itself together with all parts of the type. -/
theorem inherited_of_children {good own : Ty → Prop}
    (hgood : ∀ type, good type ↔ own type ∧ ∀ child ∈ type.children, good child)
    (hunknown : own .unknown) (harray : ∀ entries, own (.array entries))
    (hfunction : ∀ params result, own (.function params result))
    (hunion : ∀ members, members ≠ [] → own (.union members)) : Inherited good :=
  inherited_of_parts hgood hunknown harray hfunction fun _ _ htype hmembers =>
    good_canonicalizeUnion (fun _ h => ((hgood _).mp h).2)
      (fun members hne h => (hgood _).mpr ⟨hunion members hne, h⟩) hmembers htype

theorem inherited_final : Inherited Final :=
  inherited_of_children final_iff rfl (fun _ => rfl) (fun _ _ => rfl) fun _ _ => rfl

end Ty

/-- The task hands out final types if the replies to its questions are final. -/
def Task.HandsOutFinal : Task → Prop
  | .symbol _ => True
  | .inquiry questions => questions.Meets (fun _ => True) Ty.Final Ty.Final

theorem Task.HandsOutFinal.ofTy (type : Ty) : (Task.inquiry (.ofTy type)).HandsOutFinal := by
  refine Inquiry.meets_ofTy Ty.inherited_final type ⟨fun _ _ => trivial, fun part _ hleaf => ?_⟩
  cases part with
  | literal _ | object _ => rfl
  | unknown | array _ | function _ _ | union _ | reference _ _ => exact hleaf.elim

/-- The type that a run hands out has no references. -/
theorem Task.Runs.final {task : Task} {pass after : Pass} {result : Except Halt Ty}
    {events : List Event} {type : Ty} (run : task.Runs pass result events after)
    (htask : task.HandsOutFinal) (hresult : result = .ok type) : type.Final := by
  induction run generalizing type with
  | cut =>
      cases hresult
      rfl
  | unallocated | exhausted | refuse | halted => cases hresult
  | recalled _ _ hfinal =>
      cases hresult
      exact hfinal
  | walked _ _ _ ih => exact ih (.ofTy _) hresult
  | answer =>
      cases hresult
      exact htask
  | missing _ _ ih => exact ih (htask.2 none fun _ h => by cases h) hresult
  | found _ _ _ ihsymbol ihrest =>
      refine ihrest (htask.2 _ fun found hfound => ?_) hresult
      cases hfound
      exact ihsymbol trivial rfl

namespace Task.HandsOutFinal

variable {path : Path} {rest : Option Ty → Inquiry Ty}

theorem of_missing (htask : (Task.inquiry (.ask path rest)).HandsOutFinal) :
    (Task.inquiry (rest none)).HandsOutFinal :=
  htask.2 none fun _ h => by cases h

theorem of_found {pass after : Pass} {id : SymbolId} {type : Ty} {events : List Event}
    (htask : (Task.inquiry (.ask path rest)).HandsOutFinal)
    (hsymbol : (Task.symbol id).Runs pass (.ok type) events after) :
    (Task.inquiry (rest (some type))).HandsOutFinal := by
  refine htask.2 _ fun found hfound => ?_
  cases hfound
  exact hsymbol.final trivial rfl

end Task.HandsOutFinal

end DeferredTypes
