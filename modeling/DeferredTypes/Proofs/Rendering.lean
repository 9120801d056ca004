import DeferredTypes.Proofs.Answers

/-! When a type has a canonical text. It has none exactly if a reference is left in it, at whatever depth,
also in a parameter, though parameters are never shown. The error names the target of the reference that
comes first from the outside in and from left to right, and what was written before stays as it was. -/

namespace DeferredTypes.Ty

/-! ### Positions in a type -/

/-- The type at a position of another one: which immediate part is taken, level by level. -/
def at? : Ty → List Nat → Option Ty
  | type, [] => some type
  | type, index :: rest => type.children[index]? >>= fun child => child.at? rest

/-- A position comes before another one if it is further out, or further left where the two part. -/
def Before (earlier position : List Nat) : Prop := List.Lex (· < ·) earlier position

/-- The reference that comes first in the type has this target. -/
def FirstTarget (type : Ty) (target : Path) : Prop :=
  ∃ position chain, type.at? position = some (.reference target chain) ∧
    ∀ earlier part, Before earlier position → type.at? earlier = some part → part.isReference = false

variable {type : Ty}

theorem at?_cons {index : Nat} {rest : List Nat} {part : Ty} :
    type.at? (index :: rest) = some part ↔
      ∃ child, type.children[index]? = some child ∧ child.at? rest = some part :=
  Option.bind_eq_some_iff

theorem mem_subterms_of_at? {position : List Nat} {part : Ty} (hpart : type.at? position = some part) :
    part ∈ type.subterms := by
  induction position generalizing type with
  | nil =>
      cases hpart
      exact mem_subterms_self _
  | cons index rest ih =>
      obtain ⟨child, hchild, hpart⟩ := at?_cons.mp hpart
      exact mem_subterms_of_child (List.mem_of_getElem? hchild) (ih hpart)

theorem Final.isReference_at? (hfinal : type.Final) {position : List Nat} {part : Ty}
    (hpart : type.at? position = some part) : part.isReference = false :=
  Bool.eq_false_iff.mpr (List.any_eq_false.mp hfinal part (mem_subterms_of_at? hpart))

/-! ### The first reference -/

/-- The search for a reference finds the one at the first position. -/
theorem firstTarget_of_firstReference? {target : Path} {chain : List ChainOp}
    (hfirst : type.firstReference? = some (target, chain)) : type.FirstTarget target := by
  induction type using children_induction with
  | step type ih =>
      cases htype : type.isReference with
      | true =>
          cases type with
          | reference target' chain' =>
              cases hfirst
              exact ⟨[], chain, rfl, fun earlier part hearlier => absurd hearlier List.not_lex_nil⟩
          | _ => cases htype
      | false =>
          rw [firstReference?_of_isReference_eq_false htype] at hfirst
          obtain ⟨left, child, right, hchildren, hchild, hleft⟩ := List.findSome?_eq_some_iff.mp hfirst
          have hmem : child ∈ type.children := by
            rw [hchildren]
            exact List.mem_append_right _ List.mem_cons_self
          have hindex : type.children[left.length]? = some child := by
            rw [hchildren, List.getElem?_append_right (Nat.le_refl _), Nat.sub_self]
            rfl
          obtain ⟨position, chain', hposition, hbefore⟩ := ih child hmem hchild
          refine ⟨left.length :: position, chain', at?_cons.mpr ⟨child, hindex, hposition⟩, ?_⟩
          intro earlier part hearlier hpart
          -- An earlier position is further out, in a part further to the left, or in the same part.
          cases hearlier with
          | nil =>
              cases hpart
              exact htype
          | rel hlt =>
              obtain ⟨sibling, hsibling, hpart⟩ := at?_cons.mp hpart
              rw [hchildren, List.getElem?_append_left hlt] at hsibling
              have hfinal := firstReference?_eq_none_iff.mp (hleft sibling (List.mem_of_getElem? hsibling))
              exact hfinal.isReference_at? hpart
          | cons hearlier =>
              obtain ⟨sibling, hsibling, hpart⟩ := at?_cons.mp hpart
              obtain rfl := Option.some.inj (hindex.symm.trans hsibling)
              exact hbefore _ part hearlier hpart

theorem final_iff_at? :
    type.Final ↔ ∀ position part, type.at? position = some part → part.isReference = false := by
  constructor
  · exact fun hfinal position part hpart => hfinal.isReference_at? hpart
  · intro hpositions
    rcases hfirst : type.firstReference? with _ | ⟨target, chain⟩
    · exact firstReference?_eq_none_iff.mp hfirst
    · obtain ⟨position, chain', hposition, -⟩ := firstTarget_of_firstReference? hfirst
      cases hpositions position _ hposition

/-! ### What is shown -/

mutual

/-- The type without the parameters of its signatures. -/
def withoutParams : Ty → Ty
  | .unknown => .unknown
  | .literal value => .literal value
  | .object owner => .object owner
  | .array entries => .array (entriesWithoutParams entries)
  | .function _ result => .function [] (withoutParams result)
  | .union members => .union (membersWithoutParams members)
  | .reference target chain => .reference target chain

def entriesWithoutParams : List (Key × Ty) → List (Key × Ty)
  | [] => []
  | (key, type) :: rest => (key, withoutParams type) :: entriesWithoutParams rest

def membersWithoutParams : List Ty → List Ty
  | [] => []
  | type :: rest => withoutParams type :: membersWithoutParams rest

end

mutual

/-- The parameters of signatures are not displayed. -/
theorem display_withoutParams : (type : Ty) → type.withoutParams.display = type.display
  | .unknown | .literal _ | .object _ | .reference _ _ => rfl
  | .array entries => by rw [withoutParams, display, display, displayEntries_withoutParams entries]
  | .function _ result => by rw [withoutParams, display, display, display_withoutParams result]
  | .union members => by rw [withoutParams, display, display, displayMembers_withoutParams members]

theorem displayEntries_withoutParams :
    (entries : List (Key × Ty)) → displayEntries (entriesWithoutParams entries) = displayEntries entries
  | [] => rfl
  | (key, type) :: rest => by
      have htype := display_withoutParams type
      have hrest := displayEntries_withoutParams rest
      cases rest with
      | nil => exact congrArg (key.display ++ ": " ++ ·) htype
      | cons next more =>
          calc displayEntries (entriesWithoutParams ((key, type) :: next :: more))
              = key.display ++ ": " ++ type.withoutParams.display ++ ", " ++
                  displayEntries (entriesWithoutParams (next :: more)) := rfl
            _ = key.display ++ ": " ++ type.display ++ ", " ++ displayEntries (next :: more) := by
                rw [htype, hrest]

theorem displayMembers_withoutParams :
    (members : List Ty) → displayMembers (membersWithoutParams members) = displayMembers members
  | [] => rfl
  | type :: rest => by
      have htype := display_withoutParams type
      have hrest := displayMembers_withoutParams rest
      cases rest with
      | nil => exact htype
      | cons next more =>
          calc displayMembers (membersWithoutParams (type :: next :: more))
              = type.withoutParams.display ++ "|" ++ displayMembers (membersWithoutParams (next :: more)) := rfl
            _ = type.display ++ "|" ++ displayMembers (next :: more) := by rw [htype, hrest]

end

/-! ### Texts of types -/

/-- A type with references is not rendered; the error names the target of the first of them. -/
theorem render_of_containsReference (htype : type.containsReference = true) :
    ∃ target, type.FirstTarget target ∧ type.render = .error (.unresolvedReference target) := by
  rcases hfirst : type.firstReference? with _ | ⟨target, chain⟩
  · have hfinal := firstReference?_eq_none_iff.mp hfirst
    rw [Final, htype] at hfinal
    cases hfinal
  · exact ⟨target, firstTarget_of_firstReference? hfirst, by rw [render, hfirst]⟩

theorem exists_render_iff : (∃ text, type.render = .ok text) ↔ type.containsReference = false := by
  cases htype : type.containsReference with
  | false => exact ⟨fun _ => rfl, fun _ => ⟨type.display, Final.render_eq htype⟩⟩
  | true =>
      obtain ⟨target, -, hrender⟩ := render_of_containsReference htype
      rw [hrender]
      constructor
      · rintro ⟨text, ⟨⟩⟩
      · rintro ⟨⟩

theorem renderInto_of_ok {text : String} (hrender : type.render = .ok text) (buffer : String) :
    renderInto buffer type = (buffer ++ text, none) := by
  rw [renderInto, hrender]

/-- A type that is not rendered leaves the text as it was. -/
theorem renderInto_of_error {error : PreconditionError} (hrender : type.render = .error error)
    (buffer : String) : renderInto buffer type = (buffer, some error) := by
  rw [renderInto, hrender]

theorem renderInto_snd_eq_none_iff (buffer : String) :
    (renderInto buffer type).2 = none ↔ ∃ text, type.render = .ok text := by
  cases hrender : type.render with
  | ok text => simp [renderInto_of_ok hrender]
  | error error => simp [renderInto_of_error hrender]

/-- Texts are added for the types that have one; the other types leave no trace. -/
theorem foldl_renderInto (types : List Ty) (buffer : String) :
    types.foldl (fun buffer type => (renderInto buffer type).1) buffer =
      buffer ++ String.join ((types.filter fun type => !type.containsReference).map display) := by
  induction types generalizing buffer with
  | nil => simp
  | cons type rest ih =>
      rw [List.foldl_cons, ih]
      cases htype : type.containsReference with
      | false =>
          have hrender := Final.render_eq htype
          simp [renderInto_of_ok hrender, htype, String.join_cons, String.append_assoc]
      | true =>
          obtain ⟨target, -, hrender⟩ := render_of_containsReference htype
          simp [renderInto_of_error hrender, htype]

/-- **A type is written as a whole or not at all.** It has a canonical text exactly if no reference is left in
it at any position, parameters included. Then the text is the one that is displayed, and it is added to what
was written before. Otherwise the error names the target of the first reference, and what was written before
stays as it was. What is displayed shows no parameter. Of several types just those without references leave
their texts, in order. -/
theorem render_atomic (type : Ty) (buffer : String) (types : List Ty) :
    ((∃ text, type.render = .ok text) ↔ type.containsReference = false) ∧
    ((renderInto buffer type).2 = none ↔ type.containsReference = false) ∧
    (type.containsReference = false ↔
      ∀ position part, type.at? position = some part → part.isReference = false) ∧
    (type.containsReference = false →
      type.render = .ok type.display ∧ renderInto buffer type = (buffer ++ type.display, none)) ∧
    (type.containsReference = true → ∃ target, type.FirstTarget target ∧
      type.render = .error (.unresolvedReference target) ∧
      renderInto buffer type = (buffer, some (.unresolvedReference target))) ∧
    type.withoutParams.display = type.display ∧
    types.foldl (fun buffer type => (renderInto buffer type).1) buffer =
      buffer ++ String.join ((types.filter fun type => !type.containsReference).map display) := by
  refine ⟨exists_render_iff, (renderInto_snd_eq_none_iff buffer).trans exists_render_iff, final_iff_at?,
    fun hfinal => ?_, fun htype => ?_, display_withoutParams type, foldl_renderInto types buffer⟩
  · have hrender := Final.render_eq hfinal
    exact ⟨hrender, renderInto_of_ok hrender buffer⟩
  · obtain ⟨target, hfirst, hrender⟩ := render_of_containsReference htype
    exact ⟨target, hfirst, hrender, renderInto_of_error hrender buffer⟩

/-- A parameter holds a reference and so does the result. Only the second one is displayed, and the error
names the first. -/
theorem render_atomic_hidden :
    ∃ type : Ty,
      type = .function [("p", .array [(.string "k", .call (.function "f"))])] (.call (.function "g")) ∧
      type.display = "(): ref(g)()" ∧ type.containsReference = true ∧
      type.render = .error (.unresolvedReference (.function "f")) ∧
      ∃ target, type.FirstTarget target ∧ type.render = .error (.unresolvedReference target) ∧
        renderInto "kept" type = ("kept", some (.unresolvedReference target)) := by
  refine ⟨_, rfl, by decide, by decide, rfl, ?_⟩
  exact (render_atomic _ "kept" []).2.2.2.2.1 (by decide)

end DeferredTypes.Ty
