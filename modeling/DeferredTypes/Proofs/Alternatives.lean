import Mathlib.Data.List.Induction
import Mathlib.Data.List.Perm.Basic
import DeferredTypes.Proofs.CanonicalForm

/-! The canonical form of a union in stages: all nested unions are laid open, what is unknown is put in
front, and of the others those are left out that repeat one before them. Collecting the members in one
pass comes to the same. So alternatives may be merged in groups, and groups of groups, before all of them
are, and their order decides nothing but the order of the members. -/

namespace DeferredTypes.Ty

/-! ### The stages -/

mutual

/-- The alternatives that a type stands for: those of its members if it is a union, else the type. -/
def alternatives : Ty → List Ty
  | .union members => alternativesOf members
  | .unknown => [.unknown]
  | .literal value => [.literal value]
  | .object owner => [.object owner]
  | .array entries => [.array entries]
  | .function params result => [.function params result]
  | .reference target chain => [.reference target chain]

def alternativesOf : List Ty → List Ty
  | [] => []
  | type :: rest => alternatives type ++ alternativesOf rest

end

/-- The type equals one of those before it, and nothing in it is unknown. -/
def Repeats (type : Ty) (earlier : List Ty) : Prop := type ∈ earlier ∧ type.containsUnknown = false

instance (type : Ty) (earlier : List Ty) : Decidable (type.Repeats earlier) :=
  inferInstanceAs (Decidable (_ ∧ _))

/-- The types of a list that repeat none of those before them. -/
def withoutRepeats (types : List Ty) : List Ty :=
  (types.zipIdx.filter fun entry => ¬entry.1.Repeats (types.take entry.2)).map Prod.fst

/-- All that is unknown, then the others without repetitions. -/
def condensed (types : List Ty) : List Ty :=
  types.filter isUnknown ++ (withoutRepeats types).filter fun type => !type.isUnknown

/-- One type for some members: a single member for itself, several as a union. -/
def Joins (members : List Ty) (type : Ty) : Prop :=
  members = [type] ∨ 2 ≤ members.length ∧ type = .union members

/-! ### Laying open -/

theorem alternatives_of_flat {type : Ty} (hflat : type.isUnion = false) : type.alternatives = [type] := by
  cases type with
  | union _ => cases hflat
  | unknown | literal _ | object _ | array _ | function _ _ | reference _ _ => rfl

theorem alternativesOf_eq_flatMap (types : List Ty) : alternativesOf types = types.flatMap alternatives := by
  induction types with
  | nil => rfl
  | cons type rest ih => rw [alternativesOf, ih, List.flatMap_cons]

theorem alternativesOf_append (left right : List Ty) :
    alternativesOf (left ++ right) = alternativesOf left ++ alternativesOf right := by
  simp only [alternativesOf_eq_flatMap, List.flatMap_append]

theorem alternativesOf_singleton (type : Ty) : alternativesOf [type] = type.alternatives :=
  List.append_nil _

theorem alternativesOf_of_flat {types : List Ty} (hflat : ∀ type ∈ types, type.isUnion = false) :
    alternativesOf types = types := by
  induction types with
  | nil => rfl
  | cons type rest ih =>
      obtain ⟨htype, hrest⟩ := List.forall_mem_cons.mp hflat
      rw [alternativesOf, alternatives_of_flat htype, ih hrest]
      rfl

mutual

theorem flat_of_mem_alternatives : (type : Ty) → ∀ part ∈ type.alternatives, part.isUnion = false
  | .union members => flat_of_mem_alternativesOf members
  | .unknown => by simp [alternatives, isUnion]
  | .literal _ => by simp [alternatives, isUnion]
  | .object _ => by simp [alternatives, isUnion]
  | .array _ => by simp [alternatives, isUnion]
  | .function _ _ => by simp [alternatives, isUnion]
  | .reference _ _ => by simp [alternatives, isUnion]

theorem flat_of_mem_alternativesOf : (types : List Ty) →
    ∀ part ∈ alternativesOf types, part.isUnion = false
  | [] => List.forall_mem_nil _
  | type :: rest =>
      List.forall_mem_append.mpr ⟨flat_of_mem_alternatives type, flat_of_mem_alternativesOf rest⟩

end

/-! ### Leaving out repetitions -/

theorem any_dedupEq_iff (types : List Ty) (type : Ty) :
    (types.any fun seen => seen.dedupEq type) = true ↔ type.Repeats types := by
  simp only [List.any_eq_true, dedupEq, Bool.and_eq_true, Bool.not_eq_true', decide_eq_true_eq, Repeats]
  constructor
  · rintro ⟨seen, hmem, hknown, rfl⟩
    exact ⟨hmem, hknown⟩
  · rintro ⟨hmem, hknown⟩
    exact ⟨type, hmem, hknown, rfl⟩

theorem repeats_congr {left right : List Ty} (h : ∀ type, type ∈ left ↔ type ∈ right) (type : Ty) :
    type.Repeats left ↔ type.Repeats right :=
  and_congr_left' (h type)

/-- A type is kept unless it repeats one before it. -/
theorem withoutRepeats_append_singleton (types : List Ty) (type : Ty) :
    withoutRepeats (types ++ [type]) =
      withoutRepeats types ++ if type.Repeats types then [] else [type] := by
  -- Whether a type of the list is left out depends on those before it only.
  have hbefore : types.zipIdx.filter (fun entry => ¬entry.1.Repeats ((types ++ [type]).take entry.2)) =
      types.zipIdx.filter fun entry => ¬entry.1.Repeats (types.take entry.2) := by
    apply List.filter_congr
    intro entry hentry
    have hindex : entry.2 < types.length := (List.mem_zipIdx' hentry).1
    rw [List.take_append_of_le_length (Nat.le_of_lt hindex)]
  rw [withoutRepeats, List.zipIdx_append, List.filter_append, hbefore, List.map_append, ← withoutRepeats]
  by_cases hrepeats : type.Repeats types <;> simp [hrepeats]

theorem mem_withoutRepeats {types : List Ty} {type : Ty} : type ∈ withoutRepeats types ↔ type ∈ types := by
  induction types using List.reverseRecOn with
  | nil => rfl
  | append_singleton types last ih =>
      rw [withoutRepeats_append_singleton]
      by_cases hrepeats : last.Repeats types
      · -- The last one is left out, but an equal one stands before it.
        have hlast : type = last → type ∈ types := fun h => h ▸ hrepeats.1
        simpa [hrepeats, ih] using hlast
      · simp [hrepeats, ih]

/-- Counting what is left: nothing that is or holds something unknown is left out, and of each other type
one is kept. -/
theorem count_withoutRepeats (types : List Ty) (type : Ty) :
    (withoutRepeats types).count type =
      if type.containsUnknown then types.count type else if type ∈ types then 1 else 0 := by
  induction types using List.reverseRecOn with
  | nil => simp [withoutRepeats]
  | append_singleton types last ih =>
      rw [withoutRepeats_append_singleton, List.count_append, ih]
      by_cases hlast : last = type
      · subst hlast
        by_cases hmem : last ∈ types <;> cases hknown : last.containsUnknown <;>
          simp [Repeats, hmem, hknown]
      · have hother : (if last.Repeats types then [] else [last]).count type = 0 := by
          split <;> simp [hlast]
        simp [hother, hlast, Ne.symm hlast]

/-- Leaving out repetitions in two lists one after the other: what repeats a type of the first list goes
from the second. -/
theorem withoutRepeats_append (left right : List Ty) :
    withoutRepeats (left ++ right) =
      withoutRepeats left ++ (withoutRepeats right).filter fun type => ¬type.Repeats left := by
  induction right using List.reverseRecOn with
  | nil => simp [withoutRepeats]
  | append_singleton right last ih =>
      have hlast : last.Repeats (left ++ right) ↔ last.Repeats left ∨ last.Repeats right := by
        simp only [Repeats, List.mem_append, or_and_right]
      rw [← List.append_assoc, withoutRepeats_append_singleton, withoutRepeats_append_singleton, ih,
        List.filter_append, List.append_assoc]
      by_cases hleft : last.Repeats left <;> by_cases hright : last.Repeats right <;>
        simp [hlast, hleft, hright]

theorem withoutRepeats_withoutRepeats (types : List Ty) :
    withoutRepeats (withoutRepeats types) = withoutRepeats types := by
  induction types using List.reverseRecOn with
  | nil => rfl
  | append_singleton types last ih =>
      have hlast : last.Repeats (withoutRepeats types) ↔ last.Repeats types :=
        repeats_congr (fun _ => mem_withoutRepeats) last
      rw [withoutRepeats_append_singleton]
      by_cases hrepeats : last.Repeats types
      · simp [hrepeats, ih]
      · rw [if_neg hrepeats, withoutRepeats_append_singleton, if_neg (mt hlast.mp hrepeats), ih]

/-- Leaving out repetitions in a part of a list first changes nothing. -/
theorem withoutRepeats_middle (before group after : List Ty) :
    withoutRepeats (before ++ withoutRepeats group ++ after) = withoutRepeats (before ++ group ++ after) := by
  have hfront : withoutRepeats (before ++ withoutRepeats group) = withoutRepeats (before ++ group) := by
    rw [withoutRepeats_append, withoutRepeats_withoutRepeats, ← withoutRepeats_append]
  have hsame : ∀ type, type ∈ before ++ withoutRepeats group ↔ type ∈ before ++ group := by
    simp only [List.mem_append, mem_withoutRepeats, implies_true]
  rw [withoutRepeats_append, withoutRepeats_append (before ++ group), hfront]
  simp only [repeats_congr hsame]

theorem withoutRepeats_filter (keep : Ty → Bool) (types : List Ty) :
    withoutRepeats (types.filter keep) = (withoutRepeats types).filter keep := by
  induction types using List.reverseRecOn with
  | nil => rfl
  | append_singleton types last ih =>
      rw [List.filter_append, withoutRepeats_append_singleton, List.filter_append]
      cases hkeep : keep last with
      | true =>
          have hlast : last.Repeats (types.filter keep) ↔ last.Repeats types := by
            simp [Repeats, hkeep]
          rw [List.filter_singleton, hkeep, Bool.cond_true, withoutRepeats_append_singleton, ih]
          by_cases hrepeats : last.Repeats types <;> simp [hlast, hrepeats, hkeep]
      | false =>
          have hgone : (if last.Repeats types then [] else [last]).filter keep = [] := by
            split <;> simp [hkeep]
          rw [List.filter_singleton, hkeep, Bool.cond_false, List.append_nil, ih, hgone, List.append_nil]

/-! ### The members of a canonical union -/

theorem mem_condensed {types : List Ty} {type : Ty} : type ∈ condensed types ↔ type ∈ types := by
  simp only [condensed, List.mem_append, List.mem_filter, mem_withoutRepeats, ← and_or_left]
  cases type.isUnknown <;> simp

theorem condensed_eq_nil_iff {types : List Ty} : condensed types = [] ↔ types = [] := by
  simp only [List.eq_nil_iff_forall_not_mem, mem_condensed]

/-- A type with something unknown in it is kept as often as it occurs, every other type once. -/
theorem count_condensed (types : List Ty) (type : Ty) :
    (condensed types).count type =
      if type.containsUnknown then types.count type else if type ∈ types then 1 else 0 := by
  rw [condensed, List.count_append]
  cases hunknown : type.isUnknown with
  | true =>
      have hothers : ((withoutRepeats types).filter fun type => !type.isUnknown).count type = 0 := by
        rw [List.count_eq_zero, List.mem_filter]
        simp [hunknown]
      obtain rfl := eq_unknown_of_isUnknown hunknown
      rw [hothers, List.count_filter hunknown, containsUnknown_unknown]
      rfl
  | false =>
      have hunknowns : (types.filter isUnknown).count type = 0 := by
        rw [List.count_eq_zero, List.mem_filter]
        simp [hunknown]
      rw [hunknowns, List.count_filter (by simp [hunknown]), count_withoutRepeats, Nat.zero_add]

/-- The members that are not unknown are those of the list without what is unknown. -/
theorem condensed_eq (types : List Ty) :
    condensed types = types.filter isUnknown ++ withoutRepeats (types.filter fun type => !type.isUnknown) := by
  rw [condensed, withoutRepeats_filter]

theorem filter_isUnknown_condensed (types : List Ty) :
    (condensed types).filter isUnknown = types.filter isUnknown := by
  simp [condensed, List.filter_append, List.filter_filter]

theorem filter_known_condensed (types : List Ty) :
    (condensed types).filter (fun type => !type.isUnknown) =
      withoutRepeats (types.filter fun type => !type.isUnknown) := by
  simp [condensed, List.filter_append, List.filter_filter, withoutRepeats_filter]

/-- Condensing a part of a list first changes nothing. -/
theorem condensed_middle (before group after : List Ty) :
    condensed (before ++ condensed group ++ after) = condensed (before ++ group ++ after) := by
  simp only [condensed_eq (before ++ _ ++ after), List.filter_append, filter_isUnknown_condensed,
    filter_known_condensed, withoutRepeats_middle]

/-! ### Collecting members stage by stage -/

namespace UnionMembers

mutual

/-- A type is collected alternative by alternative. -/
theorem push_eq_foldl : (type : Ty) → (members : UnionMembers) →
    members.push type = type.alternatives.foldl add members
  | .union inner, members => by
      rw [push, alternatives]
      exact pushAll_eq_foldl inner members
  | .unknown, _ => rfl
  | .literal _, _ => rfl
  | .object _, _ => rfl
  | .array _, _ => rfl
  | .function _ _, _ => rfl
  | .reference _ _, _ => rfl

theorem pushAll_eq_foldl : (types : List Ty) → (members : UnionMembers) →
    members.pushAll types = (alternativesOf types).foldl add members
  | [], _ => rfl
  | type :: rest, members => by
      rw [pushAll, alternativesOf, List.foldl_append, push_eq_foldl type, pushAll_eq_foldl rest]

end

/-- What has been collected after some types is what the stages give for them. A type is compared with the
members kept so far, which are the types that came before it. -/
theorem foldl_add (types : List Ty) :
    types.foldl add ⟨[], []⟩ =
      ⟨types.filter isUnknown, (withoutRepeats types).filter fun type => !type.isUnknown⟩ := by
  induction types using List.reverseRecOn with
  | nil => rfl
  | append_singleton types last ih =>
      rw [List.foldl_append, ih, List.foldl_cons, List.foldl_nil]
      cases hunknown : last.isUnknown with
      | true =>
          obtain rfl := eq_unknown_of_isUnknown hunknown
          have hkept : ¬Ty.unknown.Repeats types := by simp [Repeats, containsUnknown_unknown]
          rw [add_unknown, withoutRepeats_append_singleton, if_neg hkept]
          simp [hunknown]
      | false =>
          have hseen : ((withoutRepeats types).filter fun type => !type.isUnknown).any
              (fun seen => seen.dedupEq last) = true ↔ last.Repeats types := by
            rw [any_dedupEq_iff, Repeats, Repeats, List.mem_filter, mem_withoutRepeats]
            simp [hunknown]
          rw [add_of_known hunknown, withoutRepeats_append_singleton]
          by_cases hrepeats : last.Repeats types
          · rw [if_pos (hseen.mpr hrepeats), if_pos hrepeats]
            simp [hunknown]
          · rw [if_neg (mt hseen.mp hrepeats), if_neg hrepeats]
            simp [hunknown]

end UnionMembers

theorem Joins.unique {members : List Ty} {left right : Ty} (hleft : Joins members left)
    (hright : Joins members right) : left = right := by
  obtain rfl | ⟨hlength, rfl⟩ := hleft
  · obtain hright | ⟨hlength, -⟩ := hright
    · exact List.singleton_inj.mp hright
    · simp at hlength
  · obtain rfl | ⟨-, rfl⟩ := hright
    · simp at hlength
    · rfl

/-- All that callers need to know of the canonical form: it is there unless there are no alternatives, and it
is made of the members that the stages give. -/
theorem canonicalizeUnion_cases (types : List Ty) :
    (alternativesOf types = [] ∧ canonicalizeUnion types = .error .emptyUnion) ∨
    alternativesOf types ≠ [] ∧
      ∃ type, canonicalizeUnion types = .ok type ∧ Joins (condensed (alternativesOf types)) type := by
  unfold canonicalizeUnion
  dsimp only
  rw [UnionMembers.pushAll_eq_foldl, UnionMembers.foldl_add, ← condensed, Ne, ← condensed_eq_nil_iff]
  match condensed (alternativesOf types) with
  | [] => exact Or.inl ⟨rfl, rfl⟩
  | [type] => exact Or.inr ⟨List.cons_ne_nil _ _, type, rfl, Or.inl rfl⟩
  | _ :: _ :: _ => exact Or.inr ⟨List.cons_ne_nil _ _, _, rfl, Or.inr ⟨by simp, rfl⟩⟩

/-- Only a union without alternatives cannot be made canonical. -/
theorem canonicalizeUnion_eq_error_iff (types : List Ty) :
    canonicalizeUnion types = .error .emptyUnion ↔ alternativesOf types = [] := by
  obtain ⟨hnone, herror⟩ | ⟨hsome, type, htype, -⟩ := canonicalizeUnion_cases types
  · simp [hnone, herror]
  · simp [hsome, htype]

/-- The alternatives of a union are joined after they have been condensed. -/
theorem exists_joins {types : List Ty} (hsome : alternativesOf types ≠ []) :
    ∃ type, canonicalizeUnion types = .ok type ∧ Joins (condensed (alternativesOf types)) type := by
  obtain ⟨hnone, -⟩ | ⟨-, hjoins⟩ := canonicalizeUnion_cases types
  · exact absurd hnone hsome
  · exact hjoins

theorem joins_of_canonicalizeUnion {types : List Ty} {type : Ty} (htype : canonicalizeUnion types = .ok type) :
    Joins (condensed (alternativesOf types)) type := by
  obtain ⟨-, herror⟩ | ⟨-, found, hfound, hjoins⟩ := canonicalizeUnion_cases types
  · rw [htype] at herror
    cases herror
  · rw [htype] at hfound
    cases hfound
    exact hjoins

/-- **The canonical form of a union, stage by stage.** Let the alternatives of some types be all that lies
in them outside of unions. There is no union of no alternatives, and this is the only error. Else the
result is made of all that is unknown among the alternatives, followed by the others in order, less each
before which an equal one stands with nothing unknown in it; a single member is the result itself, several
make a union. So whatever is or holds something unknown is a member as often as it is an alternative, any
other alternative is a member once, there are no other members, and none is a union. -/
theorem canonicalizeUnion_in_stages (types : List Ty) :
    (canonicalizeUnion types = .error .emptyUnion ↔ alternativesOf types = []) ∧
    (alternativesOf types ≠ [] →
      ∃ type, canonicalizeUnion types = .ok type ∧ Joins (condensed (alternativesOf types)) type) ∧
    (∀ part, part.containsUnknown = true →
      (condensed (alternativesOf types)).count part = (alternativesOf types).count part) ∧
    (∀ part ∈ alternativesOf types, part.containsUnknown = false →
      (condensed (alternativesOf types)).count part = 1) ∧
    ∀ part ∈ condensed (alternativesOf types), part ∈ alternativesOf types ∧ part.isUnion = false := by
  refine ⟨canonicalizeUnion_eq_error_iff types, exists_joins, ?_, ?_, ?_⟩
  · intro part hunknown
    rw [count_condensed, if_pos hunknown]
  · intro part hmem hknown
    rw [count_condensed, if_neg (by simp [hknown]), if_pos hmem]
  · intro part hmem
    have halternative := mem_condensed.mp hmem
    exact ⟨halternative, flat_of_mem_alternativesOf types part halternative⟩

/-! ### Groups of alternatives and their order -/

/-- Types with the same members in canonical form make the same type. -/
theorem canonicalizeUnion_congr {left right : List Ty}
    (h : condensed (alternativesOf left) = condensed (alternativesOf right)) :
    canonicalizeUnion left = canonicalizeUnion right := by
  have hnone : alternativesOf left = [] ↔ alternativesOf right = [] := by
    rw [← condensed_eq_nil_iff, h, condensed_eq_nil_iff]
  obtain ⟨hleft, herror⟩ | ⟨hleft, type, htype, hjoins⟩ := canonicalizeUnion_cases left
  · rw [herror, (canonicalizeUnion_eq_error_iff right).mpr (hnone.mp hleft)]
  · obtain ⟨type', htype', hjoins'⟩ := exists_joins (mt hnone.mpr hleft)
    rw [h] at hjoins
    rw [htype, htype', hjoins.unique hjoins']

theorem Joins.alternatives_eq {members : List Ty} {type : Ty} (hjoins : Joins members type)
    (hflat : ∀ member ∈ members, member.isUnion = false) : type.alternatives = members := by
  obtain rfl | ⟨-, rfl⟩ := hjoins
  · exact alternatives_of_flat (hflat type List.mem_cons_self)
  · rw [alternatives, alternativesOf_of_flat hflat]

/-- A type made of some alternatives stands for their members in canonical form. -/
theorem alternatives_of_canonicalizeUnion {group : List Ty} {type : Ty}
    (htype : canonicalizeUnion group = .ok type) :
    type.alternatives = condensed (alternativesOf group) := by
  apply (joins_of_canonicalizeUnion htype).alternatives_eq
  intro member hmember
  exact flat_of_mem_alternativesOf group member (mem_condensed.mp hmember)

theorem canonicalizeUnion_union (before group after : List Ty) :
    canonicalizeUnion (before ++ [.union group] ++ after) = canonicalizeUnion (before ++ group ++ after) := by
  apply canonicalizeUnion_congr
  simp only [alternativesOf_append, alternativesOf_singleton, alternatives]

theorem canonicalizeUnion_merged {group : List Ty} {type : Ty} (htype : canonicalizeUnion group = .ok type)
    (before after : List Ty) :
    canonicalizeUnion (before ++ [type] ++ after) = canonicalizeUnion (before ++ group ++ after) := by
  apply canonicalizeUnion_congr
  simp only [alternativesOf_append, alternativesOf_singleton, alternatives_of_canonicalizeUnion htype,
    condensed_middle]

/-- Some alternatives next to each other are put together: as a union, or as the type that they make. -/
inductive Merges : List Ty → List Ty → Prop
  | union (before group after : List Ty) :
      Merges (before ++ group ++ after) (before ++ [.union group] ++ after)
  | made {group : List Ty} {type : Ty} (htype : canonicalizeUnion group = .ok type)
      (before after : List Ty) : Merges (before ++ group ++ after) (before ++ [type] ++ after)

/-- However the alternatives are put together beforehand, the union comes to the same. -/
theorem canonicalizeUnion_of_merges {types merged : List Ty}
    (hmerges : Relation.ReflTransGen Merges types merged) :
    canonicalizeUnion merged = canonicalizeUnion types := by
  induction hmerges with
  | refl => rfl
  | tail _ hmerge ih =>
      rw [← ih]
      cases hmerge with
      | union before group after => exact canonicalizeUnion_union before group after
      | made htype before after => exact canonicalizeUnion_merged htype before after

theorem withoutRepeats_perm {left right : List Ty} (hperm : left.Perm right) :
    (withoutRepeats left).Perm (withoutRepeats right) := by
  rw [List.perm_iff_count]
  intro type
  simp only [count_withoutRepeats, hperm.count_eq, hperm.mem_iff]

theorem filter_isUnknown_of_perm {left right : List Ty} (hperm : left.Perm right) :
    left.filter isUnknown = right.filter isUnknown := by
  -- All that is unknown is equal, so only its number counts.
  have hunknown : ∀ types : List Ty, ∀ type ∈ types.filter isUnknown, type = .unknown := by
    intro types type hmem
    exact eq_unknown_of_isUnknown (List.mem_filter.mp hmem).2
  rw [List.eq_replicate_of_mem (hunknown left), List.eq_replicate_of_mem (hunknown right),
    (hperm.filter isUnknown).length_eq]

/-- **Merging is compositional, and the order of the branches is the order of the members.** Some
alternatives in a row may be replaced by the type that they make, or by a union of them: the result is the
same. So a result is made of itself, and alternatives may be put together in groups, and groups of groups.
If the alternatives come in another order, there is no result as there was none, or there are results with
the same members: as much that is unknown in front, and behind it the same others in some order. -/
theorem canonicalizeUnion_compositional :
    (∀ before group after type, canonicalizeUnion group = .ok type →
      canonicalizeUnion (before ++ [type] ++ after) = canonicalizeUnion (before ++ [.union group] ++ after) ∧
      canonicalizeUnion (before ++ [.union group] ++ after) = canonicalizeUnion (before ++ group ++ after)) ∧
    (∀ group type, canonicalizeUnion group = .ok type → canonicalizeUnion [type] = .ok type) ∧
    (∀ types merged, Relation.ReflTransGen Merges types merged →
      canonicalizeUnion merged = canonicalizeUnion types) ∧
    ∀ types permuted : List Ty, types.Perm permuted →
      (canonicalizeUnion types = .error .emptyUnion ∧ canonicalizeUnion permuted = .error .emptyUnion) ∨
      ∃ type type' unknowns others others',
        canonicalizeUnion types = .ok type ∧ canonicalizeUnion permuted = .ok type' ∧
        Joins (unknowns ++ others) type ∧ Joins (unknowns ++ others') type' ∧
        (∀ member ∈ unknowns, member = .unknown) ∧ (∀ member ∈ others, member ≠ .unknown) ∧
        others.Perm others' := by
  refine ⟨?_, ?_, fun _ _ => canonicalizeUnion_of_merges, ?_⟩
  · intro before group after type htype
    rw [canonicalizeUnion_merged htype, canonicalizeUnion_union]
    exact ⟨rfl, rfl⟩
  · intro group type htype
    have hmerged := canonicalizeUnion_merged htype [] []
    rw [List.nil_append, List.append_nil, List.append_nil, List.nil_append] at hmerged
    exact hmerged.trans htype
  · intro types permuted hperm
    have halternatives : (alternativesOf types).Perm (alternativesOf permuted) := by
      rw [alternativesOf_eq_flatMap, alternativesOf_eq_flatMap]
      exact hperm.flatMap_right alternatives
    by_cases hnone : alternativesOf types = []
    · have hnone' : alternativesOf permuted = [] := by
        rw [hnone] at halternatives
        exact halternatives.nil_eq.symm
      exact Or.inl ⟨(canonicalizeUnion_eq_error_iff types).mpr hnone,
        (canonicalizeUnion_eq_error_iff permuted).mpr hnone'⟩
    · have hsome : alternativesOf permuted ≠ [] := by
        intro hnone'
        rw [hnone'] at halternatives
        exact hnone halternatives.eq_nil
      obtain ⟨type, htype, hjoins⟩ := exists_joins hnone
      obtain ⟨type', htype', hjoins'⟩ := exists_joins hsome
      rw [condensed_eq] at hjoins
      rw [condensed_eq, ← filter_isUnknown_of_perm halternatives] at hjoins'
      refine Or.inr ⟨type, type', _, _, _, htype, htype', hjoins, hjoins', ?_, ?_,
        withoutRepeats_perm (halternatives.filter _)⟩
      · intro member hmember
        exact eq_unknown_of_isUnknown (List.mem_filter.mp hmember).2
      · rintro member hmember rfl
        cases (List.mem_filter.mp (mem_withoutRepeats.mp hmember)).2

/-- A group with a shape that holds something unknown, once by itself and once in a union, between the same
shape and an object; and the group in reverse order. -/
theorem canonicalizeUnion_compositional_shapes :
    let shape := Ty.list [.unknown, .object "Box"]
    let group := [.union [.literal .null, shape], .unknown, .literal .null, shape]
    let type := Ty.union [.unknown, .literal .null, shape, shape]
    let type' := Ty.union [.unknown, shape, .literal .null, shape]
    canonicalizeUnion group = .ok type ∧
    canonicalizeUnion ([shape] ++ [type] ++ [.object "Box"]) =
      .ok (.union [.unknown, shape, .literal .null, shape, shape, .object "Box"]) ∧
    canonicalizeUnion [.union [type], .union [.union group]] = canonicalizeUnion (group ++ group) ∧
    canonicalizeUnion group.reverse = .ok type' ∧
    ∃ unknowns others others', Joins (unknowns ++ others) type ∧ Joins (unknowns ++ others') type' ∧
      others.Perm others' := by
  intro shape group type type'
  have htype : canonicalizeUnion group = .ok type := by decide +kernel
  have htype' : canonicalizeUnion group.reverse = .ok type' := by decide +kernel
  obtain ⟨hcompositional, -, hgroups, hperm⟩ := canonicalizeUnion_compositional
  refine ⟨htype, ?_, ?_, htype', ?_⟩
  · obtain ⟨hmerged, hunion⟩ := hcompositional [shape] group [.object "Box"] type htype
    rw [hmerged, hunion]
    decide +kernel
  · apply hgroups
    calc
      Relation.ReflTransGen Merges (group ++ group) [type, .union group] :=
        .tail (.single (.made htype [] group)) (.union [type] group [])
      Relation.ReflTransGen Merges [type, .union group] [.union [type], .union [.union group]] :=
        .tail (.single (.union [] [type] [.union group])) (.union [.union [type]] [.union group] [])
  · obtain ⟨hnone, -⟩ | ⟨found, found', unknowns, others, others', hfound, hfound', hjoins, hjoins', -, -,
      hothers⟩ := hperm group group.reverse group.reverse_perm.symm
    · rw [htype] at hnone
      cases hnone
    · rw [htype] at hfound
      rw [htype'] at hfound'
      cases hfound
      cases hfound'
      exact ⟨unknowns, others, others', hjoins, hjoins', hothers⟩

end DeferredTypes.Ty
