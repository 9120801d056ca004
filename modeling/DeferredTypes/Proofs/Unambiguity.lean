import DeferredTypes.Proofs.CanonicalText

/-! How far the canonical text tells a type. Where the result of a signature ends is not marked: `(): A|B`
is the text of a signature with the result `A|B` and of a union of a signature and `B`. This is all that a
text leaves open. -/

namespace DeferredTypes.Ty

variable {regroup : List Branch → List Ty}

/-! ### Two ways to put alternatives together -/

def returningTimes : Nat → Ty → Ty
  | 0, type => type
  | heads + 1, type => .returning (returningTimes heads type)

/-- The result of a signature reaches over all alternatives that follow. -/
def wide : List Branch → List Ty
  | [] => []
  | ⟨0, core⟩ :: rest => core :: wide rest
  | ⟨heads + 1, core⟩ :: rest => [returningTimes (heads + 1) (join (core :: wide rest))]

/-- The result of a signature is the one alternative that it stands in front of. -/
def narrow (branches : List Branch) : List Ty :=
  branches.map fun branch => returningTimes branch.heads branch.core

/-- A type with the result of every signature extended to all the members of a union that follow it. -/
def widened (type : Ty) : Ty := type.regrouped wide

def TrailingAtTop : Ty → Prop
  | .union members => ∀ member ∈ members.dropLast, member.returnType? = none
  | _ => True

instance : (type : Ty) → Decidable type.TrailingAtTop
  | .union members => inferInstanceAs (Decidable (∀ member ∈ members.dropLast, member.returnType? = none))
  | .unknown | .literal _ | .object _ | .array _ | .function _ _ | .reference _ _ => .isTrue trivial

/-- Signatures stand in no union but as its last member. -/
def Trailing (type : Ty) : Prop := ∀ part ∈ type.subterms, part.TrailingAtTop

instance (type : Ty) : Decidable type.Trailing := inferInstanceAs (Decidable (∀ part ∈ _, _))

def NarrowAtTop : Ty → Prop
  | .function _ result => result.isUnion = false
  | _ => True

instance : (type : Ty) → Decidable type.NarrowAtTop
  | .function _ result => inferInstanceAs (Decidable (result.isUnion = false))
  | .unknown | .literal _ | .object _ | .array _ | .union _ | .reference _ _ => .isTrue trivial

/-- No signature has a union as its result. -/
def Narrow (type : Ty) : Prop := ∀ part ∈ type.subterms, part.NarrowAtTop

instance (type : Ty) : Decidable type.Narrow := inferInstanceAs (Decidable (∀ part ∈ _, _))

/-- The members of a union; any other type is its own member. -/
def members : Ty → List Ty
  | .union members => members
  | type => [type]

theorem members_of_flat {type : Ty} (htype : type.isUnion = false) : type.members = [type] := by
  cases type with
  | union members => cases htype
  | unknown | literal _ | object _ | array _ | function _ _ | reference _ _ => rfl

theorem join_members {type : Ty} (htype : type.Legible) : join type.members = type := by
  cases type with
  | union members =>
      have htwo := htype.members.1.two_le
      rcases members with _ | ⟨first, _ | ⟨second, rest⟩⟩
      · cases htwo
      · simp at htwo
      · rfl
  | unknown | literal _ | object _ | array _ | function _ _ | reference _ _ => rfl

/-- The types whose parts are all of this kind come back when their alternatives are put together. -/
def Keeps (regroup : List Branch → List Ty) (good : Ty → Prop) : Prop :=
  ∀ ⦃type : Ty⦄, type.Legible → (∀ part ∈ type.subterms, good part) → regroup (branches type) = type.members

section
variable {good : Ty → Prop} (hkeeps : Keeps regroup good) {type type' : Ty} (htype : type.Legible)
  (hparts : ∀ part ∈ type.subterms, good part)
include hkeeps htype hparts

theorem Keeps.spread_eq : spread regroup type = branches type := by
  induction type using children_induction with
  | step type ih =>
      have hchildren := ((forall_mem_subterms_iff _ type).mp hparts).2
      have hchild : ∀ child ∈ type.children, spread regroup child = branches child := fun child hchild =>
        ih child hchild (htype.child hchild) (hchildren child hchild)
      cases type with
      | function params result =>
          rw [spread, branches, hchild result (List.mem_append_right _ List.mem_cons_self)]
      | union members =>
          rw [spread, branches, spreadMembers_eq_flatMap, branchesOf_eq_flatMap]
          exact List.flatMap_congr hchild
      | array entries =>
          have hentries : spreadEntries regroup entries = entries := by
            rw [spreadEntries_eq_map]
            refine (List.map_congr_left fun entry hentry => ?_).trans (List.map_id entries)
            have hmem := List.mem_map_of_mem (f := Prod.snd) hentry
            have hlegible := htype.child hmem
            rw [regrouped, hchild entry.2 hmem, hkeeps hlegible (hchildren entry.2 hmem), join_members hlegible]
            rfl
          rw [spread, branches, hentries]
      | unknown | literal _ | object _ | reference _ _ => rfl

/-- A legible type of this kind is left as it is by regrouping. -/
theorem Keeps.regrouped_eq : type.regrouped regroup = type := by
  rw [regrouped, hkeeps.spread_eq htype hparts, hkeeps htype hparts, join_members htype]

/-- Types of such a kind are told by their texts. -/
theorem Keeps.eq_of_display_eq (htype' : type'.Legible) (hparts' : ∀ part ∈ type'.subterms, good part)
    (h : type.display = type'.display) : type = type' := by
  have hspread := spread_eq_of_display_eq htype htype' h regroup
  rw [← hkeeps.regrouped_eq htype hparts, ← hkeeps.regrouped_eq htype' hparts', regrouped, regrouped, hspread]

end

theorem branches_of_isCore {core : Ty} (hcore : core.isCore = true) : branches core = [⟨0, core⟩] := by
  cases core with
  | unknown | literal _ | object _ | array _ => rw [branches]
  | function _ _ | union _ | reference _ _ => cases hcore

theorem wide_openFirst {branches : List Branch} (hbranches : wide branches ≠ []) :
    wide (openFirst branches) = [.returning (join (wide branches))] := by
  rcases branches with _ | ⟨⟨_ | heads, core⟩, rest⟩
  · exact absurd rfl hbranches
  · rfl
  · rfl

theorem narrow_openFirst {branches : List Branch} {type : Ty} (hbranches : narrow branches = [type]) :
    narrow (openFirst branches) = [.returning type] := by
  rcases branches with _ | ⟨branch, _ | ⟨next, rest⟩⟩
  · cases hbranches
  · exact congrArg (List.map Ty.returning) hbranches
  · cases hbranches

theorem members_ne_nil {type : Ty} (htype : type.Legible) : type.members ≠ [] := by
  cases type with
  | union members => exact htype.members_ne_nil
  | unknown | literal _ | object _ | array _ | function _ _ | reference _ _ => exact List.cons_ne_nil _ _

theorem isCore_of_flat {type : Ty} (htype : type.Legible) (hflat : type.isUnion = false)
    (hfunction : type.returnType? = none) : type.isCore = true := by
  cases type with
  | unknown | literal _ | object _ | array _ => rfl
  | function params result => cases hfunction
  | union members => cases hflat
  | reference target chain => cases htype.not_reference

/-- A union whose signatures are all behind its other members comes apart into its members. -/
theorem wide_flatMap {members : List Ty} (hlegible : ∀ member ∈ members, member.Legible)
    (hflat : ∀ member ∈ members, member.isUnion = false)
    (hlast : ∀ member ∈ members.dropLast, member.returnType? = none)
    (hmembers : ∀ member ∈ members, wide (branches member) = member.members) :
    wide (members.flatMap branches) = members := by
  induction members with
  | nil => rfl
  | cons type rest ih =>
      cases rest with
      | nil =>
          rw [List.flatMap_singleton, hmembers type List.mem_cons_self,
            members_of_flat (hflat type List.mem_cons_self)]
      | cons next rest =>
          -- A member that others follow is no signature, and so an alternative of its own.
          have hcore : type.isCore = true := isCore_of_flat (hlegible type List.mem_cons_self)
            (hflat type List.mem_cons_self) (hlast type List.mem_cons_self)
          rw [List.flatMap_cons, branches_of_isCore hcore, List.singleton_append, wide,
            ih (fun m hm => hlegible m (List.mem_cons_of_mem _ hm))
              (fun m hm => hflat m (List.mem_cons_of_mem _ hm))
              (fun m hm => hlast m (List.mem_cons_of_mem _ hm))
              (fun m hm => hmembers m (List.mem_cons_of_mem _ hm))]

/-- Where signatures stand last in their unions, their results may reach over all that follows. -/
theorem keeps_wide : Keeps wide TrailingAtTop := by
  intro type htype htrailing
  induction type using children_induction with
  | step type ih =>
      obtain ⟨hlast, hparts⟩ := (forall_mem_subterms_iff _ _).mp htrailing
      cases type with
      | function params result =>
          have hchild := List.mem_append_right (params.map Prod.snd) (List.mem_singleton_self result)
          have hresult := ih result hchild htype.result (hparts result hchild)
          rw [branches, wide_openFirst (hresult ▸ members_ne_nil htype.result), hresult,
            join_members htype.result, htype.params_eq]
          rfl
      | union members =>
          rw [branches, branchesOf_eq_flatMap]
          exact wide_flatMap htype.members.2 htype.members.1.flat hlast fun member hmember =>
            ih member hmember (htype.child hmember) (hparts member hmember)
      | unknown | literal _ | object _ | array _ => rfl
      | reference target chain => cases htype.not_reference

/-- Where the results of signatures are no unions, they may reach over one alternative only. -/
theorem keeps_narrow : Keeps narrow NarrowAtTop := by
  intro type htype hnarrow
  induction type using children_induction with
  | step type ih =>
      obtain ⟨hresult, hparts⟩ := (forall_mem_subterms_iff _ _).mp hnarrow
      cases type with
      | function params result =>
          have hchild := List.mem_append_right (params.map Prod.snd) (List.mem_singleton_self result)
          have hmembers := ih result hchild htype.result (hparts result hchild)
          rw [members_of_flat hresult] at hmembers
          rw [branches, narrow_openFirst hmembers, htype.params_eq]
          rfl
      | union members =>
          have hmembers : ∀ member ∈ members, narrow (branches member) = [member] := fun member hmember => by
            rw [ih member hmember (htype.child hmember) (hparts member hmember),
              members_of_flat (htype.members.1.flat member hmember)]
          rw [branches, branchesOf_eq_flatMap, narrow, List.map_flatMap]
          exact (List.flatMap_congr hmembers).trans (List.flatMap_singleton' members)
      | unknown | literal _ | object _ | array _ => rfl
      | reference target chain => cases htype.not_reference

/-! ### The text of a widened type -/

theorem toList_display_join {types : List Ty} (htypes : types ≠ []) :
    '|' :: (join types).display.toList = barredTypes types := by
  rcases types with _ | ⟨type, _ | ⟨next, rest⟩⟩
  · exact absurd rfl htypes
  · simp [join, barredTypes]
  · rw [join, display, toList_displayMembers htypes]
    intro only h
    cases h

theorem toList_display_returningTimes (heads : Nat) (type : Ty) :
    (returningTimes heads type).display.toList = headsText heads ++ type.display.toList := by
  induction heads with
  | zero => rfl
  | succ heads ih => simp [returningTimes, returning, display, headsText, ih]

/-- How far the results of signatures reach is not shown. -/
theorem barredTypes_wide (branches : List Branch) : barredTypes (wide branches) = barred branches := by
  induction branches with
  | nil => rfl
  | cons branch rest ih =>
      rcases branch with ⟨_ | heads, core⟩
      · rw [wide, barredTypes, List.flatMap_cons]
        exact congrArg (('|' :: core.display.toList) ++ ·) ih
      · have hjoin := toList_display_join (List.cons_ne_nil core (wide rest))
        rw [barredTypes, List.flatMap_cons, List.cons_append, List.cons.injEq] at hjoin
        rw [wide, barredTypes, List.flatMap_singleton, toList_display_returningTimes, hjoin.2]
        simp only [barred, List.flatMap_cons, Branch.text, List.cons_append, List.append_assoc]
        exact congrArg (fun tail => '|' :: (headsText (heads + 1) ++ (core.display.toList ++ tail))) ih

theorem display_join_wide {branches : List Branch} {text : String}
    (h : barred branches = '|' :: text.toList) : (join (wide branches)).display = text := by
  have hne : wide branches ≠ [] := by
    intro hnil
    rw [← barredTypes_wide, hnil] at h
    cases h
  have hjoin := toList_display_join hne
  rw [barredTypes_wide, h] at hjoin
  exact String.toList_inj.mp (List.cons.inj hjoin).2

theorem displayEntries_map {entries : List (Key × Ty)} {f : Ty → Ty}
    (hentries : ∀ entry ∈ entries, (f entry.2).display = entry.2.display) :
    displayEntries (entries.map fun entry => (entry.1, f entry.2)) = displayEntries entries := by
  induction entries with
  | nil => rfl
  | cons entry rest ih =>
      have hfirst := hentries entry List.mem_cons_self
      have hrest := ih fun e he => hentries e (List.mem_cons_of_mem _ he)
      cases rest with
      | nil => simp only [List.map_cons, List.map_nil, displayEntries, hfirst]
      | cons next rest =>
          simp only [List.map_cons, displayEntries, hfirst] at hrest ⊢
          rw [hrest]

theorem barred_spread_wide {type : Ty} (htype : type.Legible) :
    barred (spread wide type) = '|' :: type.display.toList := by
  induction type using children_induction with
  | step type ih =>
      cases type with
      | function params result =>
          have hresult := ih result (List.mem_append_right _ List.mem_cons_self) htype.result
          rw [spread, barred_openFirst hresult, display, String.toList_append]
      | union members =>
          rw [spread, spreadMembers_eq_flatMap, display, toList_displayMembers htype.members_ne_nil]
          exact barred_flatMap fun member hmember => ih member hmember (htype.child hmember)
      | array entries =>
          have hentries : displayEntries (spreadEntries wide entries) = displayEntries entries := by
            rw [spreadEntries_eq_map]
            refine displayEntries_map fun entry hentry => ?_
            have hchild := List.mem_map_of_mem (f := Prod.snd) hentry
            exact display_join_wide (ih entry.2 hchild (htype.child hchild))
          rw [spread, barred, List.flatMap_singleton, Branch.text, display, hentries, display]
          rfl
      | unknown | literal _ | object _ =>
          rw [spread, barred, List.flatMap_singleton]
          rfl
      | reference target chain => cases htype.not_reference

/-- A type and its widening have the same text. -/
theorem display_widened {type : Ty} (htype : type.Legible) : type.widened.display = type.display :=
  display_join_wide (barred_spread_wide htype)

/-- Two legible types have the same canonical text just if they are the same type once the result of every
signature is extended to all the members of a union that follow it. So the text tells the type among those
in which no member of a union follows a signature, and among those in which no signature has a union as its
result. -/
theorem render_eq_iff_widened_eq {type type' : Ty} (htype : type.Legible) (htype' : type'.Legible) :
    (type.render = type'.render ↔ type.widened = type'.widened) ∧
    (type.Trailing → type'.Trailing → type.render = type'.render → type = type') ∧
    (type.Narrow → type'.Narrow → type.render = type'.render → type = type') := by
  have hdisplay : type.render = type'.render ↔ type.display = type'.display := by
    rw [htype.final.render_eq, htype'.final.render_eq, Except.ok.injEq]
  rw [hdisplay]
  refine ⟨⟨fun h => ?_, fun h => ?_⟩, fun htrailing htrailing' h => ?_, fun hnarrow hnarrow' h => ?_⟩
  · rw [widened, widened, regrouped, regrouped, spread_eq_of_display_eq htype htype' h]
  · rw [← display_widened htype, h, display_widened htype']
  · exact keeps_wide.eq_of_display_eq htype htrailing htype' htrailing' h
  · exact keeps_narrow.eq_of_display_eq htype hnarrow htype' hnarrow' h

theorem render_eq_iff_widened_eq_reaching :
    let reaching := Ty.returning (.union [.object "A", .literal (.int 1)])
    let ending := Ty.union [.returning (.object "A"), .literal (.int 1)]
    let swapped := Ty.union [.literal (.int 1), .returning (.object "A")]
    (reaching.Legible ∧ ending.Legible ∧ swapped.Legible) ∧ reaching.widened = ending.widened ∧
      reaching.render ≠ swapped.render ∧ ending.render ≠ swapped.render := by
  intro reaching ending swapped
  have hreaching : reaching.Legible := by decide +kernel
  have hending : ending.Legible := by decide +kernel
  have hswapped : swapped.Legible := by decide +kernel
  have hne : reaching ≠ swapped ∧ ending ≠ swapped := by decide +kernel
  refine ⟨⟨hreaching, hending, hswapped⟩, ?_, fun htexts => hne.1 ?_, fun htexts => hne.2 ?_⟩
  · exact (render_eq_iff_widened_eq hreaching hending).1.mp rfl
  · exact (render_eq_iff_widened_eq hreaching hswapped).2.1 (by decide +kernel) (by decide +kernel) htexts
  · exact (render_eq_iff_widened_eq hending hswapped).2.2 (by decide +kernel) (by decide +kernel) htexts

/-- A signature that returns a union, and a union that begins with a signature. -/
theorem render_eq_of_distinct_types :
    let reaching := Ty.function [] (.union [.object "A", .object "B"])
    let ending := Ty.union [.function [] (.object "A"), .object "B"]
    reaching.Legible ∧ ending.Legible ∧ reaching.render = .ok "(): A|B" ∧ ending.render = .ok "(): A|B" ∧
      reaching ≠ ending := by
  decide +kernel

end DeferredTypes.Ty
