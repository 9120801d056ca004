import DeferredTypes.Proofs.Outcome

/-! Traversals in order. A traversal calls a function on the immediate parts of a type, one after the other,
and puts the results in their places. The function may change a state and may fail; what it did before it
failed stands, and the parts after that one are never looked at. -/

namespace DeferredTypes

namespace Ty

/-! ### Types with other parts in the same places -/

/-- The same variant, with the same keys, the same names of parameters and the same number of parts. -/
inductive SameForm : Ty → Ty → Prop
  | unknown : SameForm .unknown .unknown
  | literal (value : Literal) : SameForm (.literal value) (.literal value)
  | object (owner : String) : SameForm (.object owner) (.object owner)
  | array {entries entries' : List (Key × Ty)} (hkeys : entries.map Prod.fst = entries'.map Prod.fst) :
      SameForm (.array entries) (.array entries')
  | function {params params' : List (String × Ty)} {result result' : Ty}
      (hnames : params.map Prod.fst = params'.map Prod.fst) :
      SameForm (.function params result) (.function params' result')
  | union {members members' : List Ty} (hlength : members.length = members'.length) :
      SameForm (.union members) (.union members')
  | reference (target : Path) (chain : List ChainOp) :
      SameForm (.reference target chain) (.reference target chain)

namespace SameForm

variable {first second third : Ty}

theorem symm (h : SameForm first second) : SameForm second first := by
  cases h with
  | array hkeys => exact .array hkeys.symm
  | function hnames => exact .function hnames.symm
  | union hlength => exact .union hlength.symm
  | unknown | literal | object | reference => constructor

theorem trans (h : SameForm first second) (h' : SameForm second third) : SameForm first third := by
  cases h with
  | array hkeys =>
      cases h' with
      | array hkeys' => exact .array (hkeys.trans hkeys')
  | function hnames =>
      cases h' with
      | function hnames' => exact .function (hnames.trans hnames')
  | union hlength =>
      cases h' with
      | union hlength' => exact .union (hlength.trans hlength')
  | unknown | literal | object | reference => exact h'

/-- The form and the parts make the type. -/
theorem eq_of_children (h : SameForm first second) (hchildren : first.children = second.children) :
    first = second := by
  cases h with
  | array hkeys => rw [List.zip_of_prod hkeys hchildren, children, ← List.zip_of_prod rfl rfl]
  | function hnames =>
      obtain ⟨hparams, hresult⟩ := List.append_inj' hchildren rfl
      rw [List.zip_of_prod hnames hparams, ← List.zip_of_prod rfl rfl, List.singleton_inj.mp hresult]
  | union hlength => exact congrArg Ty.union hchildren
  | unknown | literal | object | reference => rfl

end SameForm

/-- The type with other parts in the places of its own. -/
def withParts : Ty → List Ty → Ty
  | .array entries, parts => .array ((entries.map Prod.fst).zip parts)
  | .function params _, parts =>
      .function ((params.map Prod.fst).zip parts.dropLast) (parts.getLastD .unknown)
  | .union _, parts => .union parts
  | type, _ => type

variable {type : Ty} {parts : List Ty}

@[simp] theorem withParts_function (params : List (String × Ty)) (result : Ty) (types : List Ty) (last : Ty) :
    (Ty.function params result).withParts (types ++ [last]) =
      .function ((params.map Prod.fst).zip types) last := by
  rw [withParts, List.dropLast_concat, List.getLastD_concat]

/-- As many parts as the type has find their places. -/
theorem withParts_spec (hlength : parts.length = type.children.length) :
    SameForm type (type.withParts parts) ∧ (type.withParts parts).children = parts := by
  cases type with
  | array entries =>
      have hkeys : (entries.map Prod.fst).length = parts.length := by
        rw [hlength, children, List.length_map, List.length_map]
      exact ⟨.array (List.map_fst_zip (Nat.le_of_eq hkeys)).symm, List.map_snd_zip (Nat.le_of_eq hkeys.symm)⟩
  | function params result =>
      rw [children, List.length_append, List.length_map] at hlength
      obtain rfl | ⟨types, last, rfl⟩ := List.eq_nil_or_concat parts
      · cases hlength
      · have hnames : (params.map Prod.fst).length = types.length := by
          rw [List.length_concat] at hlength
          rw [List.length_map]
          exact (Nat.add_right_cancel hlength).symm
        rw [List.concat_eq_append, withParts_function]
        refine ⟨.function (List.map_fst_zip (Nat.le_of_eq hnames)).symm, ?_⟩
        rw [children, List.map_snd_zip (Nat.le_of_eq hnames.symm)]
  | union members => exact ⟨.union hlength.symm, rfl⟩
  | unknown | literal | object | reference =>
      exact ⟨by constructor, (List.eq_nil_of_length_eq_zero hlength).symm⟩

/-! ### Traversals as one series of calls -/

section

variable {m : Type → Type} [Monad m] [LawfulMonad m] {f : Ty → m Ty}

/-- The labels stay where they are. -/
theorem mapM_labelled {α : Type} {visit : α × Ty → m (α × Ty)}
    (hvisit : ∀ label type, visit (label, type) = Prod.mk label <$> f type) (pairs : List (α × Ty)) :
    pairs.mapM visit = (pairs.map Prod.fst).zip <$> (pairs.map Prod.snd).mapM f := by
  induction pairs with
  | nil => simp
  | cons pair rest ih =>
      obtain ⟨label, type⟩ := pair
      simp [List.mapM_cons, hvisit, ih]

/-- A traversal is one series of calls on the immediate parts, whose results are put in their places. -/
theorem traverse_eq (f : Ty → m Ty) (type : Ty) :
    type.traverse f = type.withParts <$> type.children.mapM f := by
  cases type with
  | array entries =>
      rw [traverse, mapM_labelled fun key type => (map_eq_pure_bind (Prod.mk key) (f type)).symm,
        bind_map_left, bind_pure_comp]
      rfl
  | function params result =>
      rw [traverse, mapM_labelled fun key type => (map_eq_pure_bind (Prod.mk key) (f type)).symm, children,
        List.mapM_append, bind_map_left]
      simp
  | union members =>
      rw [traverse, bind_pure_comp]
      rfl
  | unknown | literal | object | reference => simp [traverse, children, withParts]

end

/-- The same type with a function applied to its parts. -/
theorem mapChildren_eq (f : Ty → Ty) (type : Ty) :
    type.mapChildren f = type.withParts (type.children.map f) := by
  rw [mapChildren, traverse_eq, List.mapM_pure]
  rfl

/-- The form of a type stays, and its parts are mapped one by one. -/
theorem mapChildren_spec (f : Ty → Ty) (type : Ty) :
    SameForm type (type.mapChildren f) ∧ (type.mapChildren f).children = type.children.map f := by
  rw [mapChildren_eq]
  exact withParts_spec (List.length_map _)

theorem mapChildren_id (type : Ty) : type.mapChildren id = type := by
  obtain ⟨hform, hchildren⟩ := mapChildren_spec id type
  exact hform.symm.eq_of_children (hchildren.trans (List.map_id _))

theorem mapChildren_mapChildren (f g : Ty → Ty) (type : Ty) :
    (type.mapChildren f).mapChildren g = type.mapChildren (g ∘ f) := by
  obtain ⟨hform, hchildren⟩ := mapChildren_spec f type
  obtain ⟨hform', hchildren'⟩ := mapChildren_spec g (type.mapChildren f)
  obtain ⟨hform'', hchildren''⟩ := mapChildren_spec (g ∘ f) type
  refine ((hform.trans hform').symm.trans hform'').eq_of_children ?_
  rw [hchildren', hchildren, hchildren'', List.map_map]

end Ty

/-! ### Functions with effects -/

/-- A function that is called on types one after the other. It may change a state, and it may fail. -/
abbrev Visitor (ε σ : Type) := Ty → ExceptT ε (StateM σ) Ty

namespace Visitor

variable {ε σ : Type}

/-- The visitor is called on the types in order, each time in the state in which the call before left it,
and every call succeeds. -/
inductive Succeeds (visit : Visitor ε σ) : List Ty → σ → List Ty → σ → Prop
  | nil {state : σ} : Succeeds visit [] state [] state
  | cons {type result : Ty} {rest results : List Ty} {state middle after : σ}
      (hcall : outcome (visit type) state = (.ok result, middle))
      (hrest : Succeeds visit rest middle results after) :
      Succeeds visit (type :: rest) state (result :: results) after

/-- The visitor is called on the types in order, and the last of these calls is the first that fails. -/
def Stops (visit : Visitor ε σ) (types calls : List Ty) (state : σ) (error : ε) (after : σ) : Prop :=
  ∃ earlier last later results middle, types = earlier ++ last :: later ∧ calls = earlier ++ [last] ∧
    visit.Succeeds earlier state results middle ∧ outcome (visit last) middle = (.error error, after)

/-- The visitor that keeps a list of the types it was called on, the latest last. -/
def recorded (visit : Visitor ε σ) : Visitor ε (List Ty × σ) := fun type =>
  ExceptT.mk fun (calls, state) =>
    ((outcome (visit type) state).1, (calls ++ [type], (outcome (visit type) state).2))

variable {visit : Visitor ε σ} {types : List Ty}

theorem Succeeds.length_eq {state after : σ} {results : List Ty}
    (h : visit.Succeeds types state results after) : results.length = types.length := by
  induction h with
  | nil => rfl
  | cons hcall hrest ih => rw [List.length_cons, List.length_cons, ih]

theorem mapM_cons (visit : Visitor ε σ) (type : Ty) (rest : List Ty) :
    (type :: rest).mapM visit = visit type >>= fun result => (result :: ·) <$> rest.mapM visit := by
  simp only [List.mapM_cons, bind_pure_comp]

/-- A series of calls succeeds if every call does. -/
theorem outcome_mapM_ok_iff {state after : σ} {results : List Ty} :
    outcome (types.mapM visit) state = (.ok results, after) ↔
      visit.Succeeds types state results after := by
  induction types generalizing state results with
  | nil =>
      constructor
      · rintro ⟨⟩
        exact .nil
      · rintro ⟨⟩
        rfl
  | cons type rest ih =>
      rw [mapM_cons]
      constructor
      · intro h
        rcases hcall : outcome (visit type) state with ⟨error | result, middle⟩
        · rw [outcome_bind_of_error hcall] at h
          cases h
        · rw [outcome_bind_of_ok hcall, outcome_map] at h
          rcases hrest : outcome (rest.mapM visit) middle with ⟨error | results, last⟩
          · rw [hrest] at h
            cases h
          · rw [hrest] at h
            cases h
            exact .cons hcall (ih.mp hrest)
      · rintro (_ | ⟨hcall, hrest⟩)
        rw [outcome_bind_of_ok hcall, outcome_map, ih.mpr hrest]
        rfl

/-- A series of calls fails as its first call that fails. -/
theorem outcome_mapM_error_iff {state after : σ} {error : ε} :
    outcome (types.mapM visit) state = (.error error, after) ↔
      ∃ calls, visit.Stops types calls state error after := by
  induction types generalizing state with
  | nil =>
      constructor
      · rintro ⟨⟩
      · rintro ⟨calls, earlier, last, later, results, middle, hsplit, -⟩
        exact absurd hsplit (List.append_ne_nil_of_right_ne_nil _ (List.cons_ne_nil _ _)).symm
  | cons type rest ih =>
      rw [mapM_cons]
      constructor
      · intro h
        rcases hcall : outcome (visit type) state with ⟨_ | result, middle⟩
        · rw [outcome_bind_of_error hcall] at h
          cases h
          -- The first call fails, so it is the last one.
          exact ⟨[type], [], type, rest, [], state, rfl, rfl, .nil, hcall⟩
        · rw [outcome_bind_of_ok hcall, outcome_map] at h
          rcases hrest : outcome (rest.mapM visit) middle with ⟨_ | results, last⟩
          · rw [hrest] at h
            cases h
            obtain ⟨_, earlier, last, later, results, middle', rfl, rfl, hearlier, hlast⟩ := ih.mp hrest
            exact ⟨type :: (earlier ++ [last]), type :: earlier, last, later, result :: results, middle',
              rfl, rfl, .cons hcall hearlier, hlast⟩
          · rw [hrest] at h
            cases h
      · rintro ⟨_, earlier, last, later, results, middle, hsplit, rfl, hearlier, hlast⟩
        cases hearlier with
        | nil =>
            obtain ⟨rfl, rfl⟩ := List.cons.inj hsplit
            exact outcome_bind_of_error hlast _
        | cons hcall hmore =>
            obtain ⟨rfl, rfl⟩ := List.cons.inj hsplit
            rw [outcome_bind_of_ok hcall, outcome_map,
              ih.mpr ⟨_, _, last, later, _, middle, rfl, rfl, hmore, hlast⟩]
            rfl

theorem outcome_recorded (visit : Visitor ε σ) (type : Ty) (calls : List Ty) (state : σ) :
    outcome (visit.recorded type) (calls, state) =
      ((outcome (visit type) state).1, (calls ++ [type], (outcome (visit type) state).2)) := rfl

theorem outcome_recorded_iff {type : Ty} {calls calls' : List Ty} {state after : σ} {result : Except ε Ty} :
    outcome (visit.recorded type) (calls, state) = (result, (calls', after)) ↔
      calls' = calls ++ [type] ∧ outcome (visit type) state = (result, after) := by
  rw [outcome_recorded]
  simp only [Prod.ext_iff]
  rw [and_left_comm, eq_comm (a := calls')]

theorem succeeds_recorded_iff {calls calls' results : List Ty} {state after : σ} :
    visit.recorded.Succeeds types (calls, state) results (calls', after) ↔
      calls' = calls ++ types ∧ visit.Succeeds types state results after := by
  induction types generalizing calls state results with
  | nil =>
      constructor
      · rintro ⟨⟩
        exact ⟨(List.append_nil _).symm, .nil⟩
      · rintro ⟨rfl, ⟨⟩⟩
        rw [List.append_nil]
        exact .nil
  | cons type rest ih =>
      constructor
      · intro h
        cases h with
        | @cons _ _ _ _ _ middle _ hcall hrest =>
            obtain ⟨calls'', middle⟩ := middle
            obtain ⟨rfl, hvisit⟩ := outcome_recorded_iff.mp hcall
            obtain ⟨rfl, hmore⟩ := ih.mp hrest
            exact ⟨List.append_assoc _ _ _, .cons hvisit hmore⟩
      · rintro ⟨rfl, h⟩
        cases h with
        | cons hcall hrest =>
            refine .cons (outcome_recorded_iff.mpr ⟨rfl, hcall⟩) (ih.mpr ⟨?_, hrest⟩)
            rw [List.append_assoc, List.singleton_append]

theorem stops_recorded_iff {calls : List Ty} {state after : σ} {error : ε} :
    (∃ visited, visit.recorded.Stops types visited ([], state) error (calls, after)) ↔
      visit.Stops types calls state error after := by
  constructor
  · rintro ⟨_, earlier, last, later, results, ⟨before, middle⟩, hsplit, rfl, hearlier, hlast⟩
    obtain ⟨rfl, hsucceeds⟩ := succeeds_recorded_iff.mp hearlier
    obtain ⟨rfl, hfails⟩ := outcome_recorded_iff.mp hlast
    exact ⟨before, last, later, results, middle, hsplit, rfl, hsucceeds, hfails⟩
  · rintro ⟨earlier, last, later, results, middle, hsplit, rfl, hsucceeds, hfails⟩
    exact ⟨_, earlier, last, later, results, (earlier, middle), hsplit, rfl,
      succeeds_recorded_iff.mpr ⟨rfl, hsucceeds⟩, outcome_recorded_iff.mpr ⟨rfl, hfails⟩⟩

end Visitor

namespace Ty

variable {ε σ : Type} {visit : Visitor ε σ} {type : Ty}

/-- A traversal succeeds if all its calls do, and puts their results into the form of the type. -/
theorem outcome_traverse_ok_iff {result : Ty} {state after : σ} :
    outcome (type.traverse visit) state = (.ok result, after) ↔
      SameForm type result ∧ visit.Succeeds type.children state result.children after := by
  rw [traverse_eq, outcome_map]
  constructor
  · intro h
    rcases hparts : outcome (type.children.mapM visit) state with ⟨error | parts, last⟩
    · rw [hparts] at h
      cases h
    · rw [hparts] at h
      cases h
      have hsucceeds := Visitor.outcome_mapM_ok_iff.mp hparts
      obtain ⟨hform, hchildren⟩ := withParts_spec hsucceeds.length_eq
      exact ⟨hform, hchildren.symm ▸ hsucceeds⟩
  · rintro ⟨hform, hsucceeds⟩
    obtain ⟨hform', hchildren⟩ := withParts_spec hsucceeds.length_eq
    have hresult := (hform'.symm.trans hform).eq_of_children hchildren
    rw [Visitor.outcome_mapM_ok_iff.mpr hsucceeds]
    exact congrArg (fun result => (Except.ok result, after)) hresult

/-- A traversal fails with the first call that does, and makes no further one. -/
theorem outcome_traverse_error_iff {error : ε} {state after : σ} :
    outcome (type.traverse visit) state = (.error error, after) ↔
      ∃ calls, visit.Stops type.children calls state error after := by
  rw [traverse_eq, outcome_map, ← Visitor.outcome_mapM_error_iff]
  rcases outcome (type.children.mapM visit) state with ⟨_ | parts, last⟩
  · constructor <;> rintro ⟨⟩ <;> rfl
  · constructor <;> rintro ⟨⟩

/-- **A traversal goes in order.** It calls the function on the immediate parts of the type, first to last.
If all calls succeed, the result has the form of the type, and its parts are the results of the calls; else
the traversal fails as the first call that fails, and in the state in which that call left it. The function
has then been called on all parts, or on those up to the one for which it failed, and on nothing else. So a
function that leaves every part as it is leaves the type as it is, and applying two functions one after the
other applies their composition. -/
theorem traverse_in_order (visit : Visitor ε σ) (type : Ty) (state : σ) :
    (∀ result after, outcome (type.traverse visit) state = (.ok result, after) ↔
      SameForm type result ∧ visit.Succeeds type.children state result.children after) ∧
    (∀ error after, outcome (type.traverse visit) state = (.error error, after) ↔
      ∃ calls, visit.Stops type.children calls state error after) ∧
    (∀ result calls after,
      outcome (type.traverse visit.recorded) ([], state) = (.ok result, (calls, after)) ↔
        calls = type.children ∧ outcome (type.traverse visit) state = (.ok result, after)) ∧
    (∀ error calls after,
      outcome (type.traverse visit.recorded) ([], state) = (.error error, (calls, after)) ↔
        visit.Stops type.children calls state error after) ∧
    (∀ f, SameForm type (type.mapChildren f) ∧ (type.mapChildren f).children = type.children.map f) ∧
    type.mapChildren id = type ∧
    ∀ f g, (type.mapChildren f).mapChildren g = type.mapChildren (g ∘ f) := by
  refine ⟨fun _ _ => outcome_traverse_ok_iff, fun _ _ => outcome_traverse_error_iff, fun _ _ _ => ?_,
    fun _ _ _ => ?_, fun f => mapChildren_spec f type, mapChildren_id type,
    fun f g => mapChildren_mapChildren f g type⟩
  · rw [outcome_traverse_ok_iff, outcome_traverse_ok_iff, Visitor.succeeds_recorded_iff, List.nil_append,
      and_left_comm]
  · rw [outcome_traverse_error_iff, Visitor.stops_recorded_iff]

/-- The second parameter is refused at the second call, and the result of the signature is not looked at. -/
example : outcome ((Ty.function [("a", .unknown), ("b", .object "B")] (.literal .null)).traverse
    fun type => do
      modify (· + 1)
      if type.isUnknown then return .union [] else throw type) 0 = (.error (Ty.object "B"), 2) := rfl

end Ty

/-! ### The walk through a type -/

namespace Walk

/-- What is left to do once the parts of a type are resolved: a union is made canonical. -/
def finish : Ty → Walk Ty
  | .union members => merge members
  | type => pure type

variable (symbol : SymbolId → Walk Ty)

theorem resolveEntries_eq (entries : List (Key × Ty)) :
    resolveEntries symbol entries =
      (entries.map Prod.fst).zip <$> (entries.map Prod.snd).mapM (resolve symbol) := by
  induction entries with
  | nil => simp [resolveEntries]
  | cons entry rest ih =>
      obtain ⟨key, type⟩ := entry
      simp [resolveEntries, ih]

theorem resolveParams_eq (params : List (String × Ty)) :
    resolveParams symbol params =
      (params.map Prod.fst).zip <$> (params.map Prod.snd).mapM (resolve symbol) := by
  induction params with
  | nil => simp [resolveParams]
  | cons param rest ih =>
      obtain ⟨name, type⟩ := param
      simp [resolveParams, ih]

theorem resolveMembers_eq (members : List Ty) :
    resolveMembers symbol members = members.mapM (resolve symbol) := by
  induction members with
  | nil => simp [resolveMembers]
  | cons member rest ih => simp [resolveMembers, ih]

/-- A walk through a type is the traversal that walks through its parts, so the parts are resolved from left
to right, each over the graph that the ones before have left. -/
theorem resolve_eq_traverse {type : Ty} (hreference : type.isReference = false) :
    resolve symbol type = type.traverse (resolve symbol) >>= finish := by
  cases type with
  | array entries =>
      rw [Ty.traverse_eq, resolve, resolveEntries_eq]
      simp [finish, Ty.withParts, Ty.children]
  | function params result =>
      rw [Ty.traverse_eq, resolve, resolveParams_eq]
      simp [finish, Ty.children]
  | union members =>
      rw [Ty.traverse_eq, resolve, resolveMembers_eq]
      simp [finish, Ty.withParts, Ty.children]
  | unknown | literal | object => simp [resolve, Ty.traverse, finish]
  | reference target chain => cases hreference

end Walk

end DeferredTypes
