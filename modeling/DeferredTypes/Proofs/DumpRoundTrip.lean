import DeferredTypes.Dump.Reading
import DeferredTypes.Dump.Writing
import DeferredTypes.Proofs.Answers
import DeferredTypes.Proofs.JsonText

/-! Dumps and their JSON texts. Reading undoes writing: the text of a dump reads back as the dump, as long
as each of its doubles does and the text is not nested too deeply. Both limits are of the format. A double
that is not finite is written as null, and a few others are read as a neighbour. -/

namespace DeferredTypes

open Json (Value)

/-! ### Nesting -/

namespace Json.Value

mutual

/-- How many arrays and objects are open at once within a value, itself included. -/
def nesting : Value → Nat
  | .null | .bool _ | .number _ | .string _ | .unreadable => 0
  | .array items => nestingItems items + 1
  | .object fields => nestingFields fields + 1

def nestingItems : List Value → Nat
  | [] => 0
  | item :: rest => max (nesting item) (nestingItems rest)

def nestingFields : List (String × Value) → Nat
  | [] => 0
  | (_, value) :: rest => max (nesting value) (nestingFields rest)

end

theorem nesting_le_of_mem_items {value : Value} {items : List Value} (hmem : value ∈ items) :
    value.nesting ≤ nestingItems items := by
  induction items with
  | nil => cases hmem
  | cons item rest ih =>
      rw [nestingItems]
      rcases List.mem_cons.mp hmem with rfl | hmem
      · exact Nat.le_max_left _ _
      · exact Nat.le_trans (ih hmem) (Nat.le_max_right _ _)

theorem nesting_le_of_mem_fields {name : String} {value : Value} {fields : List (String × Value)}
    (hmem : (name, value) ∈ fields) : value.nesting ≤ nestingFields fields := by
  induction fields with
  | nil => cases hmem
  | cons field rest ih =>
      obtain ⟨name', value'⟩ := field
      rw [nestingFields]
      rcases List.mem_cons.mp hmem with heq | hmem
      · cases heq
        exact Nat.le_max_left _ _
      · exact Nat.le_trans (ih hmem) (Nat.le_max_right _ _)

end Json.Value

/-! ### Doubles -/

namespace Binary64

/-- The text of the number reads back as the number, bit by bit. -/
def ReadsBack (x : Binary64) : Prop :=
  (Value.ofText? (x.toValue.text .compact)).bind (Dump.Decoder.float .top) = some x

instance (x : Binary64) : Decidable x.ReadsBack := inferInstanceAs (Decidable (_ = _))

theorem printable_toValue (x : Binary64) : x.toValue.Printable := by
  unfold toValue
  cases hnumeral : Numeral.ofBinary64? x with
  | none => trivial
  | some numeral => exact Numeral.wellFormed_ofBinary64? hnumeral

/-- A number that reads back from its text is decoded from its value. -/
theorem ReadsBack.float {x : Binary64} (hx : x.ReadsBack) (site : Dump.Site) :
    Dump.Decoder.float site x.toValue = some x := by
  rw [ReadsBack, Value.ofText?_text Json.Layout.setsApart_compact x.printable_toValue] at hx
  unfold toValue at hx ⊢
  cases hnumeral : Numeral.ofBinary64? x with
  | none =>
      rw [hnumeral] at hx
      cases hx
  | some numeral =>
      rw [hnumeral] at hx
      exact hx

end Binary64

namespace Ty

def floats (type : Ty) : List Binary64 :=
  type.subterms.filterMap fun
    | .literal (.float x) => some x
    | _ => none

theorem floats_subset {type child : Ty} (hchild : child ∈ type.children) : child.floats ⊆ type.floats := by
  intro x hx
  obtain ⟨part, hpart, hfloat⟩ := List.mem_filterMap.mp hx
  exact List.mem_filterMap.mpr ⟨part, mem_subterms_of_child hchild hpart, hfloat⟩

/-! ### Texts of types -/

theorem printable_literal (literal : Literal) : literal.toValue.Printable := by
  cases literal with
  | int value => exact ⟨Digits.wellFormed_ofNat _, trivial⟩
  | float x => exact ⟨x.printable_toValue, trivial⟩
  | string _ | bool _ => exact ⟨trivial, trivial⟩
  | null => trivial

theorem printable_key (key : Key) : key.toValue.Printable := by
  cases key with
  | int index => exact Digits.wellFormed_ofNat _
  | string _ => trivial

theorem printable_path (path : Path) : path.toValue.Printable := by
  obtain ⟨owner, name⟩ := path
  cases owner with
  | none => exact ⟨trivial, trivial⟩
  | some owner => exact ⟨trivial, trivial, trivial⟩

theorem printable_chain (chain : List ChainOp) : Value.PrintableItems (chain.map ChainOp.toValue) := by
  induction chain with
  | nil => trivial
  | cons op rest ih =>
      cases op with
      | callResult => exact ⟨trivial, ih⟩
      | memberCall method => exact ⟨⟨trivial, trivial⟩, ih⟩

theorem printable_tagged {kind : String} {data : Value} (hdata : data.Printable) :
    (tagged kind data).Printable := ⟨trivial, hdata, trivial⟩

mutual

/-- Every type is written in a form that has a text. -/
theorem printable_toValue : (type : Ty) → type.toValue.Printable
  | .unknown => by
      rw [toValue]
      exact ⟨trivial, trivial⟩
  | .literal value => by
      rw [toValue]
      exact printable_tagged (printable_literal value)
  | .object owner => by
      rw [toValue]
      exact printable_tagged trivial
  | .array entries => by
      rw [toValue]
      exact printable_tagged (printable_entryValues entries)
  | .function params result => by
      rw [toValue]
      exact printable_tagged ⟨printable_paramValues params, printable_toValue result, trivial⟩
  | .union members => by
      rw [toValue]
      exact printable_tagged (printable_memberValues members)
  | .reference target chain => by
      rw [toValue]
      exact printable_tagged ⟨printable_path target, printable_chain chain, trivial⟩

theorem printable_entryValues : (entries : List (Key × Ty)) → Value.PrintableItems (entryValues entries)
  | [] => by
      rw [entryValues]
      trivial
  | (key, type) :: rest => by
      rw [entryValues]
      exact ⟨⟨printable_key key, printable_toValue type, trivial⟩, printable_entryValues rest⟩

theorem printable_paramValues : (params : List (String × Ty)) → Value.PrintableItems (paramValues params)
  | [] => by
      rw [paramValues]
      trivial
  | (name, type) :: rest => by
      rw [paramValues]
      exact ⟨⟨trivial, printable_toValue type, trivial⟩, printable_paramValues rest⟩

theorem printable_memberValues : (members : List Ty) → Value.PrintableItems (memberValues members)
  | [] => by
      rw [memberValues]
      trivial
  | type :: rest => by
      rw [memberValues]
      exact ⟨printable_toValue type, printable_memberValues rest⟩

end

end Ty

/-! ### Decoders -/

namespace Dump

open Decoder

variable {α : Type} {level depth : Nat} {aside : Bool}

/-- A map is read name by name. -/
theorem names_namesValue {item : Decoder α} {value : α → Value} {map : OrderedMap String α}
    (hitem : ∀ entry ∈ map.toList, item ⟨level, aside⟩ (value entry.2) = some entry.2) :
    names item ⟨level + 1, aside⟩ (namesValue value map) = some map := by
  simp only [names, namesValue, Site.inside?, Option.bind_eq_bind, Option.bind_some]
  rw [mapM_map_eq_some, Option.bind_some, Option.pure_def, OrderedMap.ofList_toList]
  intro entry hentry
  rw [hitem entry hentry]
  rfl

theorem literal_toValue {value : Literal} (hlevel : value.toValue.nesting ≤ level)
    (hfloat : ∀ x, value = .float x → x.ReadsBack) : literal ⟨level, aside⟩ value.toValue = some value := by
  cases value with
  | null => rfl
  | int value =>
      obtain ⟨level, rfl⟩ := Nat.exists_eq_add_of_le' hlevel
      change (Numeral.toInt64? (.ofInt value.toInt)).map Literal.int = _
      rw [Numeral.toInt64?_ofInt]
      rfl
  | float x =>
      have hpos : 0 < level := by
        simp only [Literal.toValue, Value.nesting] at hlevel
        omega
      obtain ⟨level, rfl⟩ := Nat.exists_eq_add_of_le' hpos
      change (Decoder.float ⟨level, aside⟩ x.toValue).map Literal.float = _
      rw [(hfloat x rfl).float]
      rfl
  | string text =>
      obtain ⟨level, rfl⟩ := Nat.exists_eq_add_of_le' hlevel
      rfl
  | bool value =>
      obtain ⟨level, rfl⟩ := Nat.exists_eq_add_of_le' hlevel
      rfl

theorem key_toValue (value : Key) (site : Site) : key site value.toValue = some value := by
  cases value with
  | int index =>
      change (Numeral.toInt64? (.ofInt index.toInt)).map Key.int = _
      rw [Numeral.toInt64?_ofInt]
      rfl
  | string name => rfl

theorem mapM_chain {chain : List ChainOp} (hlevel : Value.nestingItems (chain.map ChainOp.toValue) ≤ level) :
    (chain.map ChainOp.toValue).mapM (chainOp ⟨level, aside⟩) = some chain := by
  apply mapM_map_eq_some
  intro op hop
  have hnesting := Nat.le_trans (Value.nesting_le_of_mem_items (List.mem_map_of_mem hop)) hlevel
  cases op with
  | callResult => rfl
  | memberCall method =>
      obtain ⟨level, rfl⟩ := Nat.exists_eq_add_of_le' hnesting
      rfl

theorem path_toValue (value : Path) : path ⟨level + 1, aside⟩ value.toValue = some value := by
  obtain ⟨owner, name⟩ := value
  cases owner with
  | none => rfl
  | some owner => rfl

/-! ### Types -/

theorem nesting_tagged (kind : String) (data : Value) : (Ty.tagged kind data).nesting = data.nesting + 1 := by
  simp [Ty.tagged, Value.nesting, Value.nestingFields]

/-- The data of a type stand in one object more than the type, so that one level less suffices for them, and
one type less that may be nested. -/
theorem typeUpTo_tagged {kind : String} {data : Value} {type : Ty}
    (hdata : ∀ depth level, data.nesting ≤ depth → data.nesting ≤ level →
      typeWith (typeUpTo depth) ⟨level + 1, aside⟩ (Ty.tagged kind data) = some type) (depth level : Nat)
    (hdepth : (Ty.tagged kind data).nesting ≤ depth) (hlevel : (Ty.tagged kind data).nesting ≤ level) :
    typeUpTo depth ⟨level, aside⟩ (Ty.tagged kind data) = some type := by
  rw [nesting_tagged] at hdepth hlevel
  obtain ⟨depth, rfl⟩ : ∃ inner, depth = inner + 1 := ⟨depth - 1, by omega⟩
  obtain ⟨level, rfl⟩ : ∃ inner, level = inner + 1 := ⟨level - 1, by omega⟩
  exact hdata depth level (by omega) (by omega)

mutual

/-- The JSON form of a type is read as the type, wherever enough arrays and objects may be opened. -/
theorem typeUpTo_toValue : (type : Ty) → (∀ x ∈ type.floats, x.ReadsBack) → ∀ depth level : Nat,
    type.toValue.nesting ≤ depth → type.toValue.nesting ≤ level →
      typeUpTo depth ⟨level, aside⟩ type.toValue = some type
  | .unknown, _ => by
      intro depth level hdepth hlevel
      rw [Ty.toValue] at hdepth hlevel ⊢
      obtain ⟨depth, rfl⟩ := Nat.exists_eq_add_of_le' hdepth
      obtain ⟨level, rfl⟩ := Nat.exists_eq_add_of_le' hlevel
      rfl
  | .literal value, hfloats => by
      rw [Ty.toValue]
      apply typeUpTo_tagged
      intro depth level _ hlevel
      change (literal ⟨level, aside⟩ value.toValue).map Ty.literal = _
      rw [literal_toValue hlevel]
      · rfl
      · rintro x rfl
        exact hfloats x (by simp [Ty.floats, Ty.subterms])
  | .object owner, _ => by
      rw [Ty.toValue]
      apply typeUpTo_tagged
      intro depth level _ _
      rfl
  | .array entries, hfloats => by
      rw [Ty.toValue]
      apply typeUpTo_tagged
      intro depth level hdepth hlevel
      rw [Value.nesting] at hdepth hlevel
      obtain ⟨level, rfl⟩ : ∃ inner, level = inner + 1 := ⟨level - 1, by omega⟩
      change ((Ty.entryValues entries).mapM (entry (typeUpTo depth) ⟨level, aside⟩)).map Ty.array = _
      rw [mapM_entryValues entries _ depth level (by omega) (by omega)]
      · rfl
      · intro item hitem x hx
        exact hfloats x (Ty.floats_subset (List.mem_map_of_mem hitem) hx)
  | .function params result, hfloats => by
      have hparts : ∀ item ∈ params, ∀ x ∈ item.2.floats, x.ReadsBack := fun item hitem x hx =>
        hfloats x (Ty.floats_subset (List.mem_append_left _ (List.mem_map_of_mem hitem)) hx)
      have hlast : ∀ x ∈ result.floats, x.ReadsBack := fun x hx =>
        hfloats x (Ty.floats_subset (List.mem_append_right _ (List.mem_singleton_self result)) hx)
      rw [Ty.toValue]
      apply typeUpTo_tagged
      intro depth level hdepth hlevel
      simp only [Value.nesting, Value.nestingFields] at hdepth hlevel
      obtain ⟨level, rfl⟩ : ∃ inner, level = inner + 2 := ⟨level - 2, by omega⟩
      change (do
        let params ← (Ty.paramValues params).mapM (param (typeUpTo depth) ⟨level, aside⟩)
        let result ← typeUpTo depth ⟨level + 1, aside⟩ result.toValue
        return Ty.function params result) = _
      rw [mapM_paramValues params hparts depth level (by omega) (by omega),
        typeUpTo_toValue result hlast depth (level + 1) (by omega) (by omega)]
      rfl
  | .union members, hfloats => by
      rw [Ty.toValue]
      apply typeUpTo_tagged
      intro depth level hdepth hlevel
      rw [Value.nesting] at hdepth hlevel
      obtain ⟨level, rfl⟩ : ∃ inner, level = inner + 1 := ⟨level - 1, by omega⟩
      change ((Ty.memberValues members).mapM (typeUpTo depth ⟨level, aside⟩)).map Ty.union = _
      rw [mapM_memberValues members _ depth level (by omega) (by omega)]
      · rfl
      · intro member hmember x hx
        exact hfloats x (Ty.floats_subset hmember hx)
  | .reference target chain, _ => by
      rw [Ty.toValue]
      apply typeUpTo_tagged
      intro depth level _ hlevel
      simp only [Value.nesting, Value.nestingFields] at hlevel
      obtain ⟨level, rfl⟩ : ∃ inner, level = inner + 2 := ⟨level - 2, by omega⟩
      change (do
        let target ← path ⟨level + 1, aside⟩ target.toValue
        let chain ← (chain.map ChainOp.toValue).mapM (chainOp ⟨level, aside⟩)
        return Ty.reference target chain) = _
      rw [path_toValue, mapM_chain (by omega)]
      rfl

theorem mapM_entryValues : (entries : List (Key × Ty)) → (∀ item ∈ entries, ∀ x ∈ item.2.floats, x.ReadsBack) →
    ∀ depth level : Nat, Value.nestingItems (Ty.entryValues entries) ≤ depth →
      Value.nestingItems (Ty.entryValues entries) ≤ level →
      (Ty.entryValues entries).mapM (entry (typeUpTo depth) ⟨level, aside⟩) = some entries
  | [], _ => by
      intro depth level _ _
      rw [Ty.entryValues]
      rfl
  | (index, type) :: rest, hfloats => by
      intro depth level hdepth hlevel
      simp only [Ty.entryValues, Value.nestingItems, Value.nesting, Value.nestingFields] at hdepth hlevel
      have hrest := mapM_entryValues rest (fun item hitem => hfloats item (List.mem_cons_of_mem _ hitem))
        depth level (by omega) (by omega)
      obtain ⟨level, rfl⟩ : ∃ inner, level = inner + 1 := ⟨level - 1, by omega⟩
      have htype := typeUpTo_toValue type (hfloats _ List.mem_cons_self) depth level (by omega) (by omega)
      have hentry : entry (typeUpTo depth) ⟨level + 1, aside⟩
          (.object [("key", index.toValue), ("type", type.toValue)]) = some (index, type) := by
        change (do return (← key ⟨level, aside⟩ index.toValue, ← typeUpTo depth ⟨level, aside⟩ type.toValue)) = _
        rw [key_toValue, htype]
        rfl
      rw [Ty.entryValues, List.mapM_cons, hentry, hrest]
      rfl

theorem mapM_paramValues : (params : List (String × Ty)) → (∀ item ∈ params, ∀ x ∈ item.2.floats, x.ReadsBack) →
    ∀ depth level : Nat, Value.nestingItems (Ty.paramValues params) ≤ depth →
      Value.nestingItems (Ty.paramValues params) ≤ level →
      (Ty.paramValues params).mapM (param (typeUpTo depth) ⟨level, aside⟩) = some params
  | [], _ => by
      intro depth level _ _
      rw [Ty.paramValues]
      rfl
  | (name, type) :: rest, hfloats => by
      intro depth level hdepth hlevel
      simp only [Ty.paramValues, Value.nestingItems, Value.nesting, Value.nestingFields] at hdepth hlevel
      have hrest := mapM_paramValues rest (fun item hitem => hfloats item (List.mem_cons_of_mem _ hitem))
        depth level (by omega) (by omega)
      obtain ⟨level, rfl⟩ : ∃ inner, level = inner + 1 := ⟨level - 1, by omega⟩
      have htype := typeUpTo_toValue type (hfloats _ List.mem_cons_self) depth level (by omega) (by omega)
      have hparam : param (typeUpTo depth) ⟨level + 1, aside⟩
          (.object [("name", .string name), ("type", type.toValue)]) = some (name, type) := by
        change (do return (name, ← typeUpTo depth ⟨level, aside⟩ type.toValue)) = _
        rw [htype]
        rfl
      rw [Ty.paramValues, List.mapM_cons, hparam, hrest]
      rfl

theorem mapM_memberValues : (members : List Ty) → (∀ member ∈ members, ∀ x ∈ member.floats, x.ReadsBack) →
    ∀ depth level : Nat, Value.nestingItems (Ty.memberValues members) ≤ depth →
      Value.nestingItems (Ty.memberValues members) ≤ level →
      (Ty.memberValues members).mapM (typeUpTo depth ⟨level, aside⟩) = some members
  | [], _ => by
      intro depth level _ _
      rw [Ty.memberValues]
      rfl
  | type :: rest, hfloats => by
      intro depth level hdepth hlevel
      rw [Ty.memberValues, Value.nestingItems] at hdepth hlevel
      have htype := typeUpTo_toValue type (hfloats type List.mem_cons_self) depth level (by omega) (by omega)
      have hrest := mapM_memberValues rest (fun member hmember => hfloats member (List.mem_cons_of_mem type hmember))
        depth level (by omega) (by omega)
      rw [Ty.memberValues, List.mapM_cons, htype, hrest]
      rfl

end

/-! ### Dumps -/

/-- The types of a dump. -/
def types (dump : Dump) : List Ty :=
  dump.functions.toList.map Prod.snd ++
    dump.classes.toList.flatMap fun owner => owner.2.toList.map Prod.snd

def floats (dump : Dump) : List Binary64 := dump.types.flatMap Ty.floats

theorem printable_namesValue {value : α → Value} (hvalue : ∀ item, (value item).Printable)
    (map : OrderedMap String α) : (namesValue value map).Printable := by
  apply Value.printableFields_of_forall
  intro field hfield
  obtain ⟨entry, -, rfl⟩ := List.mem_map.mp hfield
  exact hvalue entry.2

theorem printable_toValue (dump : Dump) : dump.toValue.Printable :=
  ⟨printable_namesValue Ty.printable_toValue dump.functions,
    printable_namesValue (printable_namesValue Ty.printable_toValue) dump.classes, trivial⟩

theorem nesting_of_mem_namesValue {value : α → Value} {map : OrderedMap String α} {entry : String × α}
    (hentry : entry ∈ map.toList) : (value entry.2).nesting + 1 ≤ (namesValue value map).nesting := by
  rw [namesValue, Value.nesting]
  apply Nat.succ_le_succ
  exact Value.nesting_le_of_mem_fields (List.mem_map_of_mem hentry)

/-- The types of functions, or of the methods of a class, by name. -/
theorem names_type {map : OrderedMap String Ty} (hfloats : ∀ entry ∈ map.toList, ∀ x ∈ entry.2.floats, x.ReadsBack)
    (hlevel : (namesValue Ty.toValue map).nesting ≤ level) (hlimit : level ≤ nestingLimit) :
    names type ⟨level, aside⟩ (namesValue Ty.toValue map) = some map := by
  obtain ⟨level, rfl⟩ : ∃ inner, level = inner + 1 := by
    rw [namesValue, Value.nesting] at hlevel
    exact ⟨level - 1, by omega⟩
  apply names_namesValue
  intro entry hentry
  have hnesting : entry.2.toValue.nesting + 1 ≤ _ := nesting_of_mem_namesValue hentry
  exact typeUpTo_toValue entry.2 (hfloats entry hentry) nestingLimit level (by omega) (by omega)

/-- A dump is decoded from the value it is written as, unless this is nested too deeply. -/
theorem dump_toValue {dump : Dump} (hfloats : ∀ x ∈ dump.floats, x.ReadsBack)
    (hnesting : dump.toValue.nesting ≤ nestingLimit) : Dump.dump .top dump.toValue = some dump := by
  have hfunctions : ∀ entry ∈ dump.functions.toList, ∀ x ∈ entry.2.floats, x.ReadsBack := by
    intro entry hentry x hx
    exact hfloats x (List.mem_flatMap.mpr
      ⟨entry.2, List.mem_append_left _ (List.mem_map_of_mem hentry), hx⟩)
  have hmethods : ∀ owner ∈ dump.classes.toList, ∀ entry ∈ owner.2.toList, ∀ x ∈ entry.2.floats, x.ReadsBack := by
    intro owner howner entry hentry x hx
    exact hfloats x (List.mem_flatMap.mpr ⟨entry.2, List.mem_append_right _
      (List.mem_flatMap.mpr ⟨owner, howner, List.mem_map_of_mem hentry⟩), hx⟩)
  simp only [toValue, Value.nesting, Value.nestingFields, nestingLimit] at hnesting
  -- The text is one object, and each of the two maps in it is one more.
  have hread : names type ⟨126, false⟩ (namesValue Ty.toValue dump.functions) = some dump.functions :=
    names_type hfunctions (by omega) (by decide)
  have hclasses : names (names type) ⟨126, false⟩ (namesValue (namesValue Ty.toValue) dump.classes) =
      some dump.classes := by
    apply names_namesValue
    intro owner howner
    have hinner : (namesValue Ty.toValue owner.2).nesting + 1 ≤ _ := nesting_of_mem_namesValue howner
    exact names_type (hmethods owner howner) (by omega) (by decide)
  change (do
    let functions ← names type ⟨126, false⟩ (namesValue Ty.toValue dump.functions)
    let classes ← names (names type) ⟨126, false⟩ (namesValue (namesValue Ty.toValue) dump.classes)
    return Dump.mk functions classes) = _
  rw [hread, hclasses]
  rfl

/-- **A dump survives its text.** Whatever its names and its types are, the text of a dump is read back as
the dump: the same functions, classes, methods and types in the same order. Its doubles must read back one
by one, and its text must open no more arrays and objects at once than a reader allows. -/
theorem ofJson?_toJson {dump : Dump} (hfloats : ∀ x ∈ dump.floats, x.ReadsBack)
    (hnesting : dump.toValue.nesting ≤ nestingLimit) : ofJson? dump.toJson = some dump := by
  rw [ofJson?, toJson, Value.ofText?_text Json.Layout.setsApart_pretty dump.printable_toValue]
  exact dump_toValue hfloats hnesting

/-- Names that must be escaped, a key that looks like a number, unions within a union, parameters, calls
with and without an owner, two doubles and a class without methods. -/
theorem ofJson?_toJson_mixed :
    let entries : List (Key × Ty) :=
      [(.int (-1), .literal (.float ⟨0x3fe0000000000000⟩)),
        (.string "-1", .literal (.int (-9223372036854775808)))]
    let call := Ty.reference (.method "" "get") [.callResult, .memberCall "\"é\""]
    let main := Ty.function [("x\ny", .array entries), ("", .unknown)]
      (.union [.union [], .union [.literal .null], call])
    let methods := OrderedMap.ofList [("m", Ty.literal (.float ⟨0x3eb0c6f7a0b5ed8d⟩))]
    let dump : Dump :=
      ⟨.ofList [("main", main), ("a\\b", .call (.function "main"))], .ofList [("C", methods), ("Empty", ∅)]⟩
    (∀ x ∈ dump.floats, x.ReadsBack) ∧ dump.toValue.nesting ≤ nestingLimit ∧
      ofJson? dump.toJson = some dump := by
  intro entries call main methods dump
  have hfloats : ∀ x ∈ dump.floats, x.ReadsBack := by decide +kernel
  have hnesting : dump.toValue.nesting ≤ nestingLimit := by decide +kernel
  exact ⟨hfloats, hnesting, ofJson?_toJson hfloats hnesting⟩

end Dump

end DeferredTypes
