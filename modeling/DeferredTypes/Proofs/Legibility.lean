import DeferredTypes.Proofs.CanonicalForm
import DeferredTypes.Proofs.NumeralText

/-! Types with a legible text. The names in them hold none of the marks that set the parts of a text apart,
and no name looks like something else. The text of such a type is a list of alternatives from left to
right, each behind a number of signatures. -/

namespace DeferredTypes

/-! ### Words and marks -/

/-- The characters that set the parts of a text apart. -/
def isMark (c : Char) : Bool := c ∈ ['|', ',', ':', ' ', '(', ')', '\x7b', '\x7d']

/-- The text of an integer begins so. -/
def startsInteger (c : Char) : Bool := c = '-' ∨ (Digit.ofChar? c).isSome

def Plain (text : List Char) : Prop := ∀ c ∈ text, isMark c = false

instance (text : List Char) : Decidable (Plain text) := List.decidableBAll _ text

/-- A name without marks that is not taken for an integer; identifiers are such, whatever their alphabet. -/
structure IsWord (text : String) : Prop where
  plain : Plain text.toList
  start : text.toList.head?.any fun c => !startsInteger c

instance (text : String) : Decidable (IsWord text) :=
  decidable_of_iff (Plain text.toList ∧ text.toList.head?.any fun c => !startsInteger c)
    ⟨fun h => ⟨h.1, h.2⟩, fun h => ⟨h.1, h.2⟩⟩

theorem Plain.exists_cons {text : List Char} {start : Char → Bool} (htext : Plain text)
    (hstart : text.head?.any start = true) : ∃ first others, text = first :: others ∧ isMark first = false := by
  cases text with
  | nil => cases hstart
  | cons first others => exact ⟨first, others, rfl, htext first List.mem_cons_self⟩

theorem IsWord.exists_cons {text : String} (htext : IsWord text) :
    ∃ first others, text.toList = first :: others ∧ isMark first = false :=
  htext.plain.exists_cons htext.start

/-- A text that does not go on with what stands before it. -/
def Marked (rest : List Char) : Prop := ∀ c ∈ rest.head?, isMark c = true

/-- What has no marks ends at the first mark. -/
theorem Plain.append_inj {text text' rest rest' : List Char} (htext : Plain text) (htext' : Plain text')
    (hrest : Marked rest) (hrest' : Marked rest') (h : text ++ rest = text' ++ rest') :
    text = text' ∧ rest = rest' := by
  induction text generalizing text' with
  | nil =>
      cases text' with
      | nil => exact ⟨rfl, h⟩
      | cons c' text' =>
          rw [List.nil_append] at h
          have hmark := hrest c' (by rw [h]; rfl)
          cases (htext' c' List.mem_cons_self).symm.trans hmark
  | cons c text ih =>
      cases text' with
      | nil =>
          rw [List.nil_append] at h
          have hmark := hrest' c (by rw [← h]; rfl)
          cases (htext c List.mem_cons_self).symm.trans hmark
      | cons c' text' =>
          obtain ⟨rfl, htails⟩ := List.cons.inj h
          obtain ⟨rfl, hrests⟩ := ih (fun d hd => htext d (List.mem_cons_of_mem _ hd))
            (fun d hd => htext' d (List.mem_cons_of_mem _ hd)) htails
          exact ⟨rfl, hrests⟩

theorem Digit.isMark_toChar : ∀ digit : Digit, isMark digit.toChar = false := by
  decide

theorem Digit.toChar_ne_minus : ∀ digit : Digit, digit.toChar ≠ '-' := by
  decide

theorem Digits.toList_text (digits : List Digit) : (text digits).toList = digits.map Digit.toChar :=
  String.toList_ofList

theorem toList_integerText (number : Int) :
    (integerText number).toList =
      (if number < 0 then ['-'] else []) ++ (Digits.ofNat number.natAbs).map Digit.toChar := by
  rw [integerText, String.toList_append, Digits.toList_text]
  split <;> rfl

theorem plain_integerText (number : Int) : Plain (integerText number).toList := by
  intro c hc
  rw [toList_integerText, List.mem_append] at hc
  rcases hc with hc | hc
  · split at hc
    · rw [List.mem_singleton.mp hc]
      rfl
    · cases hc
  · obtain ⟨digit, -, rfl⟩ := List.mem_map.mp hc
    exact digit.isMark_toChar

theorem head?_integerText (number : Int) : (integerText number).toList.head?.any startsInteger := by
  obtain ⟨first, others, hdigits⟩ := List.exists_cons_of_ne_nil (Digits.ofNat_ne_nil number.natAbs)
  rw [toList_integerText, hdigits]
  split
  · rfl
  · simp [startsInteger, Digit.ofChar?_toChar]

theorem map_toChar_inj {digits digits' : List Digit}
    (h : digits.map Digit.toChar = digits'.map Digit.toChar) : digits = digits' := by
  have hback : ∀ digits : List Digit, (digits.map Digit.toChar).filterMap Digit.ofChar? = digits := by
    intro digits
    rw [List.filterMap_map, show Digit.ofChar? ∘ Digit.toChar = some from funext Digit.ofChar?_toChar,
      List.filterMap_some]
  rw [← hback digits, h, hback]

theorem integerText_inj {number number' : Int} (h : integerText number = integerText number') :
    number = number' := by
  have hlist := congrArg String.toList h
  rw [toList_integerText, toList_integerText] at hlist
  -- The sign is told apart from the first digit, and the digits tell the absolute value.
  have habs : ∀ {n m : Nat},
      (Digits.ofNat n).map Digit.toChar = (Digits.ofNat m).map Digit.toChar → n = m := by
    intro n m hdigits
    rw [← Digits.value_ofNat n, map_toChar_inj hdigits, Digits.value_ofNat]
  have hsign : ∀ (n : Nat) (text : List Char), (Digits.ofNat n).map Digit.toChar ≠ '-' :: text := by
    intro n text hdigits
    obtain ⟨digit, -, hminus⟩ := List.mem_map.mp (hdigits ▸ List.mem_cons_self)
    exact digit.toChar_ne_minus hminus
  split at hlist <;> split at hlist
  · have := habs (List.cons.inj hlist).2
    omega
  · exact absurd hlist.symm (hsign _ _)
  · exact absurd hlist (hsign _ _)
  · have := habs hlist
    omega

/-! ### Legible types -/

/-- A key whose text tells it. -/
def Key.Legible : Key → Prop
  | .int _ => True
  | .string name => IsWord name

instance : (key : Key) → Decidable key.Legible
  | .int _ => .isTrue trivial
  | .string name => inferInstanceAs (Decidable (IsWord name))

theorem Key.Legible.plain {key : Key} (hkey : key.Legible) : Plain key.display.toList := by
  cases key with
  | int index => exact plain_integerText index.toInt
  | string name => exact IsWord.plain hkey

theorem Key.Legible.exists_cons {key : Key} (hkey : key.Legible) :
    ∃ first others, key.display.toList = first :: others ∧ isMark first = false := by
  cases key with
  | int index => exact (plain_integerText index.toInt).exists_cons (head?_integerText index.toInt)
  | string name => exact IsWord.exists_cons hkey

/-- A legible key is told by its text. -/
theorem Key.Legible.display_inj {key key' : Key} (hkey : key.Legible) (hkey' : key'.Legible)
    (h : key.display = key'.display) : key = key' := by
  have hmixed : ∀ (index : Int64) (name : String), IsWord name → integerText index.toInt ≠ name := by
    intro index name hname htext
    have hinteger := head?_integerText index.toInt
    have hword := hname.start
    obtain ⟨first, others, hlist, -⟩ := hname.exists_cons
    rw [htext, hlist, List.head?_cons, Option.any_some] at hinteger
    rw [hlist, List.head?_cons, Option.any_some, hinteger] at hword
    cases hword
  cases key with
  | int index =>
      cases key' with
      | int index' => rw [Int64.toInt_inj.mp (integerText_inj h)]
      | string name => exact absurd h (hmixed index name hkey')
  | string name =>
      cases key' with
      | int index => exact absurd h.symm (hmixed index name hkey)
      | string name' => rw [show name = name' from h]

namespace Ty

/-- The type itself is shown in full and under names that are words: it is no float and no class that is
called like something else, and a signature has no parameters. -/
def LegibleAtTop : Ty → Prop
  | .literal (.float _) => False
  | .literal (.string value) => IsWord value
  | .object owner => IsWord owner ∧ owner ≠ "unknown" ∧ owner ≠ "null"
  | .array entries => ∀ entry ∈ entries, entry.1.Legible
  | .function params _ => params = []
  | _ => True

instance : (type : Ty) → Decidable type.LegibleAtTop
  | .literal (.float _) => .isFalse id
  | .literal (.string value) => inferInstanceAs (Decidable (IsWord value))
  | .object owner => inferInstanceAs (Decidable (IsWord owner ∧ owner ≠ "unknown" ∧ owner ≠ "null"))
  | .array entries => inferInstanceAs (Decidable (∀ entry ∈ entries, entry.1.Legible))
  | .function params _ => inferInstanceAs (Decidable (params = []))
  | .literal (.int _) | .literal (.bool _) | .literal .null | .unknown | .union _ | .reference _ _ =>
      .isTrue trivial

/-- The canonical types that have a text, without floats and parameters, and with words as names. -/
structure Legible (type : Ty) : Prop where
  final : type.Final
  canonical : type.Canonical
  names : ∀ part ∈ type.subterms, part.LegibleAtTop

instance (type : Ty) : Decidable type.Legible :=
  decidable_of_iff (type.Final ∧ type.Canonical ∧ ∀ part ∈ type.subterms, part.LegibleAtTop)
    ⟨fun h => ⟨h.1, h.2.1, h.2.2⟩, fun h => ⟨h.1, h.2, h.3⟩⟩

namespace Legible

theorem child {type child : Ty} (htype : type.Legible) (hchild : child ∈ type.children) : child.Legible where
  final := ((final_iff type).mp htype.final).2 child hchild
  canonical := htype.canonical.child hchild
  names := ((forall_mem_subterms_iff _ type).mp htype.names).2 child hchild

theorem atTop {type : Ty} (htype : type.Legible) : type.LegibleAtTop :=
  htype.names type type.mem_subterms_self

theorem not_reference {type : Ty} (htype : type.Legible) : type.isReference = false :=
  ((final_iff type).mp htype.final).1

theorem params_eq {params : List (String × Ty)} {result : Ty} (h : (Ty.function params result).Legible) :
    params = [] := h.atTop

theorem result {params : List (String × Ty)} {result : Ty} (h : (Ty.function params result).Legible) :
    result.Legible :=
  h.child (List.mem_append_right _ List.mem_cons_self)

theorem members {members : List Ty} (h : (Ty.union members).Legible) :
    CanonicalMembers members ∧ ∀ member ∈ members, member.Legible :=
  ⟨h.canonical _ (mem_subterms_self _), fun _ hmember => h.child hmember⟩

theorem members_ne_nil {members : List Ty} (h : (Ty.union members).Legible) : members ≠ [] := by
  intro hnil
  have htwo := h.members.1.two_le
  rw [hnil] at htwo
  cases htwo

theorem entries {entries : List (Key × Ty)} (h : (Ty.array entries).Legible) :
    ∀ entry ∈ entries, entry.1.Legible ∧ entry.2.Legible :=
  fun entry hentry => ⟨h.atTop entry hentry, h.child (List.mem_map_of_mem hentry)⟩

end Legible

/-! ### Alternatives of a text -/

/-- One alternative of a text: how many signatures open in front of it, and what stands behind them. -/
structure Branch where
  heads : Nat
  core : Ty

/-- One more signature opens in front of the first alternative. -/
def openFirst : List Branch → List Branch
  | [] => []
  | first :: rest => { first with heads := first.heads + 1 } :: rest

mutual

/-- The alternatives of the text of a type from left to right. -/
def branches : Ty → List Branch
  | .function _ result => openFirst (branches result)
  | .union members => branchesOf members
  | .unknown => [⟨0, .unknown⟩]
  | .literal value => [⟨0, .literal value⟩]
  | .object owner => [⟨0, .object owner⟩]
  | .array entries => [⟨0, .array entries⟩]
  | .reference target chain => [⟨0, .reference target chain⟩]

def branchesOf : List Ty → List Branch
  | [] => []
  | type :: rest => branches type ++ branchesOf rest

end

/-- What a text shows behind signatures and between bars. -/
def isCore : Ty → Bool
  | .unknown | .literal _ | .object _ | .array _ => true
  | .function _ _ | .union _ | .reference _ _ => false

theorem exists_core_of_openFirst {first : List Branch} {branch : Branch} (h : branch ∈ openFirst first) :
    ∃ inner ∈ first, inner.core = branch.core := by
  cases first with
  | nil => cases h
  | cons inner rest =>
      rcases List.mem_cons.mp h with rfl | hrest
      · exact ⟨inner, List.mem_cons_self, rfl⟩
      · exact ⟨branch, List.mem_cons_of_mem _ hrest, rfl⟩

theorem branchesOf_eq_flatMap (members : List Ty) : branchesOf members = members.flatMap branches := by
  induction members with
  | nil => rfl
  | cons type rest ih => rw [branchesOf, ih, List.flatMap_cons]

/-- A property of the cores in the immediate parts of a type that is no core is one of its own cores. -/
theorem forall_core_of_children (good : Ty → Prop) {type : Ty} (hcore : type.isCore = true → good type)
    (hreference : type.isReference = false)
    (hchildren : ∀ child ∈ type.children, ∀ branch ∈ branches child, good branch.core) :
    ∀ branch ∈ branches type, good branch.core := by
  intro branch hbranch
  cases type with
  | function params result =>
      obtain ⟨inner, hinner, hinnercore⟩ := exists_core_of_openFirst (by rwa [branches] at hbranch)
      exact hinnercore ▸ hchildren result (List.mem_append_right _ List.mem_cons_self) inner hinner
  | union members =>
      rw [branches, branchesOf_eq_flatMap] at hbranch
      obtain ⟨member, hmember, hbranch⟩ := List.mem_flatMap.mp hbranch
      exact hchildren member hmember branch hbranch
  | unknown | literal _ | object _ | array _ =>
      rw [branches, List.mem_singleton] at hbranch
      exact hbranch ▸ hcore rfl
  | reference target chain => cases hreference

theorem legible_core {type : Ty} (htype : type.Legible) :
    ∀ branch ∈ branches type, branch.core.isCore = true ∧ branch.core.Legible := by
  induction type using children_induction with
  | step type ih =>
      exact forall_core_of_children (fun core => core.isCore = true ∧ core.Legible)
        (fun hcore => ⟨hcore, htype⟩) htype.not_reference
        fun child hchild => ih child hchild (htype.child hchild)

/-- The texts of signatures that open one after the other. -/
def headsText : Nat → List Char
  | 0 => []
  | heads + 1 => '(' :: ')' :: ':' :: ' ' :: headsText heads

def Branch.text (branch : Branch) : List Char := headsText branch.heads ++ branch.core.display.toList

/-- The alternatives with a bar in front of each. -/
def barred (branches : List Branch) : List Char := branches.flatMap fun branch => '|' :: branch.text

def barredTypes (types : List Ty) : List Char := types.flatMap fun type => '|' :: type.display.toList

theorem toList_displayMembers {members : List Ty} (hmembers : members ≠ []) :
    '|' :: (displayMembers members).toList = barredTypes members := by
  induction members with
  | nil => exact absurd rfl hmembers
  | cons type rest ih =>
      cases rest with
      | nil => simp [displayMembers, barredTypes]
      | cons next rest =>
          rw [displayMembers, String.toList_append, String.toList_append]
          · have htail := ih (List.cons_ne_nil next rest)
            simp only [barredTypes, List.flatMap_cons] at htail ⊢
            simp [htail]
          · intro hnext
            cases hnext

/-- A signature is written in front of the first alternative of its result. -/
theorem barred_openFirst {branches : List Branch} {text : List Char} (h : barred branches = '|' :: text) :
    barred (openFirst branches) = '|' :: ("(): ".toList ++ text) := by
  cases branches with
  | nil => cases h
  | cons first rest =>
      have htext : first.text ++ barred rest = text := (List.cons.inj h).2
      rw [← htext]
      rfl

/-- The alternatives of all members make up the text of a union. -/
theorem barred_flatMap {members : List Ty} {spread : Ty → List Branch}
    (hmembers : ∀ member ∈ members, barred (spread member) = '|' :: member.display.toList) :
    barred (members.flatMap spread) = barredTypes members := by
  rw [barred, barredTypes, List.flatMap_assoc]
  exact List.flatMap_congr hmembers

/-- The text of a type is that of its alternatives. -/
theorem barred_branches {type : Ty} (htype : type.Legible) :
    barred (branches type) = '|' :: type.display.toList := by
  induction type using children_induction with
  | step type ih =>
      cases type with
      | function params result =>
          have hresult := ih result (List.mem_append_right _ List.mem_cons_self) htype.result
          rw [branches, barred_openFirst hresult, display, String.toList_append]
      | union members =>
          rw [branches, branchesOf_eq_flatMap, display, toList_displayMembers htype.members_ne_nil]
          exact barred_flatMap fun member hmember => ih member hmember (htype.child hmember)
      | unknown | literal _ | object _ | array _ =>
          rw [branches, barred, List.flatMap_singleton]
          rfl
      | reference target chain => cases htype.not_reference

end Ty

end DeferredTypes
