import DeferredTypes.Proofs.Legibility

/-! What the canonical text of a type tells. A text falls into its parts in one way, wherever it ends: the
entries of an array, the alternatives of a type, and the signatures in front of each. So types with the
same text have the same alternatives, whichever way these are put together to a type again. -/

namespace DeferredTypes.Ty

/-! ### Regrouping -/

def join : List Ty → Ty
  | [type] => type
  | types => .union types

mutual

/-- The alternatives of a type, those of each entry of an array put together again in the given way. -/
def spread (regroup : List Branch → List Ty) : Ty → List Branch
  | .function _ result => openFirst (spread regroup result)
  | .union members => spreadMembers regroup members
  | .unknown => [⟨0, .unknown⟩]
  | .literal value => [⟨0, .literal value⟩]
  | .object owner => [⟨0, .object owner⟩]
  | .array entries => [⟨0, .array (spreadEntries regroup entries)⟩]
  | .reference target chain => [⟨0, .reference target chain⟩]

def spreadEntries (regroup : List Branch → List Ty) : List (Key × Ty) → List (Key × Ty)
  | [] => []
  | (key, type) :: rest => (key, join (regroup (spread regroup type))) :: spreadEntries regroup rest

def spreadMembers (regroup : List Branch → List Ty) : List Ty → List Branch
  | [] => []
  | type :: rest => spread regroup type ++ spreadMembers regroup rest

end

/-- A type with all its alternatives put together again in the given way. -/
def regrouped (regroup : List Branch → List Ty) (type : Ty) : Ty := join (regroup (spread regroup type))

/-- What becomes of a core when the alternatives within it are regrouped. -/
def settleCore (regroup : List Branch → List Ty) : Ty → Ty
  | .array entries => .array (spreadEntries regroup entries)
  | type => type

def Branch.settle (regroup : List Branch → List Ty) (branch : Branch) : Branch :=
  { branch with core := settleCore regroup branch.core }

variable {regroup : List Branch → List Ty}

theorem map_settle_openFirst (branches : List Branch) :
    (openFirst branches).map (Branch.settle regroup) = openFirst (branches.map (Branch.settle regroup)) := by
  cases branches <;> rfl

theorem spreadEntries_eq_map (entries : List (Key × Ty)) :
    spreadEntries regroup entries = entries.map fun entry => (entry.1, entry.2.regrouped regroup) := by
  induction entries with
  | nil => rfl
  | cons entry rest ih => rw [spreadEntries, ih, List.map_cons, regrouped]

theorem spreadMembers_eq_flatMap (members : List Ty) :
    spreadMembers regroup members = members.flatMap (spread regroup) := by
  induction members with
  | nil => rfl
  | cons type rest ih => rw [spreadMembers, ih, List.flatMap_cons]

/-- Regrouping the entries of arrays leaves the alternatives as they are, their cores apart. -/
theorem spread_eq_map (type : Ty) : spread regroup type = (branches type).map (Branch.settle regroup) := by
  induction type using children_induction with
  | step type ih =>
      cases type with
      | function params result =>
          rw [spread, branches, ih result (List.mem_append_right _ List.mem_cons_self), map_settle_openFirst]
      | union members =>
          rw [spread, branches, spreadMembers_eq_flatMap, branchesOf_eq_flatMap, List.map_flatMap]
          exact List.flatMap_congr ih
      | unknown | literal _ | object _ | array _ | reference _ _ => rfl

/-! ### The parts of a text -/

/-- What may follow the text of an alternative. -/
def Bounded (rest : List Char) : Prop := ∀ c ∈ rest.head?, c = '|' ∨ c = ',' ∨ c = '\x7d'

/-- What may follow the text of a type within others. -/
def Ends (rest : List Char) : Prop := ∀ c ∈ rest.head?, c = ',' ∨ c = '\x7d'

theorem Ends.bounded {rest : List Char} (hrest : Ends rest) : Bounded rest :=
  fun c hc => .inr (hrest c hc)

theorem Ends.barred_append {rest : List Char} (hrest : Ends rest) (branches : List Branch) :
    Bounded (barred branches ++ rest) := by
  cases branches with
  | nil => exact hrest.bounded
  | cons branch others =>
      intro c hc
      exact .inl (Option.some.inj hc).symm

/-- The word at the beginning of the text of a core. -/
def word : Ty → String
  | .unknown => "unknown"
  | .literal (.int _) => "int"
  | .literal (.float _) => "float"
  | .literal (.string _) => "string"
  | .literal (.bool _) => "bool"
  | .literal .null => "null"
  | .object owner => owner
  | .array _ => "array"
  | .function _ _ | .union _ | .reference _ _ => ""

/-- The value of a literal, in parentheses behind the word. -/
def argument? : Ty → Option String
  | .literal (.int value) => some (integerText value.toInt)
  | .literal (.float value) => some value.display
  | .literal (.string value) => some value
  | .literal (.bool value) => some (if value then "true" else "false")
  | _ => none

def argumentText : Option String → List Char
  | none => []
  | some argument => '(' :: (argument.toList ++ [')'])

/-- The text of a core behind its word. -/
def enclosed : Ty → List Char
  | .array entries => '\x7b' :: ((displayEntries entries).toList ++ ['\x7d'])
  | type => argumentText type.argument?

theorem toList_display_of_isCore {core : Ty} (hcore : core.isCore = true) :
    core.display.toList = core.word.toList ++ core.enclosed := by
  cases core with
  | unknown | object _ | array _ =>
      simp [display, word, enclosed, argument?, argumentText]
  | literal value =>
      cases value <;> simp [display, Literal.display, word, enclosed, argument?, argumentText]
  | function _ _ | union _ | reference _ _ => cases hcore

theorem isWord_word {core : Ty} (hcore : core.isCore = true) (hlegible : core.Legible) :
    IsWord core.word := by
  cases core with
  | unknown | array _ =>
      rw [word]
      decide +kernel
  | object owner => exact hlegible.atTop.1
  | literal value => cases value <;> rw [word] <;> decide +kernel
  | function _ _ | union _ | reference _ _ => cases hcore

theorem plain_argument {core : Ty} (hlegible : core.Legible) {argument : String}
    (hargument : core.argument? = some argument) : Plain argument.toList := by
  cases core with
  | literal value =>
      cases value with
      | int value => exact Option.some.inj hargument ▸ plain_integerText value.toInt
      | float value => exact hlegible.atTop.elim
      | string value => exact Option.some.inj hargument ▸ IsWord.plain hlegible.atTop
      | bool value =>
          rw [← Option.some.inj hargument]
          cases value <;> decide +kernel
      | null => cases hargument
  | unknown | object _ | array _ | function _ _ | union _ | reference _ _ => cases hargument

/-- A literal is told by its word and its argument. -/
theorem literal_eq_of_word {value value' : Literal} (hlegible : (Ty.literal value).Legible)
    (hword : (Ty.literal value).word = (Ty.literal value').word)
    (hargument : (Ty.literal value).argument? = (Ty.literal value').argument?) : value = value' := by
  cases value with
  | int value =>
      cases value' with
      | int value' => rw [Int64.toInt_inj.mp (integerText_inj (Option.some.inj hargument))]
      | float _ | string _ | bool _ | null => simp [word] at hword
  | float value => exact hlegible.atTop.elim
  | string value =>
      cases value' with
      | string value' => rw [show value = value' from Option.some.inj hargument]
      | int _ | float _ | bool _ | null => simp [word] at hword
  | bool value =>
      cases value' with
      | bool value' => cases value <;> cases value' <;> simp [argument?] at hargument ⊢
      | int _ | float _ | string _ | null => simp [word] at hword
  | null =>
      cases value' with
      | null => rfl
      | int _ | float _ | string _ | bool _ => simp [word] at hword

/-- A core that looks like a class is one: no class is called like a type without a value. -/
theorem eq_object_of_word {core : Ty} {owner : String} (hcore : core.isCore = true)
    (harray : ∀ entries, core ≠ .array entries) (howner : (Ty.object owner).Legible)
    (hword : core.word = owner) (hargument : core.argument? = none) : core = .object owner := by
  obtain ⟨-, hunknown, hnull⟩ := howner.atTop
  cases core with
  | unknown => exact absurd hword.symm hunknown
  | literal value =>
      cases value with
      | null => exact absurd hword.symm hnull
      | int _ | float _ | string _ | bool _ => cases hargument
  | object other => rw [show other = owner from hword]
  | array entries => exact absurd rfl (harray entries)
  | function _ _ | union _ | reference _ _ => cases hcore

/-- Cores other than arrays are told by their word and what stands in parentheses. -/
theorem eq_of_word {core core' : Ty} (hcore : core.isCore = true) (hlegible : core.Legible)
    (hcore' : core'.isCore = true) (hlegible' : core'.Legible) (harray : ∀ entries, core ≠ .array entries)
    (harray' : ∀ entries, core' ≠ .array entries) (hword : core.word = core'.word)
    (hargument : core.argument? = core'.argument?) : core = core' := by
  cases core with
  | object owner => exact (eq_object_of_word hcore' harray' hlegible hword.symm hargument.symm).symm
  | unknown =>
      cases core' with
      | unknown => rfl
      | object owner => exact eq_object_of_word hcore harray hlegible' hword hargument
      | literal value => cases value <;> simp [word] at hword
      | array entries => exact absurd rfl (harray' entries)
      | function _ _ | union _ | reference _ _ => cases hcore'
  | literal value =>
      cases core' with
      | literal value' => rw [literal_eq_of_word hlegible hword hargument]
      | object owner => exact eq_object_of_word hcore harray hlegible' hword hargument
      | unknown => cases value <;> simp [word] at hword
      | array entries => exact absurd rfl (harray' entries)
      | function _ _ | union _ | reference _ _ => cases hcore'
  | array entries => exact absurd rfl (harray entries)
  | function _ _ | union _ | reference _ _ => cases hcore

theorem enclosed_of_ne_array {core : Ty} (harray : ∀ entries, core ≠ .array entries) :
    core.enclosed = argumentText core.argument? := by
  cases core with
  | array entries => exact absurd rfl (harray entries)
  | unknown | literal _ | object _ | function _ _ | union _ | reference _ _ => rfl

/-- Behind the word of a core stands a mark. -/
theorem marked_enclosed (core : Ty) {rest : List Char} (hrest : Bounded rest) :
    Marked (core.enclosed ++ rest) := by
  have hbounded : Marked rest := by
    intro c hc
    rcases hrest c hc with rfl | rfl | rfl <;> rfl
  by_cases harray : ∃ entries, core = .array entries
  · obtain ⟨entries, rfl⟩ := harray
    intro c hc
    rw [← Option.some.inj hc]
    rfl
  · rw [enclosed_of_ne_array fun entries h => harray ⟨entries, h⟩]
    cases core.argument? with
    | none => exact hbounded
    | some argument =>
        intro c hc
        rw [← Option.some.inj hc]
        rfl

/-- The word of a core is told by its text. -/
theorem word_append_inj {core core' : Ty} {rest rest' : List Char} (hcore : core.isCore = true)
    (hlegible : core.Legible) (hcore' : core'.isCore = true) (hlegible' : core'.Legible)
    (hrest : Bounded rest) (hrest' : Bounded rest')
    (h : core.display.toList ++ rest = core'.display.toList ++ rest') :
    core.word = core'.word ∧ core.enclosed ++ rest = core'.enclosed ++ rest' := by
  rw [toList_display_of_isCore hcore, toList_display_of_isCore hcore', List.append_assoc,
    List.append_assoc] at h
  obtain ⟨hword, henclosed⟩ := Plain.append_inj (isWord_word hcore hlegible).plain
    (isWord_word hcore' hlegible').plain (marked_enclosed core hrest) (marked_enclosed core' hrest') h
  exact ⟨String.toList_inj.mp hword, henclosed⟩

theorem argumentText_append_inj {argument argument' : Option String} {rest rest' : List Char}
    (hplain : ∀ text ∈ argument, Plain text.toList) (hplain' : ∀ text ∈ argument', Plain text.toList)
    (hrest : Bounded rest) (hrest' : Bounded rest')
    (h : argumentText argument ++ rest = argumentText argument' ++ rest') :
    argument = argument' ∧ rest = rest' := by
  have hopen : ∀ {rest : List Char} {text : List Char}, Bounded rest → rest ≠ '(' :: text := by
    intro rest text hrest h
    rcases hrest '(' (by rw [h]; rfl) with hc | hc | hc <;> cases hc
  cases argument with
  | none =>
      cases argument' with
      | none => exact ⟨rfl, h⟩
      | some text' => exact absurd h (hopen hrest)
  | some text =>
      cases argument' with
      | none => exact absurd h.symm (hopen hrest')
      | some text' =>
          simp only [argumentText, List.cons_append, List.append_assoc, List.cons.injEq, true_and] at h
          have hclose : ∀ rest : List Char, Marked ([')'] ++ rest) := by
            intro rest c hc
            rw [← Option.some.inj hc]
            rfl
          obtain ⟨htext, hrests⟩ := Plain.append_inj (hplain text rfl) (hplain' text' rfl) (hclose rest)
            (hclose rest') h
          exact ⟨congrArg some (String.toList_inj.mp htext), (List.cons.inj hrests).2⟩

/-- Only the text of an array goes on with a brace. -/
theorem enclosed_append_ne_brace {core : Ty} (harray : ∀ entries, core ≠ .array entries) {rest : List Char}
    (hrest : Bounded rest) (text : List Char) : core.enclosed ++ rest ≠ '\x7b' :: text := by
  rw [enclosed_of_ne_array harray]
  cases core.argument? with
  | none =>
      intro h
      rcases hrest '\x7b' (by rw [show rest = _ from h]; rfl) with hc | hc | hc <;> cases hc
  | some argument =>
      intro h
      cases (List.cons.inj h).1

/-! ### A text tells its alternatives -/

/-- A core is told by its text as far as regrouping goes, wherever the text ends. -/
def CoreTold (core : Ty) : Prop :=
  ∀ ⦃core' : Ty⦄ ⦃rest rest' : List Char⦄, core'.isCore = true → core'.Legible → Bounded rest → Bounded rest' →
    core.display.toList ++ rest = core'.display.toList ++ rest' →
      rest = rest' ∧ ∀ regroup, settleCore regroup core = settleCore regroup core'

/-- The same for the alternatives of a type. -/
def Told (type : Ty) : Prop :=
  ∀ ⦃type' : Ty⦄ ⦃rest rest' : List Char⦄, type'.Legible → Ends rest → Ends rest' →
    type.display.toList ++ rest = type'.display.toList ++ rest' →
      rest = rest' ∧ ∀ regroup, spread regroup type = spread regroup type'

theorem coreTold_of_ne_array {core : Ty} (hcore : core.isCore = true) (hlegible : core.Legible)
    (harray : ∀ entries, core ≠ .array entries) : core.CoreTold := by
  intro core' rest rest' hcore' hlegible' hrest hrest' h
  obtain ⟨hword, henclosed⟩ := word_append_inj hcore hlegible hcore' hlegible' hrest hrest' h
  by_cases harray' : ∃ entries, core' = .array entries
  · obtain ⟨entries, rfl⟩ := harray'
    exact absurd henclosed (enclosed_append_ne_brace harray hrest _)
  · have hne : ∀ entries, core' ≠ .array entries := fun entries h => harray' ⟨entries, h⟩
    rw [enclosed_of_ne_array harray, enclosed_of_ne_array hne] at henclosed
    obtain ⟨hargument, hrests⟩ := argumentText_append_inj (fun _ => plain_argument hlegible)
      (fun _ => plain_argument hlegible') hrest hrest' henclosed
    refine ⟨hrests, fun regroup => ?_⟩
    rw [eq_of_word hcore hlegible hcore' hlegible' harray hne hword hargument]

/-- Signatures that open are told apart from what stands behind them. -/
theorem headsText_append_inj {heads heads' : Nat} {rest rest' : List Char} (hrest : rest.head? ≠ some '(')
    (hrest' : rest'.head? ≠ some '(') (h : headsText heads ++ rest = headsText heads' ++ rest') :
    heads = heads' ∧ rest = rest' := by
  induction heads generalizing heads' with
  | zero =>
      cases heads' with
      | zero => exact ⟨rfl, h⟩
      | succ heads' => exact absurd (congrArg List.head? h) hrest
  | succ heads ih =>
      cases heads' with
      | zero => exact absurd (congrArg List.head? h.symm) hrest'
      | succ heads' =>
          simp only [headsText, List.cons_append, List.cons.injEq, true_and] at h
          obtain ⟨rfl, hrests⟩ := ih h
          exact ⟨rfl, hrests⟩

theorem head?_display_ne {core : Ty} (hcore : core.isCore = true) (hlegible : core.Legible)
    (rest : List Char) : (core.display.toList ++ rest).head? ≠ some '(' := by
  obtain ⟨first, others, hword, hfirst⟩ := (isWord_word hcore hlegible).exists_cons
  rw [toList_display_of_isCore hcore, hword]
  intro h
  rw [show first = '(' from Option.some.inj h] at hfirst
  cases hfirst

/-- Alternatives are told by their text if their cores are. -/
theorem barred_append_inj {branches branches' : List Branch} {rest rest' : List Char}
    (hbranches : ∀ branch ∈ branches, branch.core.isCore = true ∧ branch.core.Legible)
    (htold : ∀ branch ∈ branches, branch.core.CoreTold)
    (hbranches' : ∀ branch ∈ branches', branch.core.isCore = true ∧ branch.core.Legible)
    (hrest : Ends rest) (hrest' : Ends rest') (h : barred branches ++ rest = barred branches' ++ rest') :
    rest = rest' ∧ ∀ regroup, branches.map (Branch.settle regroup) = branches'.map (Branch.settle regroup) := by
  have hbar : ∀ {rest text : List Char}, Ends rest → rest ≠ '|' :: text := by
    intro rest text hrest h
    rcases hrest '|' (by rw [h]; rfl) with hc | hc <;> cases hc
  -- What follows an alternative begins with a bar or ends the type, so that both sides go on alike.
  induction branches generalizing branches' with
  | nil =>
      cases branches' with
      | nil => exact ⟨h, fun _ => rfl⟩
      | cons branch' others' => exact absurd h (hbar hrest)
  | cons branch others ih =>
      cases branches' with
      | nil => exact absurd h.symm (hbar hrest')
      | cons branch' others' =>
          obtain ⟨hcore, hlegible⟩ := hbranches branch List.mem_cons_self
          obtain ⟨hcore', hlegible'⟩ := hbranches' branch' List.mem_cons_self
          simp only [barred, List.flatMap_cons, List.cons_append, List.append_assoc, Branch.text,
            List.cons.injEq, true_and] at h
          obtain ⟨hheads, hcores⟩ := headsText_append_inj (head?_display_ne hcore hlegible _)
            (head?_display_ne hcore' hlegible' _) h
          obtain ⟨hothers, hsettled⟩ := htold branch List.mem_cons_self hcore' hlegible'
            (hrest.barred_append others) (hrest'.barred_append others') hcores
          obtain ⟨hrests, hmaps⟩ := ih (fun b hb => hbranches b (List.mem_cons_of_mem _ hb))
            (fun b hb => htold b (List.mem_cons_of_mem _ hb))
            (fun b hb => hbranches' b (List.mem_cons_of_mem _ hb)) hothers
          refine ⟨hrests, fun regroup => ?_⟩
          rw [List.map_cons, List.map_cons, hmaps regroup, Branch.settle, Branch.settle, hheads,
            hsettled regroup]

/-- A type is told if the cores of its alternatives are. -/
theorem told_of_cores {type : Ty} (htype : type.Legible)
    (hcores : ∀ branch ∈ branches type, branch.core.CoreTold) : type.Told := by
  intro type' rest rest' htype' hrest hrest' h
  have hbarred : barred (branches type) ++ rest = barred (branches type') ++ rest' := by
    rw [barred_branches htype, barred_branches htype']
    exact congrArg ('|' :: ·) h
  obtain ⟨hrests, hmaps⟩ := barred_append_inj (legible_core htype) hcores (legible_core htype')
    hrest hrest' hbarred
  refine ⟨hrests, fun regroup => ?_⟩
  rw [spread_eq_map type, spread_eq_map type', hmaps regroup]

/-- The entries with a comma in front of each. -/
def listed (entries : List (Key × Ty)) : List Char :=
  entries.flatMap fun entry =>
    ',' :: ' ' :: (entry.1.display.toList ++ (':' :: ' ' :: entry.2.display.toList))

theorem toList_displayEntries {entries : List (Key × Ty)} (hentries : entries ≠ []) :
    ',' :: ' ' :: (displayEntries entries).toList = listed entries := by
  induction entries with
  | nil => exact absurd rfl hentries
  | cons entry rest ih =>
      obtain ⟨key, type⟩ := entry
      cases rest with
      | nil => simp [displayEntries, listed]
      | cons next rest =>
          have htail := ih (List.cons_ne_nil next rest)
          rw [displayEntries]
          · simp only [listed, List.flatMap_cons] at htail ⊢
            simp [← htail]
          · intro hnext
            cases hnext

/-- Entries are told by their text if their types are. -/
theorem listed_append_inj {entries entries' : List (Key × Ty)} {rest rest' : List Char}
    (hentries : ∀ entry ∈ entries, entry.1.Legible ∧ entry.2.Told)
    (hentries' : ∀ entry ∈ entries', entry.1.Legible ∧ entry.2.Legible)
    (h : listed entries ++ '\x7d' :: rest = listed entries' ++ '\x7d' :: rest') :
    rest = rest' ∧ ∀ regroup, spreadEntries regroup entries = spreadEntries regroup entries' := by
  have hends : ∀ (entries : List (Key × Ty)) (rest : List Char), Ends (listed entries ++ '\x7d' :: rest) := by
    intro entries rest c hc
    cases entries with
    | nil => exact .inr (Option.some.inj hc).symm
    | cons entry others => exact .inl (Option.some.inj hc).symm
  have hcolon : ∀ text : List Char, Marked (':' :: text) := by
    intro text c hc
    rw [← Option.some.inj hc]
    rfl
  induction entries generalizing entries' with
  | nil =>
      cases entries' with
      | nil => exact ⟨(List.cons.inj h).2, fun _ => rfl⟩
      | cons entry' others' => cases (List.cons.inj h).1
  | cons entry others ih =>
      cases entries' with
      | nil => cases (List.cons.inj h).1
      | cons entry' others' =>
          obtain ⟨hkey, htype⟩ := hentries entry List.mem_cons_self
          obtain ⟨hkey', htype'⟩ := hentries' entry' List.mem_cons_self
          simp only [listed, List.flatMap_cons, List.cons_append, List.append_assoc, List.cons.injEq,
            true_and] at h
          obtain ⟨hkeys, htypes⟩ := Plain.append_inj hkey.plain hkey'.plain (hcolon _) (hcolon _) h
          simp only [List.cons.injEq, true_and] at htypes
          obtain ⟨hothers, hspread⟩ := htype htype' (hends others rest) (hends others' rest') htypes
          obtain ⟨hrests, hentries⟩ := ih (fun e he => hentries e (List.mem_cons_of_mem _ he))
            (fun e he => hentries' e (List.mem_cons_of_mem _ he)) hothers
          refine ⟨hrests, fun regroup => ?_⟩
          rw [spreadEntries, spreadEntries, hkey.display_inj hkey' (String.toList_inj.mp hkeys),
            hspread regroup, hentries regroup]

theorem exists_cons_displayEntries {entry : Key × Ty} (hentry : entry.1.Legible) (others : List (Key × Ty)) :
    ∃ first text, (displayEntries (entry :: others)).toList = first :: text ∧ isMark first = false := by
  obtain ⟨first, text, hkey, hfirst⟩ := hentry.exists_cons
  have htext := toList_displayEntries (List.cons_ne_nil entry others)
  rw [listed, List.flatMap_cons, hkey] at htext
  simp only [List.cons_append, List.cons.injEq, true_and] at htext
  exact ⟨first, _, htext, hfirst⟩

theorem displayEntries_append_inj {entries entries' : List (Key × Ty)} {rest rest' : List Char}
    (hentries : ∀ entry ∈ entries, entry.1.Legible ∧ entry.2.Told)
    (hentries' : ∀ entry ∈ entries', entry.1.Legible ∧ entry.2.Legible)
    (h : (displayEntries entries).toList ++ '\x7d' :: rest =
      (displayEntries entries').toList ++ '\x7d' :: rest') :
    rest = rest' ∧ ∀ regroup, spreadEntries regroup entries = spreadEntries regroup entries' := by
  have hbrace : ∀ {entry : Key × Ty} {others : List (Key × Ty)} {text rest : List Char},
      entry.1.Legible → (displayEntries (entry :: others)).toList ++ text ≠ '\x7d' :: rest := by
    intro entry others text rest hentry h
    obtain ⟨first, more, htext, hfirst⟩ := exists_cons_displayEntries hentry others
    rw [htext] at h
    rw [(List.cons.inj h).1] at hfirst
    cases hfirst
  cases entries with
  | nil =>
      cases entries' with
      | nil => exact ⟨(List.cons.inj h).2, fun _ => rfl⟩
      | cons entry' others' => exact absurd h.symm (hbrace (hentries' entry' List.mem_cons_self).1)
  | cons entry others =>
      cases entries' with
      | nil => exact absurd h (hbrace (hentries entry List.mem_cons_self).1)
      | cons entry' others' =>
          refine listed_append_inj hentries hentries' ?_
          rw [← toList_displayEntries (List.cons_ne_nil entry others),
            ← toList_displayEntries (List.cons_ne_nil entry' others')]
          simpa using h

theorem coreTold_array {entries : List (Key × Ty)} (hlegible : (Ty.array entries).Legible)
    (htold : ∀ entry ∈ entries, entry.2.Told) : (Ty.array entries).CoreTold := by
  intro core' rest rest' hcore' hlegible' hrest hrest' h
  obtain ⟨-, henclosed⟩ := word_append_inj rfl hlegible hcore' hlegible' hrest hrest' h
  by_cases harray : ∃ entries', core' = .array entries'
  · obtain ⟨entries', rfl⟩ := harray
    simp only [enclosed, List.cons_append, List.append_assoc, List.nil_append, List.cons.injEq,
      true_and] at henclosed
    obtain ⟨hrests, hentries⟩ := displayEntries_append_inj
      (fun entry hentry => ⟨(hlegible.entries entry hentry).1, htold entry hentry⟩) hlegible'.entries henclosed
    refine ⟨hrests, fun regroup => ?_⟩
    rw [settleCore, settleCore, hentries regroup]
  · exact absurd henclosed.symm
      (enclosed_append_ne_brace (fun entries' h => harray ⟨entries', h⟩) hrest' _)

theorem coreTold_of_legible {type : Ty} (htype : type.Legible) :
    ∀ branch ∈ branches type, branch.core.CoreTold := by
  induction type using children_induction with
  | step type ih =>
      refine forall_core_of_children CoreTold (fun hcore => ?_) htype.not_reference fun child hchild =>
        ih child hchild (htype.child hchild)
      by_cases harray : ∃ entries, type = .array entries
      · obtain ⟨entries, rfl⟩ := harray
        refine coreTold_array htype fun entry hentry => ?_
        have hchild := List.mem_map_of_mem (f := Prod.snd) hentry
        exact told_of_cores (htype.child hchild) (ih entry.2 hchild (htype.child hchild))
      · exact coreTold_of_ne_array hcore htype fun entries h => harray ⟨entries, h⟩

/-- Types with the same text have the same alternatives. -/
theorem spread_eq_of_display_eq {type type' : Ty} (htype : type.Legible) (htype' : type'.Legible)
    (h : type.display = type'.display) (regroup : List Branch → List Ty) :
    spread regroup type = spread regroup type' := by
  have hnil : Ends [] := by
    intro c hc
    cases hc
  exact (told_of_cores htype (coreTold_of_legible htype) htype' hnil hnil (by rw [h])).2 regroup

end DeferredTypes.Ty
