import Mathlib.Data.Finset.Card
import DeferredTypes.Proofs.JsonText
import DeferredTypes.Proofs.Report

/-! The report as a JSON object. Its members are named by displayed paths, and a displayed path does not
tell a function from a method: symbols that are displayed alike share a member, which holds the text of the
last of them. -/

namespace DeferredTypes

namespace CommandLine

variable {entries : List Entry}

def members (entries : List Entry) : OrderedMap String Json.Value :=
  .ofList (entries.map fun entry => (entry.path.display, .string entry.rendered))

/-- Each name is listed once, where it first occurs. -/
theorem keys_members (entries : List Entry) :
    (members entries).keys = (entries.map fun entry => entry.path.display).eraseDups := by
  rw [members, OrderedMap.keys_ofList, List.map_map]
  rfl

/-- Of the entries with one name the last one is shown. -/
theorem find?_members (entries : List Entry) (name : String) :
    (members entries).find? name =
      (entries.reverse.find? fun entry => entry.path.display = name).map fun entry =>
        .string entry.rendered := by
  rw [members, OrderedMap.find?_ofList, ← List.map_reverse]
  exact lookup_map_eq_find? _ _ _ _

theorem printable_members (entries : List Entry) :
    (Json.Value.object (members entries).toList).Printable := by
  apply Json.Value.printableFields_of_forall
  intro field hfield
  have hfind := OrderedMap.mem_toList_iff.mp hfield
  rw [find?_members] at hfind
  obtain ⟨entry, -, hentry⟩ := Option.map_eq_some_iff.mp hfind
  rw [← hentry]
  trivial

/-- The report is read back as the object of its members. -/
theorem ofText?_formatOutput (entries : List Entry) :
    Json.Value.ofText? (formatOutput entries .json) = some (.object (members entries).toList) := by
  refine Json.Value.ofText?_text_append Json.Layout.setsApart_pretty (printable_members entries) "\n" ?_
  intro c hc
  have hnewline : "\n".toList = ['\n'] := rfl
  rw [hnewline, List.mem_singleton] at hc
  subst hc
  rfl

/-- There are as many members as selected symbols exactly if no two of these are displayed alike. -/
theorem length_members_iff (entries : List Entry) :
    (members entries).toList.length = (entries.map Entry.path).toFinset.card ↔
      ∀ left ∈ entries.map Entry.path, ∀ right ∈ entries.map Entry.path,
        left.display = right.display → left = right := by
  have hkeys : (members entries).keys.toFinset = (entries.map Entry.path).toFinset.image Path.display := by
    ext name
    simp [keys_members]
  have hlength : (members entries).toList.length = (members entries).keys.toFinset.card := by
    rw [OrderedMap.keys, List.toFinset_card_of_nodup (members entries).nodup_keys, List.length_map]
  rw [hlength, hkeys, Finset.card_image_iff]
  simp only [Set.InjOn, Finset.mem_coe, List.mem_toFinset]

/-- **What the report loses in a JSON object.** The members are the displayed paths of the selected symbols,
each once and in the order of the selection, and each holds the text of the last symbol that is displayed
so. There is a member for each symbol exactly if no two selected symbols are displayed alike, and a symbol
that shares its displayed path with no other selected one has a member with the text that stands in its
line of the text form. -/
theorem formatOutput_members {dump : Dump} {arguments : Arguments} {profile : Profile}
    (hreport : (outcome (resolveSelected arguments) (.start dump.toGraph profile)).1 = .ok entries) :
    formatOutput entries .text =
      String.join (entries.map fun entry => entry.path.display ++ ": " ++ entry.rendered ++ "\n") ∧
    ∃ fields, Json.Value.ofText? (formatOutput entries .json) = some (.object fields) ∧
      fields.map Prod.fst = ((dump.selection arguments).map Path.display).eraseDups ∧
      (∀ name, fields.lookup name =
        (entries.reverse.find? fun entry => entry.path.display = name).map fun entry =>
          .string entry.rendered) ∧
      (fields.length = (dump.selection arguments).toFinset.card ↔
        ∀ left ∈ dump.selection arguments, ∀ right ∈ dump.selection arguments,
          left.display = right.display → left = right) ∧
      ∀ entry ∈ entries,
        (∀ path ∈ dump.selection arguments, path.display = entry.path.display → path = entry.path) →
        fields.lookup entry.path.display = some (.string entry.rendered) := by
  rw [outcome_resolveSelected] at hreport
  rcases hrun : outcome (resolveEntries (dump.selection arguments)) (.start dump.toGraph profile) with
    ⟨result, after⟩
  rw [hrun] at hreport
  obtain rfl : result = .ok entries := hreport
  obtain ⟨-, hpaths, hholds⟩ := holds_of_resolveEntries dump.indexed_toGraph hrun
  rw [← hpaths]
  refine ⟨rfl, (members entries).toList, ofText?_formatOutput entries, ?_, find?_members entries,
    length_members_iff entries, ?_⟩
  · rw [List.map_map]
    exact keys_members entries
  · intro entry hentry hunique
    -- The entry itself is one that is displayed so; whichever is found has its path.
    obtain ⟨found, hfound⟩ : ∃ found,
        entries.reverse.find? (fun other => other.path.display = entry.path.display) = some found := by
      rw [← Option.isSome_iff_exists, List.find?_isSome]
      exact ⟨entry, List.mem_reverse.mpr hentry, decide_eq_true rfl⟩
    have hmem : found ∈ entries := List.mem_reverse.mp (List.mem_of_find?_eq_some hfound)
    have hdisplay : found.path.display = entry.path.display := by simpa using List.find?_some hfound
    have hpath := hunique found.path (List.mem_map_of_mem hmem) hdisplay
    have hmember := find?_members entries entry.path.display
    rw [hfound, Option.map_some, (hholds found hmem).rendered_eq (hholds entry hentry) hpath] at hmember
    exact hmember

/-- A function is asked for twice, another one was not declared, and a class has a method. -/
theorem formatOutput_members_repeated :
    let dump := (Dump.empty.addFunction "f" (.call (.method "A" "m"))).addMethod "A" "m" (.literal .null)
    let arguments : Arguments := ⟨"dump.json", ["f", "g", "f"], ["A"], none, none, .json⟩
    let entries : List Entry :=
      [⟨.function "f", "null"⟩, ⟨.function "g", "unknown"⟩, ⟨.function "f", "null"⟩, ⟨.method "A" "m", "null"⟩]
    (outcome (resolveSelected arguments) (.start dump.toGraph arguments.profile)).1 = .ok entries ∧
    ∃ fields, Json.Value.ofText? (formatOutput entries .json) = some (.object fields) ∧
      fields.map Prod.fst = ["f", "g", "A::m"] ∧ fields.length = 3 := by
  intro dump arguments entries
  have hreport : (outcome (resolveSelected arguments) (.start dump.toGraph arguments.profile)).1 =
      .ok entries := by decide +kernel
  obtain ⟨-, fields, hread, hnames, -, hlength, -⟩ := formatOutput_members hreport
  refine ⟨hreport, fields, hread, hnames.trans (by decide +kernel), ?_⟩
  rw [hlength.mpr (by decide +kernel)]
  decide +kernel

/-- A function that is named like a method: the text form has a line for each of the two, the object has
one member for both. -/
theorem formatOutput_members_displayed_alike :
    let dump := (Dump.empty.addFunction "A::m" (.literal (.int 1))).addMethod "A" "m" (.literal (.int 2))
    let arguments : Arguments := ⟨"dump.json", [], [], none, none, .json⟩
    let entries : List Entry := [⟨.function "A::m", "int(1)"⟩, ⟨.method "A" "m", "int(2)"⟩]
    (outcome (resolveSelected arguments) (.start dump.toGraph arguments.profile)).1 = .ok entries ∧
    formatOutput entries .text = "A::m: int(1)\nA::m: int(2)\n" ∧
    formatOutput entries .json = "\x7b\n  \"A::m\": \"int(2)\"\n\x7d\n" := by
  decide +kernel

end CommandLine

end DeferredTypes
