import Mathlib.Data.List.Induction
import DeferredTypes.OrderedMap

/-! Facts about lists and ordered maps that say nothing about types or symbols: lists that grow by items they
do not hold yet, association lists, and searches through lists of lists. -/

namespace DeferredTypes

/-! ### Lists without repetitions -/

section Repetitions

variable {α β : Type} [DecidableEq β]

/-- A list with one more item at its end, unless the item is there already or there is none. -/
def enlist (list : List β) : Option β → List β
  | none => list
  | some item => if item ∈ list then list else list ++ [item]

theorem eraseDups_append_singleton (list : List β) (item : β) :
    (list ++ [item]).eraseDups = enlist list.eraseDups (some item) := by
  rw [List.eraseDups_append, enlist]
  by_cases hitem : item ∈ list
  · have hnone : [item].removeAll list = [] := by simp [List.removeAll, hitem]
    rw [if_pos (List.mem_eraseDups.mpr hitem), hnone, List.eraseDups_nil, List.append_nil]
  · have hsome : [item].removeAll list = [item] := by simp [List.removeAll, hitem]
    rw [if_neg (mt List.mem_eraseDups.mp hitem), hsome]
    rfl

theorem eraseDups_filterMap_append (f : α → Option β) (list : List α) (last : α) :
    ((list ++ [last]).filterMap f).eraseDups = enlist (list.filterMap f).eraseDups (f last) := by
  rw [List.filterMap_append]
  cases hlast : f last with
  | none => simp [hlast, enlist]
  | some item =>
      have hsingle : [last].filterMap f = [item] := by simp [hlast]
      rw [hsingle, eraseDups_append_singleton]

theorem eraseDups_of_nodup {list : List β} (hlist : list.Nodup) : list.eraseDups = list := by
  induction list with
  | nil => rfl
  | cons first rest ih =>
      rw [List.nodup_cons] at hlist
      have hfilter : (rest.filter fun item => !item == first) = rest := by
        rw [List.filter_eq_self]
        intro item hitem
        have hne : item ≠ first := fun heq => hlist.1 (heq ▸ hitem)
        simp [hne]
      rw [List.eraseDups_cons, hfilter, ih hlist.2]

end Repetitions

/-! ### Searches -/

section Searches

variable {α β γ : Type}

/-- A list up to the first occurrence of an item. -/
theorem exists_eq_takeWhile_append [DecidableEq α] {item : α} {list : List α} (hitem : item ∈ list) :
    ∃ rest, list = list.takeWhile (· ≠ item) ++ item :: rest := by
  induction list with
  | nil => cases hitem
  | cons first list ih =>
      by_cases hfirst : first = item
      · exact ⟨list, by simp [hfirst]⟩
      · obtain ⟨rest, hrest⟩ := ih ((List.mem_cons.mp hitem).resolve_left (Ne.symm hfirst))
        refine ⟨rest, ?_⟩
        rw [List.takeWhile_cons_of_pos (by simpa using hfirst), List.cons_append, ← hrest]

theorem findSome?_flatMap (f : β → Option γ) (g : α → List β) (items : List α) :
    (items.flatMap g).findSome? f = items.findSome? fun item => (g item).findSome? f := by
  induction items with
  | nil => rfl
  | cons item rest ih =>
      rw [List.flatMap_cons, List.findSome?_append, ih, List.findSome?_cons]
      cases (g item).findSome? f <;> rfl

/-- What is written item by item is read item by item. -/
theorem mapM_map_eq_some {write : α → β} {read : β → Option α} {items : List α}
    (hitems : ∀ item ∈ items, read (write item) = some item) : (items.map write).mapM read = some items := by
  induction items with
  | nil => rfl
  | cons item rest ih =>
      have hrest := ih fun other hother => hitems other (List.mem_cons_of_mem item hother)
      rw [List.map_cons, List.mapM_cons, hitems item List.mem_cons_self, hrest]
      rfl

theorem lookup_map_eq_find? [DecidableEq β] (key : α → β) (value : α → γ) (list : List α) (name : β) :
    (list.map fun item => (key item, value item)).lookup name =
      (list.find? fun item => key item = name).map value := by
  induction list with
  | nil => rfl
  | cons item rest ih =>
      rw [List.map_cons, List.lookup_cons, List.find?_cons, ih]
      by_cases hname : key item = name
      · simp [hname]
      · simp [hname, beq_eq_false_iff_ne.mpr (Ne.symm hname)]

/-- The value of a key is the same wherever the key stands. -/
theorem lookup_map_self [DecidableEq α] (f : α → β) (list : List α) (key : α) :
    (list.map fun item => (item, f item)).lookup key = if key ∈ list then some (f key) else none := by
  induction list with
  | nil => rfl
  | cons first rest ih =>
      rw [List.map_cons, List.lookup_cons, ih]
      by_cases hkey : key = first
      · simp [hkey]
      · simp [hkey, beq_eq_false_iff_ne.mpr hkey]

end Searches

/-! ### Ordered maps -/

namespace OrderedMap

variable {α β : Type} [DecidableEq α]

theorem mem_toList_iff {map : OrderedMap α β} {key : α} {value : β} :
    (key, value) ∈ map.toList ↔ map.find? key = some value := by
  obtain ⟨list, hnodup⟩ := map
  rw [find?, List.lookup_eq_some_iff]
  constructor
  · intro hentry
    obtain ⟨before, behind, rfl⟩ := List.append_of_mem hentry
    refine ⟨before, behind, rfl, fun entry hmem => bne_iff_ne.mpr ?_⟩
    rintro rfl
    rw [List.map_append, List.nodup_append] at hnodup
    exact hnodup.2.2 _ (List.mem_map_of_mem hmem) _ List.mem_cons_self rfl
  · rintro ⟨before, behind, rfl, -⟩
    exact List.mem_append_right _ List.mem_cons_self

/-- Of a map, the part that lies under one key. -/
theorem flatMap_of_key {γ : Type} (map : OrderedMap α β) (key : α) (f : β → List γ) :
    map.toList.flatMap (fun (other, value) => if other = key then f value else []) =
      ((map.find? key).map f).getD [] := by
  obtain ⟨list, hnodup⟩ := map
  change list.flatMap _ = ((list.lookup key).map f).getD []
  induction list with
  | nil => rfl
  | cons entry rest ih =>
      obtain ⟨first, value⟩ := entry
      rw [List.map_cons, List.nodup_cons] at hnodup
      rw [List.flatMap_cons, ih hnodup.2, List.lookup_cons]
      by_cases hfirst : first = key
      · have hrest : rest.lookup key = none := by
          rw [List.lookup_eq_none_iff]
          intro entry hentry
          rw [bne_iff_ne, ← hfirst]
          intro heq
          exact hnodup.1 (List.mem_map.mpr ⟨entry, hentry, heq.symm⟩)
        simp [hfirst, hrest]
      · simp [hfirst, beq_eq_false_iff_ne.mpr (Ne.symm hfirst)]

/-- Writing to a key, seen through names that tell the keys apart. -/
theorem map_keys_insert {γ : Type} [DecidableEq γ] (map : OrderedMap α β) (key : α) (value : β) {f : α → γ}
    (hf : ∀ left right, f left = f right → left = right) :
    (map.insert key value).keys.map f = enlist (map.keys.map f) (some (f key)) := by
  have hmem : f key ∈ map.keys.map f ↔ key ∈ map.keys := by
    constructor
    · intro h
      obtain ⟨other, hother, heq⟩ := List.mem_map.mp h
      exact hf other key heq ▸ hother
    · exact List.mem_map_of_mem
  rw [insert, keys_upsert, enlist]
  by_cases hkey : key ∈ map.keys
  · rw [if_pos hkey, if_pos (hmem.mpr hkey)]
  · rw [if_neg hkey, if_neg (mt hmem.mp hkey), List.map_append]
    rfl

theorem ofList_append_singleton (entries : List (α × β)) (last : α × β) :
    ofList (entries ++ [last]) = (ofList entries).insert last.1 last.2 := by
  rw [ofList, List.foldl_append]
  rfl

/-- Keys are listed in the order of their first writing. -/
theorem keys_ofList (entries : List (α × β)) :
    (ofList entries).keys = (entries.map Prod.fst).eraseDups := by
  induction entries using List.reverseRecOn with
  | nil => rfl
  | append_singleton entries last ih =>
      rw [ofList_append_singleton, insert, keys_upsert, ih, List.map_append]
      exact (eraseDups_append_singleton _ _).symm

/-- The last write to a key counts. -/
theorem find?_ofList (entries : List (α × β)) (key : α) :
    (ofList entries).find? key = entries.reverse.lookup key := by
  induction entries using List.reverseRecOn with
  | nil => rfl
  | append_singleton entries last ih =>
      rw [ofList_append_singleton, find?_insert, ih, List.reverse_append, List.reverse_singleton,
        List.singleton_append, List.lookup_cons]
      by_cases hkey : key = last.1
      · simp [hkey]
      · simp [hkey, beq_eq_false_iff_ne.mpr hkey]

end OrderedMap

end DeferredTypes
