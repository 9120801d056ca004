/-! Finite maps listed in the order in which their keys were first written. A later write to a key
replaces its value and keeps its place, so the listing is part of the value of a map. -/

namespace DeferredTypes

/-- A finite map together with the order of its keys; no key is listed twice. -/
structure OrderedMap (α β : Type) where
  toList : List (α × β)
  nodup_keys : (toList.map Prod.fst).Nodup

namespace OrderedMap

variable {α β : Type}

/-- The keys in the order of their first writing. -/
def keys (map : OrderedMap α β) : List α :=
  map.toList.map Prod.fst

def empty : OrderedMap α β :=
  ⟨[], by simp⟩

instance : EmptyCollection (OrderedMap α β) := ⟨empty⟩

instance : Inhabited (OrderedMap α β) := ⟨empty⟩

theorem ext {left right : OrderedMap α β} (h : left.toList = right.toList) : left = right := by
  cases left
  cases right
  cases h
  rfl

instance [DecidableEq α] [DecidableEq β] : DecidableEq (OrderedMap α β) := fun left right =>
  decidable_of_iff (left.toList = right.toList) ⟨ext, fun h => h ▸ rfl⟩

variable [DecidableEq α]

def find? (map : OrderedMap α β) (key : α) : Option β :=
  map.toList.lookup key

def contains (map : OrderedMap α β) (key : α) : Bool :=
  (map.find? key).isSome

/-- Replaces the value of a key in place, or lists the key last if it is new. -/
def upsertList (key : α) (value : Option β → β) : List (α × β) → List (α × β)
  | [] => [(key, value none)]
  | (first, old) :: rest =>
      if first = key then (first, value (some old)) :: rest
      else (first, old) :: upsertList key value rest

theorem map_fst_upsertList (key : α) (value : Option β → β) (list : List (α × β)) :
    (upsertList key value list).map Prod.fst =
      if key ∈ list.map Prod.fst then list.map Prod.fst else list.map Prod.fst ++ [key] := by
  induction list with
  | nil => simp [upsertList]
  | cons entry rest ih =>
      obtain ⟨first, old⟩ := entry
      by_cases h : first = key
      · simp [upsertList, h]
      · simp only [upsertList, if_neg h, List.map_cons, ih, List.mem_cons, Ne.symm h, false_or]
        split <;> simp

/-- Replaces the value of a key by one that may depend on the value it had before. -/
def upsert (map : OrderedMap α β) (key : α) (value : Option β → β) : OrderedMap α β where
  toList := upsertList key value map.toList
  nodup_keys := by
    rw [map_fst_upsertList]
    split
    · exact map.nodup_keys
    · rename_i hkey
      refine List.nodup_append.mpr ⟨map.nodup_keys, by simp, ?_⟩
      intro left hleft right hright heq
      rw [List.mem_singleton.mp hright] at heq
      exact hkey (heq ▸ hleft)

/-- Writes a value; a key that is there already keeps its place. -/
def insert (map : OrderedMap α β) (key : α) (value : β) : OrderedMap α β :=
  map.upsert key fun _ => value

/-- All the writes of a list, first to last. -/
def ofList (entries : List (α × β)) : OrderedMap α β :=
  entries.foldl (fun map entry => map.insert entry.1 entry.2) empty

theorem keys_upsert (map : OrderedMap α β) (key : α) (value : Option β → β) :
    (map.upsert key value).keys = if key ∈ map.keys then map.keys else map.keys ++ [key] :=
  map_fst_upsertList key value map.toList

theorem upsertList_of_not_mem {key : α} {list : List (α × β)} (hkey : key ∉ list.map Prod.fst)
    (value : Option β → β) : upsertList key value list = list ++ [(key, value none)] := by
  induction list with
  | nil => rfl
  | cons entry rest ih =>
      rw [List.map_cons, List.mem_cons, not_or] at hkey
      rw [upsertList, if_neg (Ne.symm hkey.1), ih hkey.2, List.cons_append]

/-- A new key is listed last. -/
theorem toList_upsert_of_not_mem {map : OrderedMap α β} {key : α} (hkey : key ∉ map.keys)
    (value : Option β → β) : (map.upsert key value).toList = map.toList ++ [(key, value none)] :=
  upsertList_of_not_mem hkey value

theorem toList_foldl_insert (entries : List (α × β)) (map : OrderedMap α β)
    (hkeys : (map.keys ++ entries.map Prod.fst).Nodup) :
    (entries.foldl (fun map entry => map.insert entry.1 entry.2) map).toList = map.toList ++ entries := by
  induction entries generalizing map with
  | nil => exact (List.append_nil _).symm
  | cons entry rest ih =>
      have hentry : entry.1 ∉ map.keys := fun hmem =>
        (List.nodup_append.mp hkeys).2.2 _ hmem _ List.mem_cons_self rfl
      have hlist : (map.insert entry.1 entry.2).toList = map.toList ++ [entry] :=
        toList_upsert_of_not_mem hentry _
      have hgrown : (map.insert entry.1 entry.2).keys = map.keys ++ [entry.1] := by
        rw [keys, hlist, List.map_append]
        rfl
      rw [List.foldl_cons, ih, hlist, List.append_assoc]
      · rfl
      · rw [hgrown, List.append_assoc]
        exact hkeys

/-- A map is what comes of writing its listing. -/
theorem ofList_toList (map : OrderedMap α β) : ofList map.toList = map :=
  ext (toList_foldl_insert map.toList empty map.nodup_keys)

theorem find?_eq_none_iff (map : OrderedMap α β) (key : α) : map.find? key = none ↔ key ∉ map.keys := by
  simp only [find?, keys, List.lookup_eq_none_iff, List.mem_map, bne_iff_ne, not_exists, not_and]
  exact ⟨fun h entry hentry heq => h entry hentry heq.symm,
    fun h entry hentry heq => h entry hentry heq.symm⟩

theorem lookup_upsertList (key other : α) (value : Option β → β) (list : List (α × β)) :
    (upsertList key value list).lookup other =
      if other = key then some (value (list.lookup key)) else list.lookup other := by
  induction list with
  | nil =>
      by_cases h : other = key
      · simp [upsertList, h]
      · simp [upsertList, List.lookup_cons, h, beq_eq_false_iff_ne.mpr h]
  | cons entry rest ih =>
      obtain ⟨first, old⟩ := entry
      by_cases hfirst : first = key
      · subst hfirst
        by_cases h : other = first
        · simp [upsertList, h]
        · simp [upsertList, List.lookup_cons, h, beq_eq_false_iff_ne.mpr h]
      · have hkey := beq_eq_false_iff_ne.mpr (Ne.symm hfirst)
        by_cases h : other = first
        · subst h
          simp [upsertList, hfirst]
        · have hother := beq_eq_false_iff_ne.mpr h
          simp only [upsertList, if_neg hfirst, List.lookup_cons, hkey, hother, ih]

theorem find?_upsert (map : OrderedMap α β) (key other : α) (value : Option β → β) :
    (map.upsert key value).find? other =
      if other = key then some (value (map.find? key)) else map.find? other :=
  lookup_upsertList key other value map.toList

theorem find?_insert (map : OrderedMap α β) (key other : α) (value : β) :
    (map.insert key value).find? other = if other = key then some value else map.find? other :=
  find?_upsert map key other fun _ => value

end OrderedMap

end DeferredTypes
