import DeferredTypes.Proofs.Run

/-! Reading a journal: its counts add up over its parts, and they depend neither on the order of the
events nor on the positions noted in them. -/

namespace DeferredTypes

namespace Stats

theorem merge_assoc (first second third : Stats) :
    (first.merge second).merge third = first.merge (second.merge third) := by
  simp only [merge, Nat.add_assoc]

theorem merge_comm (left right : Stats) : left.merge right = right.merge left := by
  simp only [merge, Nat.add_comm]

theorem merge_zero (stats : Stats) : stats.merge {} = stats := rfl

theorem zero_merge (stats : Stats) : merge {} stats = stats := by rw [merge_comm, merge_zero]

theorem count_eq_merge (stats : Stats) (event : Event) :
    stats.count event = stats.merge (count {} event) := by
  cases event <;> rfl

theorem ofJournal_cons (event : Event) (journal : List Event) :
    ofJournal (event :: journal) = (count {} event).merge (ofJournal journal) := by
  have hfold : ∀ (events : List Event) (stats : Stats),
      events.foldl count stats = stats.merge (events.foldl count {}) := by
    intro events
    induction events with
    | nil => exact fun stats => rfl
    | cons first rest ih =>
        intro stats
        rw [List.foldl_cons, List.foldl_cons, ih, ih (count {} first), count_eq_merge stats,
          merge_assoc]
  exact hfold journal (count {} event)

/-- The counts of two journals add up. -/
theorem ofJournal_append (later earlier : List Event) :
    ofJournal (later ++ earlier) = (ofJournal later).merge (ofJournal earlier) := by
  induction later with
  | nil => exact (zero_merge _).symm
  | cons event rest ih => rw [List.cons_append, ofJournal_cons, ih, ofJournal_cons, merge_assoc]

end Stats

namespace Event

/-- The symbol whose type became final, if the event says so. -/
def stored? : Event → Option SymbolId
  | .stored id => some id
  | _ => none

def unplaced : Event → Event
  | .walked id _ => .walked id 0
  | .cut id _ => .cut id 0
  | event => event

/-- The event is a cut onto one of these symbols. -/
def cutsOnto (ids : List SymbolId) : Event → Bool
  | .cut id _ => id ∈ ids
  | _ => false

theorem mem_filterMap_stored? {events : List Event} {id : SymbolId} :
    id ∈ events.filterMap stored? ↔ .stored id ∈ events := by
  rw [List.mem_filterMap]
  constructor
  · rintro ⟨event, hevent, hid⟩
    cases event with
    | stored other =>
        obtain rfl := Option.some.inj hid
        exact hevent
    | seeded | walked | left | recalled | cut | missing | provisional => cases hid
  · intro hevent
    exact ⟨_, hevent, rfl⟩

theorem any_cutsOnto_nil (events : List Event) : events.any (cutsOnto []) = false := by
  refine List.any_eq_false.mpr fun event _ => ?_
  cases event <;> simp [cutsOnto]

end Event

namespace Stats

theorem writes_ofJournal (events : List Event) :
    (ofJournal events).writes = (events.filterMap Event.stored?).length := by
  induction events with
  | nil => rfl
  | cons event rest ih =>
      rw [ofJournal_cons, merge, ih]
      cases event <;> simp [count, Event.stored?, List.filterMap_cons, Nat.add_comm]

/-- Counts do not depend on the positions of the events. -/
theorem ofJournal_unplaced (events : List Event) :
    ofJournal (events.map Event.unplaced) = ofJournal events := by
  induction events with
  | nil => rfl
  | cons event rest ih =>
      rw [List.map_cons, ofJournal_cons, ofJournal_cons, ih]
      cases event <;> rfl

end Stats

end DeferredTypes
