import DeferredTypes.Proofs.Journal

/-! The low link of a resolution. It is kept as one number, saved when a symbol is opened and restored
when its walk ends; what it says is a fact about the events of the run. A cut closed below a position
exactly if some event cuts onto a symbol that is open below this position. So the type found for a
symbol is kept exactly if no event of its walk cuts onto a symbol that was open before. -/

namespace DeferredTypes

theorem Guard.position_lt_iff {guard : Guard SymbolId} {id : SymbolId} {position : Nat}
    (hposition : guard.position? id = some position) (bound : Nat) :
    position < bound ↔ id ∈ guard.stack.take bound := by
  rw [List.mem_take_iff_idxOf_lt (mem_of_position? hposition)]
  have hindex : guard.stack.idxOf id = position := by
    rw [List.idxOf_eq_getD_idxOf?, ← position?, hposition]
    rfl
  rw [hindex]

namespace Pass

theorem any_link (pass : Pass) (position : Option Nat) (bound : Nat) :
    (pass.link position).lowLink.any (· < bound) =
      (pass.lowLink.any (· < bound) || position.any (· < bound)) := by
  apply Option.any_merge
  intro left right
  rw [Bool.eq_iff_iff]
  simp only [decide_eq_true_eq, Bool.or_eq_true]
  omega

/-- Nothing is cut at the end of a walk, nor at its beginning. -/
theorem any_cutsOnto_closing (before inside : Pass) (id : SymbolId) (result : Except Halt Ty)
    (events : List Event) (ids : List SymbolId) :
    (before.closing id result inside ++ events ++ [Event.walked id before.guard.depth]).any
      (Event.cutsOnto ids) = events.any (Event.cutsOnto ids) := by
  have hclosing : (before.closing id result inside).any (Event.cutsOnto ids) = false := by
    unfold closing
    split
    · rfl
    · rfl
    · split <;> rfl
  rw [List.any_append, List.any_append, hclosing, Bool.false_or]
  exact Bool.or_false _

theorem closesBelow_of_provisional {before inside : Pass} {id other : SymbolId}
    {result : Except Halt Ty} (hevent : .provisional other ∈ before.closing id result inside) :
    ∃ type, result = .ok type ∧ inside.ClosesBelow before.guard.depth := by
  unfold closing at hevent
  rcases result with (error | fault) | type
  · simp at hevent
  · simp at hevent
  · by_cases hlink : inside.ClosesBelow before.guard.depth
    · exact ⟨type, rfl, hlink⟩
    · simp [hlink] at hevent

end Pass

theorem Event.any_cutsOnto_of_subset {events : List Event} {ids more : List SymbolId}
    (hsubset : ids ⊆ more) (hcut : events.any (Event.cutsOnto ids) = true) : events.any (Event.cutsOnto more) = true := by
  rw [List.any_eq_true] at hcut ⊢
  obtain ⟨event, hevent, hcut⟩ := hcut
  refine ⟨event, hevent, ?_⟩
  cases event with
  | cut id position =>
      simp only [Event.cutsOnto, decide_eq_true_eq] at hcut ⊢
      exact hsubset hcut
  | seeded | walked | left | recalled | missing | stored | provisional => cases hcut

namespace Task.Runs

variable {task : Task} {pass after : Pass} {events : List Event} {type : Ty}

/-- What the low link says after a run that ends well. -/
theorem any_lowLink (run : task.Runs pass (.ok type) events after) (bound : Nat)
    (hbound : bound ≤ pass.guard.depth) :
    after.lowLink.any (· < bound) =
      (pass.lowLink.any (· < bound) ||
        events.any (Event.cutsOnto (pass.guard.stack.take bound))) := by
  generalize hresult : Except.ok type = result at run
  induction run generalizing type bound with
  | unallocated | exhausted | refuse | halted => cases hresult
  | cut hposition =>
      have hcut := Guard.position_lt_iff hposition bound
      rw [Pass.cutAt]
      change ((Pass.link _ _).lowLink.any _) = _
      rw [Pass.any_link]
      simp [Event.cutsOnto, hcut]
  | recalled | answer => simp [Pass.record, Event.cutsOnto]
  | @walked pass id type result events inside hwaits _ _ ih =>
      subst hresult
      have hinside : ∀ bound ≤ pass.guard.depth, inside.lowLink.any (· < bound) =
          events.any (Event.cutsOnto (pass.guard.stack.take bound)) := by
        intro bound hbound
        have hstack : (pass.opened id).guard.stack.take bound = pass.guard.stack.take bound :=
          List.take_append_of_le_length hbound
        have hdepth : bound ≤ (pass.opened id).guard.depth := by
          rw [Guard.depth] at hbound ⊢
          simp only [Pass.opened, Pass.record, List.length_append]
          omega
        rw [ih bound hdepth rfl, hstack]
        rfl
      rw [Pass.any_cutsOnto_closing]
      by_cases hlink : inside.ClosesBelow pass.guard.depth
      · rw [Pass.settled, if_pos hlink]
        change (Pass.link _ _).lowLink.any _ = _
        rw [Pass.any_link, hinside bound hbound]
        rfl
      · have hnone : events.any (Event.cutsOnto (pass.guard.stack.take bound)) = false := by
          refine Bool.eq_false_iff.mpr fun hcut => hlink ?_
          rw [Pass.ClosesBelow, hinside _ (Nat.le_refl _)]
          exact Event.any_cutsOnto_of_subset (List.take_subset_take_left _ hbound) hcut
        rw [Pass.settled, if_neg hlink, hnone, Bool.or_false]
        rfl
  | missing _ _ ih =>
      rw [ih bound hbound hresult, List.any_append]
      simp [Event.cutsOnto, Pass.record]
  | found _ hsymbol _ ihsymbol ihrest =>
      have hstack := hsymbol.stack_eq (not_faulty_ok _)
      rw [ihrest bound (by rwa [Guard.depth, hstack]) hresult, ihsymbol bound hbound rfl, hstack,
        List.any_append, Bool.or_assoc, Bool.or_comm (List.any _ _)]

/-- The type found for a symbol is provisional exactly if an event of its walk cuts onto a symbol that
was open before. -/
theorem closesBelow_iff {id : SymbolId} (run : task.Runs (pass.opened id) (.ok type) events after) :
    after.ClosesBelow pass.guard.depth ↔
      events.any (Event.cutsOnto pass.guard.stack) = true := by
  have hstack : (pass.opened id).guard.stack.take pass.guard.depth = pass.guard.stack :=
    List.take_left
  have hdepth : pass.guard.depth ≤ (pass.opened id).guard.depth := by
    simp only [Guard.depth, Pass.opened, Pass.record, List.length_append]
    omega
  rw [Pass.ClosesBelow, run.any_lowLink _ hdepth, hstack]
  rfl

end Task.Runs

end DeferredTypes
