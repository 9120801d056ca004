import DeferredTypes.Resolution.Walk

/-! What an action gives from a state. Resolutions, the requests to a resolver, the reports about a program
and the functions that a traversal calls are actions of one kind: they may change a state and may fail, and
what they did to the state stands when they fail. -/

namespace DeferredTypes

variable {ε σ α β : Type}

/-- The result of an action from a state, and the state it leaves. -/
def outcome (action : ExceptT ε (StateM σ) α) (state : σ) : Except ε α × σ :=
  StateT.run action.run state

theorem outcome_bind (action : ExceptT ε (StateM σ) α) (next : α → ExceptT ε (StateM σ) β) (state : σ) :
    outcome (action >>= next) state =
      match outcome action state with
      | (.ok value, after) => outcome (next value) after
      | (.error error, after) => (.error error, after) := by
  change StateT.run (ExceptT.run (action >>= next)) state = _
  rw [ExceptT.run_bind, StateT.run_bind, outcome]
  rcases StateT.run action.run state with ⟨_ | _, _⟩ <;> rfl

section

variable {action : ExceptT ε (StateM σ) α} {state middle : σ}

theorem outcome_bind_of_ok {value : α} (haction : outcome action state = (.ok value, middle))
    (next : α → ExceptT ε (StateM σ) β) : outcome (action >>= next) state = outcome (next value) middle := by
  rw [outcome_bind, haction]

theorem outcome_bind_of_error {error : ε} (haction : outcome action state = (.error error, middle))
    (next : α → ExceptT ε (StateM σ) β) : outcome (action >>= next) state = (.error error, middle) := by
  rw [outcome_bind, haction]

end

theorem outcome_map (f : α → β) (action : ExceptT ε (StateM σ) α) (state : σ) :
    outcome (f <$> action) state = ((outcome action state).1.map f, (outcome action state).2) := by
  rw [map_eq_pure_bind, outcome_bind]
  rcases outcome action state with ⟨_ | _, _⟩ <;> rfl

theorem outcome_tryCatch (action : ExceptT ε (StateM σ) α) (handler : ε → ExceptT ε (StateM σ) α)
    (state : σ) :
    outcome (tryCatch action handler) state =
      match outcome action state with
      | (.ok value, after) => (.ok value, after)
      | (.error error, after) => outcome (handler error) after := by
  rw [outcome, ExceptT.run_tryCatch, StateT.run_bind, outcome]
  rcases StateT.run action.run state with ⟨_ | _, _⟩ <;> rfl

theorem outcome_get_bind (next : σ → ExceptT ε (StateM σ) α) (state : σ) :
    outcome (get >>= next) state = outcome (next state) state := rfl

theorem outcome_set_bind (after : σ) (next : PUnit → ExceptT ε (StateM σ) α) (state : σ) :
    outcome (set after >>= next) state = outcome (next ⟨⟩) after := rfl

theorem outcome_modify_bind (change : σ → σ) (next : PUnit → ExceptT ε (StateM σ) α) (state : σ) :
    outcome (modify change >>= next) state = outcome (next ⟨⟩) (change state) := rfl

/-- An error that is held back is a result, a fault is not. -/
theorem outcome_attempt (action : ExceptT Halt (StateM σ) α) (state : σ) :
    outcome (attempt action) state =
      match outcome action state with
      | (.ok value, after) => (.ok (.ok value), after)
      | (.error (.error error), after) => (.ok (.error error), after)
      | (.error (.fault fault), after) => (.error (.fault fault), after) := by
  rw [attempt, outcome_tryCatch, outcome_map]
  rcases outcome action state with ⟨(_ | _) | _, _⟩ <;> rfl

end DeferredTypes
