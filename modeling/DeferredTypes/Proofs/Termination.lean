import Mathlib.Data.List.Dedup
import Mathlib.Data.List.Induction
import Mathlib.Logic.Function.Iterate
import DeferredTypes.Proofs.Budget

/-! Resolution ends by itself. The walk of a symbol asks for symbols only while it is open itself, so
each level of the recursion has one symbol less that is not open. The list that the recursion passes
along to show that it ends decides nothing: without it the same equation holds, and unrolling the
equation more often than there are symbols to open never comes to the bottom. In the course of a request
the stack holds every symbol at most once, and none but those of the graph and those opened from the
outside. -/

namespace DeferredTypes

/-! ### The stack and the journal -/

namespace Pass

/-- The symbols that are open by the journal are those on the stack, in order. -/
def Replays (pass : Pass) : Prop := Event.openAfter pass.journal = pass.guard.stack

namespace Replays

variable {pass before inside : Pass} {id : SymbolId} {result : Except Halt Ty}

theorem record (hreplays : pass.Replays) (event : Event) (hquiet : event.IsQuiet) (lowLink : Option Nat)
    (graph : Graph) : (Pass.record { pass with lowLink, graph } event).Replays :=
  (hquiet.openAfter_cons _).trans hreplays

theorem opened (hreplays : pass.Replays) (id : SymbolId) : (pass.opened id).Replays :=
  congrArg (· ++ [id]) hreplays

theorem resumed (hinside : inside.Replays) : (before.resumed inside id).Replays :=
  congrArg (List.erase · id) hinside

theorem settled (hinside : inside.Replays) : (before.settled id result inside).Replays := by
  unfold Pass.settled
  split
  · exact hinside
  · exact hinside.resumed
  · split
    · exact hinside.resumed.record (.provisional id) trivial _ _
    · exact hinside.resumed.record (.stored id) trivial _ _

end Replays

end Pass

/-- The journal of a run tells which symbols are open. -/
theorem Task.Runs.replays {task : Task} {pass after : Pass} {result : Except Halt Ty}
    {events : List Event} (run : task.Runs pass result events after) (hreplays : pass.Replays) :
    after.Replays := by
  induction run with
  | cut => exact hreplays.record (.cut _ _) trivial _ _
  | recalled => exact hreplays.record (.recalled _) trivial _ _
  | unallocated | exhausted | answer | refuse => exact hreplays
  | walked _ _ _ ih => exact (ih (hreplays.opened _)).settled
  | missing _ _ ih => exact ih (hreplays.record (.missing _) trivial _ _)
  | halted _ _ ih => exact ih hreplays
  | found _ _ _ ihsymbol ihrest => exact ihrest (ihsymbol hreplays)

/-! ### The recursion without a bound -/

namespace Walk

/-- One level of the recursion: the type of a symbol, given how the symbols are resolved for which its
walk asks. -/
def symbolWith (symbol : SymbolId → Walk Ty) (id : SymbolId) : Walk Ty := do
  let pass ← get
  match pass.guard.position? id with
  | some position => cut id position
  | none =>
      match pass.graph.get? id with
      | some stored =>
          if stored.containsReference then withOpen id (resolve symbol stored)
          else do
            note (.recalled id)
            return stored
      | none => throw (.fault (.unallocated id))

/-- A call of the recursion makes another one: what it does changes if only the other one is changed. -/
def Consults (outer inner : SymbolId × Pass) : Prop :=
  ∃ symbol : SymbolId → Walk Ty,
    (∀ call, call ≠ inner → outcome (symbol call.1) call.2 = outcome (Walk.symbol call.1) call.2) ∧
    outcome (symbolWith symbol outer.1) outer.2 ≠ outcome (symbolWith Walk.symbol outer.1) outer.2

end Walk

/-- A state from within the walk of a symbol that was begun in the first state. -/
structure Pass.InWalk (pass : Pass) (id : SymbolId) (inner : Pass) : Prop where
  waits : ∃ type, pass.Waits id type
  stack : inner.guard.stack = pass.guard.stack ++ [id]
  same : pass.graph.SameSymbols inner.graph
  replays : pass.Replays → inner.Replays

/-- Each level of the recursion has fewer symbols that can be opened. -/
theorem Pass.InWalk.length_closed_lt {pass inner : Pass} {id : SymbolId} (h : pass.InWalk id inner) :
    inner.closed.length < pass.closed.length := by
  obtain ⟨type, hwaits⟩ := h.waits
  have hclosed : inner.closed = (pass.opened id).closed := by
    rw [closed, h.same.ids_eq, h.stack]
    rfl
  have hmem : id ∈ pass.closed := mem_closed.mpr ⟨Graph.lt_size_of_get? hwaits.get, hwaits.closed⟩
  have hpos := List.length_pos_of_mem hmem
  rw [hclosed, closed_opened, List.length_erase_of_mem hmem]
  omega

theorem Task.Runs.outcome_run_inquiry {questions : Inquiry Ty} {pass after : Pass}
    {result : Except Halt Ty} {events : List Event} {symbol : SymbolId → Walk Ty}
    (run : (Task.inquiry questions).Runs pass result events after)
    (hsymbol : ∀ path id inner, inner.graph.lookup path = some id →
      inner.guard.stack = pass.guard.stack → pass.graph.SameSymbols inner.graph →
      (pass.Replays → inner.Replays) → outcome (symbol id) inner = outcome (Walk.symbol id) inner) :
    outcome (questions.run symbol) pass = (result, after) := by
  induction questions generalizing pass events with
  | answer type =>
      cases run
      rfl
  | refuse error =>
      cases run
      rfl
  | ask path rest ih =>
      rw [Inquiry.run, outcome_get_bind]
      cases run with
      | missing hlookup hrest =>
          rw [hlookup]
          refine ih none hrest ?_
          intro other next inner hnext hinner hsame hreplays
          exact hsymbol other next inner hnext hinner hsame
            fun h => hreplays (h.record (.missing path) trivial _ _)
      | halted hlookup hrun =>
          rw [hlookup]
          dsimp only
          rw [outcome_bind, hsymbol path _ pass hlookup rfl (.refl _) fun h => h, hrun.outcome_symbol]
      | found hlookup hrun hrest =>
          have hstack := hrun.stack_eq (not_faulty_ok _)
          rw [hlookup]
          dsimp only
          rw [outcome_bind, hsymbol path _ pass hlookup rfl (.refl _) fun h => h, hrun.outcome_symbol]
          refine ih _ hrest ?_
          intro other next inner hnext hinner hsame hreplays
          exact hsymbol other next inner hnext (hinner.trans hstack) (hrun.sameSymbols.trans hsame)
            fun h => hreplays (hrun.replays h)

namespace Walk

/-- A level of the recursion makes calls only from within the walk of its symbol. -/
theorem outcome_symbolWith {symbol : SymbolId → Walk Ty} {id : SymbolId} {pass : Pass}
    (hsymbol : ∀ next inner, pass.InWalk id inner →
      outcome (symbol next) inner = outcome (Walk.symbol next) inner) :
    outcome (symbolWith symbol id) pass = outcome (Walk.symbol id) pass := by
  obtain ⟨result, events, after, run⟩ := (Task.symbol id).exists_run pass
  rw [run.outcome_symbol, symbolWith, outcome_get_bind]
  cases run with
  | cut hposition =>
      rw [hposition]
      rfl
  | unallocated hclosed hget =>
      rw [Guard.position?_eq_none_iff.mpr hclosed, hget]
      rfl
  | recalled hclosed hget hfinal =>
      rw [Guard.position?_eq_none_iff.mpr hclosed, hget]
      simp only [hfinal]
      rfl
  | exhausted hwaits hadmits hpath =>
      rw [Guard.position?_eq_none_iff.mpr hwaits.closed, hwaits.get]
      simp only [hwaits.pending, if_true]
      exact outcome_withOpen_of_not_admits hwaits.closed hadmits hpath
  | walked hwaits hadmits hwalk =>
      rw [Guard.position?_eq_none_iff.mpr hwaits.closed, hwaits.get]
      simp only [hwaits.pending, if_true]
      refine outcome_withOpen_of_admits hwaits.closed hadmits ?_ ?_
      · rw [← Inquiry.run_ofTy]
        apply hwalk.outcome_run_inquiry
        intro path next inner _ hstack hsame hreplays
        exact hsymbol next inner ⟨⟨_, hwaits⟩, hstack, hsame, fun h => hreplays (h.opened id)⟩
      · intro hresult
        rw [hwalk.stack_eq hresult]
        exact List.mem_append_right _ (List.mem_singleton_self id)

theorem ext {α : Type} {left right : Walk α} (h : ∀ pass, outcome left pass = outcome right pass) :
    left = right :=
  funext h

/-- The resolution of symbols is a fixed point of one step of its recursion. -/
theorem symbolWith_symbol : symbolWith symbol = symbol := by
  funext id
  apply ext
  intro pass
  apply outcome_symbolWith
  intro next inner _
  rfl

theorem resolve_symbol (ty : Ty) : resolve symbol ty = type ty := by
  apply ext
  intro pass
  obtain ⟨result, events, after, run⟩ := (Task.inquiry (.ofTy ty)).exists_run pass
  rw [← Inquiry.run_ofTy, run.outcome_type]
  apply run.outcome_run_inquiry
  intro path next inner _ _ _ _
  rfl

/-- A call that is made is made from within the walk of the symbol that the outer call is for. -/
theorem Consults.inWalk {outer inner : SymbolId × Pass} (hconsults : Consults outer inner) :
    outer.2.InWalk outer.1 inner.2 := by
  obtain ⟨symbol, hsame, hdiffers⟩ := hconsults
  by_contra houtside
  apply hdiffers
  rw [symbolWith_symbol]
  apply outcome_symbolWith
  intro next state hstate
  refine hsame (next, state) ?_
  rintro rfl
  exact houtside hstate

/-- No call of the recursion makes others without end. -/
theorem wellFounded_consults : WellFounded fun inner outer => Consults outer inner := by
  refine Subrelation.wf ?_ (measure fun call : SymbolId × Pass => call.2.closed.length).wf
  intro inner outer hconsults
  exact hconsults.inWalk.length_closed_lt

/-- Whatever stands at the bottom of the unrolled recursion is not reached. -/
theorem outcome_iterate_symbolWith (bottom : SymbolId → Walk Ty) (count : Nat) (id : SymbolId)
    (pass : Pass) (hcount : pass.closed.length < count) :
    outcome (symbolWith^[count] bottom id) pass = outcome (symbol id) pass := by
  induction count generalizing id pass with
  | zero => omega
  | succ count ih =>
      rw [Function.iterate_succ_apply']
      apply outcome_symbolWith
      intro next inner hinner
      have hshorter := hinner.length_closed_lt
      exact ih next inner (by omega)

end Walk

/-! ### The stack at every moment -/

namespace Event

/-- At every moment of the journal the open symbols are distinct, and all of them are allowed. -/
def Steady (allowed : SymbolId → Prop) (journal : List Event) : Prop :=
  ∀ earlier, earlier <:+ journal → (openAfter earlier).Nodup ∧ ∀ id ∈ openAfter earlier, allowed id

namespace Steady

variable {allowed : SymbolId → Prop} {journal : List Event}

theorem nil : Steady allowed [] := by
  intro earlier hearlier
  rw [List.suffix_nil.mp hearlier]
  exact ⟨List.nodup_nil, fun id hid => by cases hid⟩

theorem cons {event : Event} (hjournal : Steady allowed journal)
    (hnodup : (openAfter (event :: journal)).Nodup)
    (hallowed : ∀ id ∈ openAfter (event :: journal), allowed id) : Steady allowed (event :: journal) := by
  intro earlier hearlier
  rcases List.suffix_cons_iff.mp hearlier with rfl | hearlier
  · exact ⟨hnodup, hallowed⟩
  · exact hjournal earlier hearlier

theorem quiet {event : Event} (hjournal : Steady allowed journal) (hquiet : event.IsQuiet) :
    Steady allowed (event :: journal) := by
  obtain ⟨hnodup, hallowed⟩ := hjournal journal List.suffix_rfl
  rw [← hquiet.openAfter_cons journal] at hnodup hallowed
  exact hjournal.cons hnodup hallowed

theorem left (hjournal : Steady allowed journal) (id : SymbolId) :
    Steady allowed (.left id :: journal) := by
  obtain ⟨hnodup, hallowed⟩ := hjournal journal List.suffix_rfl
  apply hjournal.cons
  · exact hnodup.erase id
  · intro other hother
    exact hallowed other (List.mem_of_mem_erase hother)

theorem leftAll (hjournal : Steady allowed journal) (ids : List SymbolId) :
    Steady allowed (ids.map Event.left ++ journal) := by
  induction ids with
  | nil => exact hjournal
  | cons id rest ih => exact ih.left id

/-- Opening a symbol that is not open. -/
theorem opening {event : Event} {id : SymbolId} (hjournal : Steady allowed journal)
    (hevent : openAfter (event :: journal) = openAfter journal ++ [id])
    (hid : id ∉ openAfter journal) (hallowed : allowed id) : Steady allowed (event :: journal) := by
  obtain ⟨hnodup, hothers⟩ := hjournal journal List.suffix_rfl
  apply hjournal.cons
  · rw [hevent, ← List.concat_eq_append]
    exact hnodup.concat hid
  · intro other hother
    rw [hevent, List.mem_append, List.mem_singleton] at hother
    rcases hother with hother | rfl
    · exact hothers other hother
    · exact hallowed

end Steady

theorem openAfter_seeded (ids : List SymbolId) :
    openAfter (ids.map Event.seeded).reverse = ids := by
  induction ids using List.reverseRecOn with
  | nil => rfl
  | append_singleton rest id ih =>
      rw [List.map_append, List.reverse_append]
      show openAfter (rest.map Event.seeded).reverse ++ [id] = rest ++ [id]
      rw [ih]

theorem steady_seeded {allowed : SymbolId → Prop} (ids : List SymbolId) (hnodup : ids.Nodup)
    (hallowed : ∀ id ∈ ids, allowed id) : Steady allowed (ids.map Event.seeded).reverse := by
  induction ids using List.reverseRecOn with
  | nil => exact .nil
  | append_singleton rest id ih =>
      rw [List.nodup_append] at hnodup
      have hrest := ih hnodup.1 fun other hother => hallowed other (List.mem_append_left _ hother)
      rw [List.map_append, List.reverse_append]
      refine hrest.opening rfl ?_ (hallowed id (List.mem_append_right _ List.mem_cons_self))
      rw [openAfter_seeded]
      exact fun hid => hnodup.2.2 id hid id List.mem_cons_self rfl

/-- A stack of distinct symbols that are of the graph or in a list is no longer than the two together. -/
theorem Steady.length_le {size : Nat} {visiting : List SymbolId} {journal earlier : List Event}
    (hjournal : Steady (fun id => id < size ∨ id ∈ visiting) journal) (hearlier : earlier <:+ journal) :
    (openAfter earlier).Nodup ∧ (openAfter earlier).length ≤ size + visiting.dedup.length := by
  obtain ⟨hnodup, hallowed⟩ := hjournal earlier hearlier
  refine ⟨hnodup, ?_⟩
  have hsubset : openAfter earlier ⊆ List.range size ++ visiting.dedup := by
    intro id hid
    rw [List.mem_append, List.mem_range, List.mem_dedup]
    exact hallowed id hid
  have hlength := (List.subperm_of_subset hnodup hsubset).length_le
  rwa [List.length_append, List.length_range] at hlength

end Event

theorem Event.Steady.closing {allowed : SymbolId → Prop} {before inside : Pass}
    (hinside : Event.Steady allowed inside.journal) (id : SymbolId) (result : Except Halt Ty) :
    Event.Steady allowed (before.closing id result inside ++ inside.journal) := by
  unfold Pass.closing
  split
  · exact hinside
  · exact hinside.left id
  · split
    · exact (hinside.left id).quiet trivial
    · exact (hinside.left id).quiet trivial

/-- A run opens only symbols that are not open, and only those of the graph. -/
theorem Task.Runs.steady {task : Task} {pass after : Pass} {result : Except Halt Ty}
    {events : List Event} {allowed : SymbolId → Prop} (run : task.Runs pass result events after)
    (hreplays : pass.Replays) (hsteady : Event.Steady allowed pass.journal)
    (hallowed : ∀ id, id < pass.graph.size → allowed id) : Event.Steady allowed after.journal := by
  induction run with
  | cut | recalled => exact hsteady.quiet trivial
  | unallocated | exhausted | answer | refuse => exact hsteady
  | @walked pass id type result events inside hwaits _ _ ih =>
      have hid : id ∉ Event.openAfter pass.journal := by
        rw [hreplays]
        exact hwaits.closed
      have hopened : Event.Steady allowed (pass.opened id).journal :=
        hsteady.opening rfl hid (hallowed id (Graph.lt_size_of_get? hwaits.get))
      rw [Pass.journal_settled]
      exact (ih (hreplays.opened id) hopened hallowed).closing id result
  | missing _ _ ih => exact ih (hreplays.record (.missing _) trivial _ _) (hsteady.quiet trivial) hallowed
  | halted _ _ ih => exact ih hreplays hsteady hallowed
  | found _ hsymbol _ ihsymbol ihrest =>
      apply ihrest (hsymbol.replays hreplays) (ihsymbol hreplays hsteady hallowed)
      rw [hsymbol.sameSymbols.size]
      exact hallowed

namespace Pass.Seeded

variable {graph : Graph} {limits : Limits} {opened : List SymbolId} {seeded : Pass}

theorem journal_of_start (hseeded : (Pass.start graph limits).Seeded opened seeded) :
    seeded.journal = (opened.map Event.seeded).reverse :=
  hseeded.journal.trans (List.append_nil _)

theorem replays (hseeded : (Pass.start graph limits).Seeded opened seeded) : seeded.Replays := by
  rw [Replays, hseeded.journal_of_start, hseeded.stack, Event.openAfter_seeded]
  rfl

end Pass.Seeded

namespace Walk

theorem steady_symbol (graph : Graph) (limits : Limits) (id : SymbolId) :
    Event.Steady (fun id => id < graph.size ∨ id ∈ ([] : List SymbolId))
      (outcome (symbol id) (.start graph limits)).2.journal := by
  obtain ⟨result, events, after, run⟩ := (Task.symbol id).exists_run (.start graph limits)
  rw [run.outcome_symbol]
  exact run.steady rfl .nil fun _ => Or.inl

theorem steady_typeWithin (graph : Graph) (limits : Limits) (visiting : List SymbolId) (ty : Ty) :
    Event.Steady (fun id => id < graph.size ∨ id ∈ visiting)
      (outcome (typeWithin visiting ty) (.start graph limits)).2.journal := by
  obtain ⟨opened, denied, seeded, hseed, hseeded, hsubset, -⟩ :=
    outcome_seed visiting (.start graph limits) List.nodup_nil
  have hsteady : Event.Steady (fun id => id < graph.size ∨ id ∈ visiting) seeded.journal := by
    have hstack : seeded.guard.stack = opened := hseeded.stack
    rw [hseeded.journal_of_start]
    apply Event.steady_seeded opened (hstack ▸ hseeded.nodup)
    intro id hid
    exact Or.inr (hsubset hid)
  cases denied with
  | some id =>
      obtain ⟨halt, habort⟩ := outcome_abort (α := Ty) id seeded
      obtain ⟨left, after, hleaving, -, -, hafter⟩ := outcome_leaving hseeded habort fun _ => rfl
      rw [outcome_typeWithin_of_some hseed ty, hleaving, hafter]
      exact hsteady.leftAll left
  | none =>
      obtain ⟨result, events, inside, run⟩ := (Task.inquiry (.ofTy ty)).exists_run seeded
      obtain ⟨left, after, hleaving, -, -, hafter⟩ := outcome_leaving hseeded run.outcome_type run.stack_eq
      rw [outcome_typeWithin_of_none hseed ty, hleaving, hafter]
      refine (run.steady hseeded.replays hsteady ?_).leftAll left
      intro id hid
      rw [hseeded.graph] at hid
      exact Or.inl hid

end Walk

/-- **Resolution ends by itself.** The type of a symbol is given by its recursion, one level of which is
`Walk.symbolWith`, without a bound of any kind, and the type found for a type is given by the same
recursion. A call makes another one only from within its own walk: its symbol, one of the graph that was
not on the stack, has been put on top. So the calls are well founded, and unrolling the recursion more
often than there are symbols that are not open never reaches the bottom. Whenever a call begins or ends
the stack is what the journal replays to. At every moment of a request, with any limits, the open symbols
are distinct, and there are no more of them than symbols in the graph and distinct symbols opened from the
outside. -/
theorem recursion_well_founded (graph : Graph) (limits : Limits) :
    Walk.symbolWith Walk.symbol = Walk.symbol ∧
    (∀ type, Walk.resolve Walk.symbol type = Walk.type type) ∧
    (∀ outer inner, Walk.Consults outer inner → outer.1 < outer.2.graph.size ∧
      outer.1 ∉ outer.2.guard.stack ∧ inner.2.guard.stack = outer.2.guard.stack ++ [outer.1] ∧
      (outer.2.Replays → inner.2.Replays)) ∧
    (WellFounded fun inner outer => Walk.Consults outer inner) ∧
    (∀ bottom count id pass, pass.closed.length < count →
      outcome (Walk.symbolWith^[count] bottom id) pass = outcome (Walk.symbol id) pass) ∧
    (∀ pass, pass.Replays → (∀ id, (outcome (Walk.symbol id) pass).2.Replays) ∧
      ∀ type, (outcome (Walk.type type) pass).2.Replays) ∧
    (∀ visiting, (outcome (Walk.seed visiting) (.start graph limits)).2.Replays) ∧
    (∀ id earlier, earlier <:+ (outcome (Walk.symbol id) (.start graph limits)).2.journal →
      (Event.openAfter earlier).Nodup ∧ (Event.openAfter earlier).length ≤ graph.size) ∧
    ∀ type visiting earlier,
      earlier <:+ (outcome (Walk.typeWithin visiting type) (.start graph limits)).2.journal →
      (Event.openAfter earlier).Nodup ∧
        (Event.openAfter earlier).length ≤ graph.size + visiting.dedup.length := by
  refine ⟨Walk.symbolWith_symbol, Walk.resolve_symbol, ?_, Walk.wellFounded_consults,
    Walk.outcome_iterate_symbolWith, ?_, ?_, ?_, ?_⟩
  · intro outer inner hconsults
    have hinner := hconsults.inWalk
    obtain ⟨type, hwaits⟩ := hinner.waits
    exact ⟨Graph.lt_size_of_get? hwaits.get, hwaits.closed, hinner.stack, hinner.replays⟩
  · intro pass hreplays
    constructor
    · intro id
      obtain ⟨result, events, after, run⟩ := (Task.symbol id).exists_run pass
      rw [run.outcome_symbol]
      exact run.replays hreplays
    · intro type
      obtain ⟨result, events, after, run⟩ := (Task.inquiry (.ofTy type)).exists_run pass
      rw [run.outcome_type]
      exact run.replays hreplays
  · intro visiting
    obtain ⟨opened, denied, seeded, hseed, hseeded, -⟩ :=
      Walk.outcome_seed visiting (.start graph limits) List.nodup_nil
    rw [hseed]
    exact hseeded.replays
  · intro id earlier hearlier
    exact (Walk.steady_symbol graph limits id).length_le hearlier
  · intro type visiting earlier hearlier
    exact (Walk.steady_typeWithin graph limits visiting type).length_le hearlier

/-- Two functions that call each other: the walk of the first makes a call for the second, three levels
of the recursion are enough, and both are open at once. From within the second and a symbol that the
graph has not, listed twice, three symbols are open at once. -/
theorem recursion_well_founded_mutual :
    let graph := (Graph.empty.append (.function "even") (.call (.function "odd"))).append
      (.function "odd") (.call (.function "even"))
    let limits := Profile.unbounded.limits
    let start := Pass.start graph limits
    let bottom : SymbolId → Walk Ty := fun id => throw (.fault (.unallocated id))
    let earlier := [Event.walked 1 1, .walked 0 0]
    let seeded := [Event.walked 0 2, .seeded 1, .seeded 7]
    (Walk.Consults (0, start) (1, start.opened 0) ∧
      (start.opened 0).guard.stack = start.guard.stack ++ [0] ∧ (start.opened 0).Replays) ∧
    (start.closed.length < 3 ∧
      outcome (Walk.symbolWith^[3] bottom 0) start = outcome (Walk.symbol 0) start) ∧
    (outcome (Walk.symbol 0) start).2.Replays ∧
    (earlier <:+ (outcome (Walk.symbol 0) start).2.journal ∧ (Event.openAfter earlier).length ≤ graph.size) ∧
    seeded <:+ (outcome (Walk.typeWithin [7, 1, 7] (.call (.function "even"))) start).2.journal ∧
    (Event.openAfter seeded).length ≤ graph.size + [7, 1, 7].dedup.length := by
  intro graph limits start bottom earlier seeded
  obtain ⟨-, -, hcalls, -, hunrolled, hreplays, -, hsymbol, hwithin⟩ := recursion_well_founded graph limits
  have hconsults : Walk.Consults (0, start) (1, start.opened 0) := by
    refine ⟨fun id pass => if (id, pass) = (1, start.opened 0) then outcome (bottom id) pass
      else outcome (Walk.symbol id) pass, ?_, by decide +kernel⟩
    intro call hcall
    exact if_neg hcall
  have hclosed : start.closed.length < 3 := by decide +kernel
  have hearlier : earlier <:+ (outcome (Walk.symbol 0) start).2.journal := by decide +kernel
  have hseeded : seeded <:+ (outcome (Walk.typeWithin [7, 1, 7] (.call (.function "even"))) start).2.journal := by
    decide +kernel
  obtain ⟨-, -, hstack, hopened⟩ := hcalls _ _ hconsults
  exact ⟨⟨hconsults, hstack, hopened rfl⟩, ⟨hclosed, hunrolled bottom 3 0 start hclosed⟩,
    (hreplays start rfl).1 0, ⟨hearlier, (hsymbol 0 earlier hearlier).2⟩, hseeded, (hwithin _ _ seeded hseeded).2⟩

end DeferredTypes
