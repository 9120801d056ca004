import Mathlib.Data.List.Perm.Subperm
import DeferredTypes.Proofs.Requests

/-! What a budget does to a resolution. The number of walks and the number of symbols that are open at
once are read off the journal. A run with a budget keeps step with the run without one up to the first
symbol that the budget does not suffice to open, so it ends in the same way exactly if the run without a
budget stays within it. -/

namespace DeferredTypes

/-! ### Walks and open symbols of a journal -/

namespace Event

/-- The symbols that are open after the events of a journal, the outermost first. -/
def openAfter : List Event → List SymbolId
  | [] => []
  | .seeded id :: earlier | .walked id _ :: earlier => openAfter earlier ++ [id]
  | .left id :: earlier => (openAfter earlier).erase id
  | _ :: earlier => openAfter earlier

/-- The greatest number of symbols that were open at once. -/
def peak : List Event → Nat
  | [] => 0
  | event :: earlier => max (openAfter (event :: earlier)).length (peak earlier)

def walks (journal : List Event) : Nat := (Stats.ofJournal journal).walks

theorem length_openAfter_le_peak (journal : List Event) : (openAfter journal).length ≤ peak journal := by
  cases journal with
  | nil => exact Nat.le_refl _
  | cons event earlier => exact Nat.le_max_left _ _

/-- The peak of a journal does not fall when the journal goes on. -/
theorem peak_le_append (later earlier : List Event) : peak earlier ≤ peak (later ++ earlier) := by
  induction later with
  | nil => exact Nat.le_refl _
  | cons event rest ih => exact Nat.le_trans ih (Nat.le_max_right _ _)

theorem walks_append (later earlier : List Event) :
    walks (later ++ earlier) = walks later + walks earlier := by
  rw [walks, Stats.ofJournal_append]
  rfl

theorem walks_cons (event : Event) (earlier : List Event) :
    walks (event :: earlier) = walks [event] + walks earlier :=
  walks_append [event] earlier

/-- The event neither opens a symbol nor leaves one. -/
def IsQuiet : Event → Prop
  | .seeded _ | .walked .. | .left _ => False
  | _ => True

theorem IsQuiet.openAfter_cons {event : Event} (hquiet : event.IsQuiet) (earlier : List Event) :
    openAfter (event :: earlier) = openAfter earlier := by
  cases event with
  | seeded | walked | left => exact hquiet.elim
  | recalled | cut | missing | stored | provisional => rfl

theorem IsQuiet.peak_cons {event : Event} (hquiet : event.IsQuiet) (earlier : List Event) :
    peak (event :: earlier) = peak earlier := by
  rw [peak, hquiet.openAfter_cons, Nat.max_eq_right (length_openAfter_le_peak earlier)]

theorem IsQuiet.walks_cons {event : Event} (hquiet : event.IsQuiet) (earlier : List Event) :
    walks (event :: earlier) = walks earlier := by
  rw [Event.walks_cons]
  cases event with
  | seeded | walked | left => exact hquiet.elim
  | recalled | cut | missing | stored | provisional => exact Nat.zero_add _

theorem walks_walked (id : SymbolId) (position : Nat) (earlier : List Event) :
    walks (.walked id position :: earlier) = walks earlier + 1 := by
  rw [walks_cons, Nat.add_comm]
  rfl

theorem walks_left (id : SymbolId) (earlier : List Event) :
    walks (.left id :: earlier) = walks earlier := by
  rw [walks_cons]
  exact Nat.zero_add _

theorem peak_left (id : SymbolId) (earlier : List Event) :
    peak (.left id :: earlier) = peak earlier := by
  refine Nat.max_eq_right (Nat.le_trans ?_ (length_openAfter_le_peak earlier))
  exact List.length_erase_le

end Event

/-! ### Room without a budget -/

/-- The counts do not exceed the limits that stand for no budget, since they stop there. -/
theorem Guard.admits_unbounded {κ : Type} {guard : Guard κ}
    (hlimits : guard.limits = Profile.unbounded.limits) (hdepth : guard.depth < maxCount) :
    guard.Admits := by
  rw [Admits, hlimits]
  exact ⟨Nat.min_le_right _ _, hdepth⟩

namespace Pass

/-- Without a budget, the open symbols and those of the graph are among these, no more than a count can
hold. -/
structure Fits (pass : Pass) (around : List SymbolId) : Prop where
  limits : pass.guard.limits = Profile.unbounded.limits
  nodup : pass.guard.stack.Nodup
  stack : pass.guard.stack ⊆ around
  graph : pass.graph.ids ⊆ around
  room : around.length ≤ maxCount

namespace Fits

variable {pass after : Pass} {around : List SymbolId} {id : SymbolId} {type : Ty}

/-- Every symbol can be opened. -/
theorem admits (hfits : pass.Fits around) (hwaits : pass.Waits id type) : pass.guard.Admits := by
  have hid : id ∈ around := hfits.graph (List.mem_range.mpr (Graph.lt_size_of_get? hwaits.get))
  have hlength : (id :: pass.guard.stack).length ≤ around.length :=
    (List.subperm_of_subset (hfits.nodup.cons hwaits.closed)
      (List.cons_subset.mpr ⟨hid, hfits.stack⟩)).length_le
  exact Guard.admits_unbounded hfits.limits (Nat.lt_of_lt_of_le hlength hfits.room)

/-- Opening symbols from the outside is not beyond the budget. -/
theorem not_denied (hfits : pass.Fits around) (hroom : around.length < maxCount) :
    ¬pass.guard.Denied := by
  rintro ⟨before, hguard, hadmits⟩
  have hlimits : before.limits = pass.guard.limits := (congrArg Guard.limits hguard).symm
  have hdepth : before.depth = pass.guard.depth := (congrArg Guard.depth hguard).symm
  apply hadmits
  apply Guard.admits_unbounded (hlimits.trans hfits.limits)
  calc
    before.depth = pass.guard.stack.length := hdepth
    _ ≤ around.length := (List.subperm_of_subset hfits.nodup hfits.stack).length_le
    _ < maxCount := hroom

theorem opened (hfits : pass.Fits around) (hwaits : pass.Waits id type) :
    (pass.opened id).Fits around where
  limits := hfits.limits
  nodup := by
    change (pass.guard.stack ++ [id]).Nodup
    rw [← List.concat_eq_append]
    exact hfits.nodup.concat hwaits.closed
  stack := by
    refine List.append_subset.mpr ⟨hfits.stack, List.cons_subset.mpr ⟨?_, List.nil_subset _⟩⟩
    exact hfits.graph (List.mem_range.mpr (Graph.lt_size_of_get? hwaits.get))
  graph := hfits.graph
  room := hfits.room

theorem record (hfits : pass.Fits around) (event : Event) : (pass.record event).Fits around :=
  ⟨hfits.limits, hfits.nodup, hfits.stack, hfits.graph, hfits.room⟩

/-- A run that does not fault leaves as much room as it finds. -/
theorem of_run {task : Task} {result : Except Halt Ty} {events : List Event} (hfits : pass.Fits around)
    (run : task.Runs pass result events after) (hresult : ¬Faulty result) : after.Fits around where
  limits := run.limits_eq.trans hfits.limits
  nodup := by
    rw [run.stack_eq hresult]
    exact hfits.nodup
  stack := by
    rw [run.stack_eq hresult]
    exact hfits.stack
  graph := by
    rw [run.sameSymbols.ids_eq]
    exact hfits.graph
  room := hfits.room

end Fits

/-- Without a budget and over a graph of no more symbols than a count can hold, every symbol can be
opened. -/
structure Roomy (pass : Pass) : Prop where
  limits : pass.guard.limits = Profile.unbounded.limits
  nodup : pass.guard.stack.Nodup
  allocated : ∀ id ∈ pass.guard.stack, id < pass.graph.size
  size : pass.graph.size ≤ maxCount

namespace Roomy

variable {pass after : Pass} {id : SymbolId} {type : Ty}

theorem start {graph : Graph} (hsize : graph.size ≤ maxCount) :
    (start graph Profile.unbounded.limits).Roomy :=
  ⟨rfl, List.nodup_nil, fun _ h => absurd h List.not_mem_nil, hsize⟩

theorem fits (hroomy : pass.Roomy) : pass.Fits pass.graph.ids where
  limits := hroomy.limits
  nodup := hroomy.nodup
  stack id hid := List.mem_range.mpr (hroomy.allocated id hid)
  graph := List.Subset.refl _
  room := by
    rw [Graph.ids, List.length_range]
    exact hroomy.size

theorem of_fits (hfits : pass.Fits pass.graph.ids) : pass.Roomy where
  limits := hfits.limits
  nodup := hfits.nodup
  allocated id hid := List.mem_range.mp (hfits.stack hid)
  size := by
    have hroom := hfits.room
    rwa [Graph.ids, List.length_range] at hroom

/-- Without a budget there is room for every symbol that waits. -/
theorem admits (hroomy : pass.Roomy) (hwaits : pass.Waits id type) : pass.guard.Admits :=
  hroomy.fits.admits hwaits

/-- Opening symbols of the graph from the outside is not beyond the budget. -/
theorem not_denied (hroomy : pass.Roomy) (hsize : pass.graph.size < maxCount) :
    ¬pass.guard.Denied := by
  apply hroomy.fits.not_denied
  rwa [Graph.ids, List.length_range]

theorem opened (hroomy : pass.Roomy) (hwaits : pass.Waits id type) : (pass.opened id).Roomy :=
  of_fits (hroomy.fits.opened hwaits)

theorem record (hroomy : pass.Roomy) (event : Event) : (pass.record event).Roomy :=
  of_fits (hroomy.fits.record event)

/-- A run that does not fault leaves as much room as it finds. -/
theorem of_run {task : Task} {result : Except Halt Ty} {events : List Event} (hroomy : pass.Roomy)
    (run : task.Runs pass result events after) (hresult : ¬Faulty result) : after.Roomy := by
  apply of_fits
  rw [run.sameSymbols.ids_eq]
  exact hroomy.fits.of_run run hresult

end Roomy

end Pass

namespace Task.Runs

variable {task : Task} {pass after : Pass} {result : Except Halt Ty} {events : List Event}

/-- Where all symbols fit, nothing is aborted. -/
theorem not_aborted_of_fits {around : List SymbolId} (run : task.Runs pass result events after)
    (hfits : pass.Fits around) : ¬Aborted result := by
  induction run with
  | cut | unallocated | recalled | answer | refuse => exact fun h => h
  | exhausted hwaits hadmits => exact absurd (hfits.admits hwaits) hadmits
  | walked hwaits _ _ ih => exact ih (hfits.opened hwaits)
  | missing _ _ ih => exact ih (hfits.record _)
  | halted _ _ ih => exact ih hfits
  | found _ hsymbol _ _ ihrest => exact ihrest (hfits.of_run hsymbol (not_faulty_ok _))

/-- Without a budget nothing is aborted. -/
theorem not_aborted (run : task.Runs pass result events after) (hroomy : pass.Roomy) :
    ¬Aborted result :=
  run.not_aborted_of_fits hroomy.fits

end Task.Runs

/-! ### What a run with a budget counts -/

namespace Pass

/-- The accounts of a run that the budget has sufficed for so far. -/
structure Metered (pass : Pass) : Prop where
  stack : Event.openAfter pass.journal = pass.guard.stack
  iterations : pass.guard.iterations = Event.walks pass.journal
  walks : Event.walks pass.journal ≤ pass.guard.limits.maxIterations
  peak : Event.peak pass.journal ≤ pass.guard.limits.maxDepth
  counted : pass.guard.limits.maxIterations < maxCount

namespace Metered

variable {pass before inside : Pass} {id : SymbolId} {result : Except Halt Ty}

theorem start (graph : Graph) {limits : Limits} (hlimits : limits.maxIterations < maxCount) :
    (start graph limits).Metered :=
  ⟨rfl, rfl, Nat.zero_le _, Nat.zero_le _, hlimits⟩

theorem record (hmetered : pass.Metered) (event : Event) (hquiet : event.IsQuiet)
    (lowLink : Option Nat) (graph : Graph) :
    (Pass.record { pass with lowLink, graph } event).Metered where
  stack := (hquiet.openAfter_cons _).trans hmetered.stack
  iterations := hmetered.iterations.trans (hquiet.walks_cons _).symm
  walks := Nat.le_trans (Nat.le_of_eq (hquiet.walks_cons _)) hmetered.walks
  peak := Nat.le_trans (Nat.le_of_eq (hquiet.peak_cons _)) hmetered.peak
  counted := hmetered.counted

theorem attempted (hmetered : pass.Metered) :
    pass.guard.attempted.iterations = Event.walks pass.journal + 1 := by
  have hwalks := hmetered.walks
  have hcounted := hmetered.counted
  rw [Guard.attempted, hmetered.iterations]
  exact Nat.min_eq_left (by omega)

theorem depth_le (hmetered : pass.Metered) : pass.guard.depth ≤ pass.guard.limits.maxDepth := by
  rw [Guard.depth, ← hmetered.stack]
  exact Nat.le_trans (Event.length_openAfter_le_peak _) hmetered.peak

theorem opened (hmetered : pass.Metered) (hadmits : pass.guard.Admits) (id : SymbolId) :
    (pass.opened id).Metered where
  stack := congrArg (· ++ [id]) hmetered.stack
  iterations := hmetered.attempted.trans (Event.walks_walked _ _ _).symm
  walks := by
    have hiterations := hadmits.1
    rw [hmetered.attempted, ← Event.walks_walked id pass.guard.depth] at hiterations
    exact hiterations
  peak := by
    have hdepth := hadmits.2
    refine Nat.max_le.mpr ⟨?_, hmetered.peak⟩
    change (Event.openAfter pass.journal ++ [id]).length ≤ _
    rw [hmetered.stack, List.length_append]
    exact hdepth
  counted := hmetered.counted

theorem resumed (hinside : inside.Metered) : (before.resumed inside id).Metered where
  stack := congrArg (List.erase · id) hinside.stack
  iterations := hinside.iterations.trans (Event.walks_left _ _).symm
  walks := Nat.le_trans (Nat.le_of_eq (Event.walks_left _ _)) hinside.walks
  peak := Nat.le_trans (Nat.le_of_eq (Event.peak_left _ _)) hinside.peak
  counted := hinside.counted

theorem settled (hinside : inside.Metered) : (before.settled id result inside).Metered := by
  unfold Pass.settled
  split
  · exact hinside
  · exact hinside.resumed
  · split
    · exact hinside.resumed.record (.provisional id) trivial _ _
    · exact hinside.resumed.record (.stored id) trivial _ _

end Metered

end Pass

/-- What is reported when a budget is exhausted: the attempt counts, and it is one too many or would go
too deep. -/
structure Limits.Overdrawn (limits : Limits) (walks depth iterations : Nat) : Prop where
  depth_le : depth ≤ limits.maxDepth
  iterations_eq : iterations = walks + 1
  exceeded : iterations = limits.maxIterations + 1 ∨
    depth = limits.maxDepth ∧ iterations ≤ limits.maxIterations

namespace Task.Runs

variable {task : Task} {pass after : Pass} {result : Except Halt Ty} {events : List Event}

/-- A run for which the budget suffices keeps its accounts. -/
theorem metered (run : task.Runs pass result events after) (hmetered : pass.Metered)
    (hresult : ¬Aborted result) : after.Metered := by
  induction run with
  | cut => exact hmetered.record (.cut _ _) trivial _ _
  | recalled => exact hmetered.record (.recalled _) trivial _ _
  | unallocated | answer | refuse => exact hmetered
  | exhausted => exact absurd trivial hresult
  | walked _ hadmits _ ih => exact (ih (hmetered.opened hadmits _) hresult).settled
  | missing _ _ ih => exact ih (hmetered.record (.missing _) trivial _ _) hresult
  | halted _ _ ih => exact ih hmetered hresult
  | found _ _ _ ihsymbol ihrest => exact ihrest (ihsymbol hmetered fun h => h) hresult

/-- A run is aborted only when its budget is exhausted. -/
theorem overdrawn {path : Path} {depth iterations : Nat} (run : task.Runs pass result events after)
    (hmetered : pass.Metered) (hresult : result = .error (.error (.aborted path depth iterations))) :
    pass.guard.limits.Overdrawn (Event.walks after.journal) depth iterations := by
  induction run with
  | cut | unallocated | recalled | answer | refuse => cases hresult
  | @exhausted pass _ _ _ _ hadmits _ =>
      cases hresult
      refine ⟨hmetered.depth_le, hmetered.attempted, ?_⟩
      have hwalks := hmetered.walks
      have hattempted := hmetered.attempted
      have hdepth := hmetered.depth_le
      by_cases hiterations : pass.guard.attempted.iterations ≤ pass.guard.limits.maxIterations
      · have := mt (fun h => ⟨hiterations, h⟩) hadmits
        exact Or.inr ⟨by omega, hiterations⟩
      · exact Or.inl (by omega)
  | walked _ hadmits hwalk ih =>
      subst hresult
      have hinside := ih (hmetered.opened hadmits _) rfl
      refine ⟨hinside.depth_le, ?_, hinside.exceeded⟩
      exact hinside.iterations_eq.trans (congrArg (· + 1) (Event.walks_left _ _).symm)
  | missing _ _ ih => exact ih (hmetered.record (.missing _) trivial _ _) hresult
  | halted _ _ ih => exact ih hmetered hresult
  | found _ hsymbol _ _ ihrest =>
      have hrest := ihrest (hsymbol.metered hmetered fun h => h) hresult
      rwa [hsymbol.limits_eq] at hrest

end Task.Runs

/-! ### The run without a budget keeps step -/

/-- The journal shows more than the budget allows. -/
def Event.Exceeds (journal : List Event) (limits : Limits) : Prop :=
  limits.maxIterations < walks journal ∨ limits.maxDepth < peak journal

theorem Event.Exceeds.append {journal : List Event} {limits : Limits} (hexceeds : Exceeds journal limits)
    (later : List Event) : Exceeds (later ++ journal) limits := by
  refine hexceeds.imp (fun hwalks => ?_) fun hpeak => Nat.lt_of_lt_of_le hpeak (peak_le_append _ _)
  rw [walks_append]
  omega

/-- Where the budget does not suffice to open a symbol, opening it would exceed the budget. -/
theorem Pass.Metered.exceeds_of_not_admits {pass : Pass} (hmetered : pass.Metered)
    (hadmits : ¬pass.guard.Admits) (id : SymbolId) (position : Nat) :
    Event.Exceeds (.walked id position :: pass.journal) pass.guard.limits := by
  rw [Event.Exceeds, Event.walks_walked, ← hmetered.attempted]
  by_cases hiterations : pass.guard.attempted.iterations ≤ pass.guard.limits.maxIterations
  · right
    have hdepth : ¬pass.guard.depth < pass.guard.limits.maxDepth := fun h => hadmits ⟨hiterations, h⟩
    refine Nat.lt_of_lt_of_le ?_ (Nat.le_max_left _ _)
    change _ < (Event.openAfter pass.journal ++ [id]).length
    rw [hmetered.stack, List.length_append]
    exact Nat.lt_succ_of_le (Nat.not_lt.mp hdepth)
  · exact Or.inl (Nat.not_le.mp hiterations)

namespace Pass

/-- The states agree in all but their budgets. -/
structure Alongside (left right : Pass) : Prop where
  graph : right.graph = left.graph
  stack : right.guard.stack = left.guard.stack
  lowLink : right.lowLink = left.lowLink
  journal : right.journal = left.journal

namespace Alongside

variable {left right inside inside' : Pass} {id : SymbolId}

theorem waits {type : Ty} (halong : left.Alongside right) (hwaits : left.Waits id type) :
    right.Waits id type :=
  ⟨by rw [halong.stack]; exact hwaits.closed, by rw [halong.graph]; exact hwaits.get, hwaits.pending⟩

theorem depth (halong : left.Alongside right) : right.guard.depth = left.guard.depth :=
  congrArg List.length halong.stack

theorem record (halong : left.Alongside right) (event : Event) :
    (left.record event).Alongside (right.record event) :=
  ⟨halong.graph, halong.stack, halong.lowLink, congrArg (event :: ·) halong.journal⟩

theorem link (halong : left.Alongside right) (position : Option Nat) :
    (left.link position).Alongside (right.link position) :=
  ⟨halong.graph, halong.stack, congrArg (Option.merge min · position) halong.lowLink, halong.journal⟩

theorem opened (halong : left.Alongside right) (id : SymbolId) :
    (left.opened id).Alongside (right.opened id) where
  graph := halong.graph
  stack := congrArg (· ++ [id]) halong.stack
  lowLink := rfl
  journal := by
    change Event.walked id right.guard.depth :: right.journal = _
    rw [halong.depth, halong.journal]
    rfl

theorem resumed (hbefore : left.Alongside right) (hinside : inside.Alongside inside') (id : SymbolId) :
    (left.resumed inside id).Alongside (right.resumed inside' id) :=
  ⟨hinside.graph, congrArg (List.erase · id) hinside.stack, hbefore.lowLink,
    congrArg (Event.left id :: ·) hinside.journal⟩

theorem settled (hbefore : left.Alongside right) (hinside : inside.Alongside inside') (id : SymbolId)
    (result : Except Halt Ty) :
    (left.settled id result inside).Alongside (right.settled id result inside') := by
  have hresumed := hbefore.resumed hinside id
  have hlink : inside'.ClosesBelow right.guard.depth ↔ inside.ClosesBelow left.guard.depth := by
    rw [ClosesBelow, ClosesBelow, hinside.lowLink, hbefore.depth]
  unfold Pass.settled
  rcases result with (error | fault) | type
  · exact hresumed
  · exact hinside
  · dsimp only
    by_cases hcloses : inside.ClosesBelow left.guard.depth
    · rw [if_pos hcloses, if_pos (hlink.mpr hcloses), hinside.lowLink]
      exact (hresumed.link _).record _
    · rw [if_neg hcloses, if_neg (mt hlink.mp hcloses)]
      exact ⟨congrArg (Graph.set · id type) hinside.graph, hresumed.stack, hresumed.lowLink,
        congrArg (Event.stored id :: ·) hresumed.journal⟩

end Alongside

end Pass

/-- However the run of the symbol ends that is asked for, the inquiry has a run that begins with it. -/
theorem Task.exists_run_ask {path : Path} {rest : Option Ty → Inquiry Ty} {pass middle : Pass}
    {id : SymbolId} {result : Except Halt Ty} {events : List Event}
    (htask : (Task.inquiry (.ask path rest)).HandsOutFinal) (hlookup : pass.graph.lookup path = some id)
    (hsymbol : (Task.symbol id).Runs pass result events middle) :
    ∃ result' later after, (Task.inquiry (.ask path rest)).Runs pass result' (later ++ events) after ∧
      after.journal = later ++ middle.journal ∧
      ∃ writes, middle.graph.Finalization writes after.graph := by
  cases result with
  | error halt => exact ⟨_, [], middle, .halted hlookup hsymbol, rfl, [], .none⟩
  | ok type =>
      obtain ⟨result', later, after, hrest⟩ := (Task.inquiry (rest (some type))).exists_run middle
      obtain ⟨writes, hwrites, -⟩ := hrest.finalization (htask.of_found hsymbol)
      exact ⟨result', later, after, .found hlookup hsymbol hrest, hrest.journal_eq, writes, hwrites⟩

namespace Task.Runs

variable {task : Task} {left after : Pass} {result : Except Halt Ty} {events : List Event}

/-- Beside a run with a budget there is the run without one. Either both end in the same way, or the
budget was exhausted and the other run goes on beyond it. -/
theorem exists_unbounded (run : task.Runs left result events after) (htask : task.HandsOutFinal)
    (hmetered : left.Metered) {right : Pass} (halong : left.Alongside right) (hroomy : right.Roomy) :
    ∃ result' events' after', task.Runs right result' events' after' ∧
      (result' = result ∧ after.Alongside after' ∨
        Aborted result ∧ Event.Exceeds after'.journal left.guard.limits ∧
          ∃ writes, after.graph.Finalization writes after'.graph) := by
  induction run generalizing right with
  | cut hposition =>
      have hposition' := hposition
      rw [Guard.position?, ← halong.stack] at hposition'
      exact ⟨_, _, _, .cut hposition', Or.inl ⟨rfl, (halong.link _).record _⟩⟩
  | unallocated hclosed hget =>
      rw [← halong.stack] at hclosed
      rw [← halong.graph] at hget
      exact ⟨_, _, _, .unallocated hclosed hget, Or.inl ⟨rfl, halong⟩⟩
  | recalled hclosed hget hfinal =>
      rw [← halong.stack] at hclosed
      rw [← halong.graph] at hget
      exact ⟨_, _, _, .recalled hclosed hget hfinal, Or.inl ⟨rfl, halong.record _⟩⟩
  | @exhausted left id type path hwaits hadmits _ =>
      -- The other run opens the symbol here, and this is one walk or one level more than allowed.
      have hwaits' := halong.waits hwaits
      obtain ⟨result', events', inside, hwalk⟩ :=
        (Task.inquiry (.ofTy type)).exists_run (right.opened id)
      have run' := Task.Runs.walked hwaits' (hroomy.admits hwaits') hwalk
      obtain ⟨writes, hwrites, -⟩ := run'.finalization trivial
      refine ⟨_, _, _, run', Or.inr ⟨trivial, ?_, writes, halong.graph ▸ hwrites⟩⟩
      have hbeyond := hmetered.exceeds_of_not_admits hadmits id right.guard.depth
      rw [← halong.journal] at hbeyond
      rw [run'.journal_eq, List.append_assoc]
      exact hbeyond.append _
  | @walked left id type result events inside hwaits hadmits _ ih =>
      have hwaits' := halong.waits hwaits
      have hadmits' := hroomy.admits hwaits'
      obtain ⟨result', events', inside', hwalk, hsame | ⟨haborted, hexceeds, writes, hwrites⟩⟩ :=
        ih (.ofTy _) (hmetered.opened hadmits _) (halong.opened _) (hroomy.opened hwaits')
      · obtain ⟨rfl, hinside⟩ := hsame
        exact ⟨_, _, _, .walked hwaits' hadmits' hwalk, Or.inl ⟨rfl, halong.settled hinside _ _⟩⟩
      · obtain ⟨more, hmore⟩ := finalization_settled hwaits' hwalk
        have hgraph : (left.settled id result inside).graph = inside.graph := by
          rcases left.write_settled inside id result with ⟨hgraph, -⟩ | ⟨found, rfl, -⟩
          · exact hgraph
          · exact haborted.elim
        refine ⟨_, _, _, .walked hwaits' hadmits' hwalk, Or.inr ⟨haborted, ?_, writes ++ more, ?_⟩⟩
        · rw [Pass.journal_settled]
          exact hexceeds.append _
        · rw [hgraph]
          exact hwrites.append hmore
  | answer => exact ⟨_, _, _, .answer, Or.inl ⟨rfl, halong⟩⟩
  | refuse => exact ⟨_, _, _, .refuse, Or.inl ⟨rfl, halong⟩⟩
  | missing hlookup _ ih =>
      rw [← halong.graph] at hlookup
      obtain ⟨result', events', after', hrest, hends⟩ := ih htask.of_missing
        (hmetered.record (.missing _) trivial _ _) (halong.record _) (hroomy.record _)
      exact ⟨_, _, _, .missing hlookup hrest, hends⟩
  | halted hlookup _ ih =>
      rw [← halong.graph] at hlookup
      obtain ⟨result', events', middle, hsymbol, hsame | ⟨haborted, hexceeds, writes, hwrites⟩⟩ :=
        ih trivial hmetered halong hroomy
      · obtain ⟨rfl, hafter⟩ := hsame
        exact ⟨_, _, _, .halted hlookup hsymbol, Or.inl ⟨rfl, hafter⟩⟩
      · -- The other run may go on after the symbol; what it has exceeded stays exceeded.
        obtain ⟨_, later, after', run', hjournal, more, hmore⟩ := exists_run_ask htask hlookup hsymbol
        refine ⟨_, _, _, run', Or.inr ⟨haborted, ?_, _, hwrites.append hmore⟩⟩
        rw [hjournal]
        exact hexceeds.append later
  | found hlookup hsymbol _ ihsymbol ihrest =>
      rw [← halong.graph] at hlookup
      obtain ⟨result', events', middle', hsymbol', hsame | ⟨haborted, -⟩⟩ :=
        ihsymbol trivial hmetered halong hroomy
      · obtain ⟨rfl, hmiddle⟩ := hsame
        obtain ⟨result', events', after', hrest, hends⟩ := ihrest (htask.of_found hsymbol)
          (hsymbol.metered hmetered fun h => h) hmiddle (hroomy.of_run hsymbol' (not_faulty_ok _))
        rw [hsymbol.limits_eq] at hends
        exact ⟨_, _, _, .found hlookup hsymbol' hrest, hends⟩
      · exact haborted.elim

end Task.Runs

/-- Between two series of writes a symbol has its first type or its last one. -/
theorem Graph.Finalization.get?_between {first second third : Graph} {writes more : List (SymbolId × Ty)}
    (left : first.Finalization writes second) (right : second.Finalization more third)
    (id : SymbolId) : second.get? id = first.get? id ∨ second.get? id = third.get? id := by
  rcases left.get?_cases id with hget | ⟨type, hget, hfinal⟩
  · exact Or.inl hget
  · exact Or.inr (hget.trans (right.get?_of_final hget hfinal).symm)

namespace Resolver

/-- The greatest number of symbols that are open at once while a symbol is resolved without a budget. -/
def peakOf (graph : Graph) (id : SymbolId) : Nat :=
  Event.peak (outcome (Walk.symbol id) (.start graph Profile.unbounded.limits)).2.journal

variable {graph : Graph} {stats : Stats} {id : SymbolId} {maxDepth maxIterations : Nat}

/-- Without a budget no resolution is aborted, unless there are more symbols than a count can hold. -/
theorem not_aborted_unbounded (hsize : graph.size ≤ maxCount) :
    ¬Aborted (outcome (tryResolve id) ⟨graph, .unbounded, stats⟩).1 := by
  obtain ⟨result, events, after, run⟩ :=
    (Task.symbol id).exists_run (.start graph Profile.unbounded.limits)
  have houtcome : outcome (tryResolve id) ⟨graph, .unbounded, stats⟩ = _ := outcome_tryResolve run
  rw [houtcome]
  exact run.not_aborted (.start hsize)

/-- A request with a budget does what the request without one does, if that stays within the budget;
else it is aborted, and the other one makes more symbols final. -/
theorem budget_cases (hsize : graph.size ≤ maxCount) (hiterations : maxIterations < maxCount) :
    let profile := Profile.custom maxDepth maxIterations
    let free := outcome (tryResolve id) ⟨graph, .unbounded, stats⟩
    let bounded := outcome (tryResolve id) ⟨graph, profile, stats⟩
    let Within := free.2.stats.walks ≤ stats.walks + maxIterations ∧ peakOf graph id ≤ maxDepth
    Within ∧ bounded = (free.1, { free.2 with profile }) ∨
      ¬Within ∧ Aborted bounded.1 ∧ ∃ writes, bounded.2.graph.Finalization writes free.2.graph := by
  intro profile free bounded Within
  obtain ⟨result, events, after, run⟩ := (Task.symbol id).exists_run (.start graph profile.limits)
  have hmetered : (Pass.start graph profile.limits).Metered := .start graph hiterations
  have hroomy := Pass.Roomy.start hsize
  have hstart : (Pass.start graph profile.limits).Alongside (.start graph Profile.unbounded.limits) :=
    ⟨rfl, rfl, rfl, rfl⟩
  obtain ⟨result', events', after', run', hends⟩ := run.exists_unbounded trivial hmetered hstart hroomy
  have hfree : free = (result', advance ⟨graph, .unbounded, stats⟩ after'.graph events') :=
    outcome_tryResolve run'
  have hbounded : bounded = (result, advance ⟨graph, profile, stats⟩ after.graph events) :=
    outcome_tryResolve run
  have hjournal : after.journal = events := run.journal_eq.trans (List.append_nil _)
  have hjournal' : after'.journal = events' := run'.journal_eq.trans (List.append_nil _)
  have hwithin : Within ↔ ¬Event.Exceeds events' profile.limits := by
    have hwalks : free.2.stats.walks = stats.walks + Event.walks events' := by rw [hfree]; rfl
    have hpeak : peakOf graph id = Event.peak events' := by
      rw [peakOf, run'.outcome_symbol, hjournal']
    simp only [Within, hwalks, hpeak, Event.Exceeds, not_or, Nat.not_lt]
    exact and_congr_left' Nat.add_le_add_iff_left
  rw [hwithin, hfree, hbounded]
  rcases hends with ⟨rfl, halong⟩ | ⟨haborted, hexceeds, writes, hwrites⟩
  · left
    have hafter := run.metered hmetered (run'.not_aborted hroomy)
    have hwalks := hafter.walks
    have hpeak := hafter.peak
    have hevents : events' = events := hjournal'.symm.trans (halong.journal.trans hjournal)
    rw [hjournal, run.limits_eq] at hwalks hpeak
    rw [hevents, halong.graph]
    exact ⟨not_or.mpr ⟨Nat.not_lt.mpr hwalks, Nat.not_lt.mpr hpeak⟩, rfl⟩
  · right
    rw [hjournal'] at hexceeds
    exact ⟨not_not_intro hexceeds, haborted, writes, hwrites⟩

theorem overdrawn_of_aborted {path : Path} {depth iterations : Nat}
    (hiterations : maxIterations < maxCount)
    (hresult : (outcome (tryResolve id) ⟨graph, .custom maxDepth maxIterations, stats⟩).1 =
      .error (.error (.aborted path depth iterations))) :
    ∃ walks, (outcome (tryResolve id) ⟨graph, .custom maxDepth maxIterations, stats⟩).2.stats.walks =
      stats.walks + walks ∧ Limits.Overdrawn ⟨maxDepth, maxIterations⟩ walks depth iterations := by
  obtain ⟨result, events, after, run⟩ := (Task.symbol id).exists_run
    (.start graph (Profile.custom maxDepth maxIterations).limits)
  have houtcome : outcome (tryResolve id) ⟨graph, .custom maxDepth maxIterations, stats⟩ = _ :=
    outcome_tryResolve run
  rw [houtcome] at hresult ⊢
  have hoverdrawn := run.overdrawn (.start graph hiterations) hresult
  rw [run.journal_eq.trans (List.append_nil _)] at hoverdrawn
  exact ⟨_, rfl, hoverdrawn⟩

/-- **A budget is exact.** A request without a budget is never aborted. Compare a request for the same
symbol with a budget of its own. If the first ends well, the second does so exactly if the walks and the
symbols open at once stay within the budget, and it hands out and leaves the same; if the first fails,
the second fails with the same error or is aborted. An abort reports the walks made and the one refused,
at one of the limits; it leaves each symbol as it was or as the request without a budget leaves it. -/
theorem tryResolve_budget_exact (graph : Graph) (stats : Stats) (id : SymbolId)
    (maxDepth maxIterations : Nat) (hsize : graph.size ≤ maxCount)
    (hiterations : maxIterations < maxCount) :
    let profile := Profile.custom maxDepth maxIterations
    let free := outcome (tryResolve id) ⟨graph, .unbounded, stats⟩
    let bounded := outcome (tryResolve id) ⟨graph, profile, stats⟩
    let Within := free.2.stats.walks ≤ stats.walks + maxIterations ∧ peakOf graph id ≤ maxDepth
    ¬Aborted free.1 ∧
    (∀ type, free.1 = .ok type → ((∃ found, bounded.1 = .ok found) ↔ Within) ∧
      (Within → bounded = (.ok type, { free.2 with profile }))) ∧
    (∀ halt, free.1 = .error halt → bounded.1 = .error halt ∨ Aborted bounded.1) ∧
    (∀ path depth iterations, bounded.1 = .error (.error (.aborted path depth iterations)) →
      depth ≤ maxDepth ∧ stats.walks + iterations = bounded.2.stats.walks + 1 ∧
      (iterations = maxIterations + 1 ∨ depth = maxDepth ∧ iterations ≤ maxIterations) ∧
      ∀ other, bounded.2.graph.get? other = graph.get? other ∨
        bounded.2.graph.get? other = free.2.graph.get? other) := by
  intro profile free bounded Within
  have hnot : ¬Aborted free.1 := not_aborted_unbounded hsize
  rcases budget_cases hsize hiterations with ⟨hwithin, hsame⟩ | ⟨hbeyond, haborted, more, hmore⟩
  · change bounded = (free.1, { free.2 with profile }) at hsame
    refine ⟨hnot, fun type hresult => ⟨?_, fun _ => ?_⟩, fun halt hresult => ?_,
      fun path depth iterations hresult => ?_⟩
    · rw [hsame, hresult]
      exact ⟨fun _ => hwithin, fun _ => ⟨type, rfl⟩⟩
    · rw [hsame, hresult]
    · rw [hsame]
      exact Or.inl hresult
    · rw [hsame] at hresult
      rw [show free.1 = _ from hresult] at hnot
      exact absurd trivial hnot
  · change Aborted bounded.1 at haborted
    refine ⟨hnot, fun type _ => ⟨⟨?_, fun h => absurd h hbeyond⟩, fun h => absurd h hbeyond⟩,
      fun halt _ => Or.inr haborted, fun path depth iterations hresult => ?_⟩
    · rintro ⟨found, hfound⟩
      rw [hfound] at haborted
      exact haborted.elim
    · obtain ⟨walks, hwalks, hoverdrawn⟩ := overdrawn_of_aborted hiterations hresult
      obtain ⟨writes, hwrites, -⟩ := Reaches.finalization (leads_tryResolve id ⟨graph, profile, stats⟩)
      refine ⟨hoverdrawn.depth_le, ?_, hoverdrawn.exceeded, hwrites.get?_between hmore⟩
      change _ = (outcome (tryResolve id) ⟨graph, profile, stats⟩).2.stats.walks + 1
      rw [hwalks, hoverdrawn.iterations_eq, Nat.add_assoc]

/-- Two functions that call each other need two walks, the second one within the first. -/
theorem tryResolve_budget_exact_mutual :
    let graph := (Graph.empty.append (.function "even") (.call (.function "odd"))).append
      (.function "odd") (.call (.function "even"))
    graph.size ≤ maxCount ∧ 2 < maxCount ∧
    (outcome (tryResolve 0) ⟨graph, .unbounded, {}⟩).1 = .ok .unknown ∧
    (∃ found, (outcome (tryResolve 0) ⟨graph, .custom 2 2, {}⟩).1 = .ok found) ∧
    (¬∃ found, (outcome (tryResolve 0) ⟨graph, .custom 1 2, {}⟩).1 = .ok found) ∧
    ¬∃ found, (outcome (tryResolve 0) ⟨graph, .custom 2 1, {}⟩).1 = .ok found := by
  intro graph
  have hsize : graph.size ≤ maxCount := by decide
  have hfree : (outcome (tryResolve 0) ⟨graph, .unbounded, {}⟩).1 = .ok .unknown := by decide +kernel
  have hwalks : (outcome (tryResolve 0) ⟨graph, .unbounded, {}⟩).2.stats.walks = 2 := by decide +kernel
  have hpeak : peakOf graph 0 = 2 := by decide +kernel
  refine ⟨hsize, by decide, hfree, ?_, ?_, ?_⟩
  · rw [((tryResolve_budget_exact graph {} 0 2 2 hsize (by decide)).2.1 _ hfree).1, hwalks, hpeak]
    decide
  · rw [((tryResolve_budget_exact graph {} 0 1 2 hsize (by decide)).2.1 _ hfree).1, hwalks, hpeak]
    decide
  · rw [((tryResolve_budget_exact graph {} 0 2 1 hsize (by decide)).2.1 _ hfree).1, hwalks, hpeak]
    decide

end Resolver

end DeferredTypes
