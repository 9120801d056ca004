import Mathlib.Data.List.Nodup
import DeferredTypes.Proofs.Inquiry
import DeferredTypes.Proofs.Outcome

/-! The runs of a resolution, rule by rule. A run leads from one state to another with a result and the
events it adds to the journal. Every task has a run from every state, and a run is what the walk of the
resolution does; what holds of all runs is proved by induction on them, one case per rule. -/

namespace DeferredTypes

/-! ### Steps of the state -/

namespace Guard

variable {κ : Type}

/-- The guard after one more attempt to enter a key. -/
def attempted (guard : Guard κ) : Guard κ :=
  { guard with iterations := min (guard.iterations + 1) maxCount }

/-- The budget suffices to enter a key that nobody works on. -/
def Admits (guard : Guard κ) : Prop :=
  guard.attempted.iterations ≤ guard.limits.maxIterations ∧ guard.depth < guard.limits.maxDepth

variable [DecidableEq κ] {guard : Guard κ} {key : κ}

theorem position?_eq_none_iff : guard.position? key = none ↔ key ∉ guard.stack := by
  rw [position?, List.idxOf?_eq_none_iff]

theorem mem_of_position? {position : Nat} (h : guard.position? key = some position) :
    key ∈ guard.stack := by
  by_contra hkey
  rw [position?_eq_none_iff.mpr hkey] at h
  cases h

theorem exists_position (hkey : key ∈ guard.stack) : ∃ position, guard.position? key = some position :=
  Option.ne_none_iff_exists'.mp (mt position?_eq_none_iff.mp (not_not_intro hkey))

theorem enter_of_not_mem (hkey : key ∉ guard.stack) :
    guard.enter key =
      if guard.limits.maxIterations < guard.attempted.iterations then
        (.iterationExceeded, guard.attempted)
      else if guard.limits.maxDepth ≤ guard.depth then (.depthExceeded, guard.attempted)
      else (.entered, { guard.attempted with stack := guard.stack ++ [key] }) := by
  have hposition : guard.attempted.position? key = none := position?_eq_none_iff.mpr hkey
  rw [attempted] at hposition
  simp only [enter, hposition, attempted, depth]
  rfl

theorem enter_of_position? {position : Nat} (hposition : guard.position? key = some position) :
    guard.enter key =
      if guard.limits.maxIterations < guard.attempted.iterations then
        (.iterationExceeded, guard.attempted)
      else (.cycle position, guard.attempted) := by
  have hposition' : guard.attempted.position? key = some position := hposition
  rw [attempted] at hposition'
  simp only [enter, hposition']
  rfl

theorem enter_of_admits (hkey : key ∉ guard.stack) (hadmits : guard.Admits) :
    guard.enter key = (.entered, { guard.attempted with stack := guard.stack ++ [key] }) := by
  rw [enter_of_not_mem hkey, if_neg (by have := hadmits.1; omega), if_neg (by have := hadmits.2; omega)]

theorem enter_of_not_admits (hkey : key ∉ guard.stack) (hadmits : ¬guard.Admits) :
    guard.enter key = (.iterationExceeded, guard.attempted) ∨
      guard.enter key = (.depthExceeded, guard.attempted) := by
  rw [enter_of_not_mem hkey]
  by_cases hiterations : guard.limits.maxIterations < guard.attempted.iterations
  · exact Or.inl (if_pos hiterations)
  · right
    rw [if_neg hiterations, if_pos]
    by_contra hdepth
    exact hadmits ⟨by omega, by omega⟩

theorem erase_top {below : List κ} (hkey : key ∉ below) : (below ++ [key]).erase key = below := by
  rw [List.erase_append_right _ hkey, List.erase_cons_head, List.append_nil]

theorem leave_of_mem (hkey : key ∈ guard.stack) :
    guard.leave key = .ok { guard with stack := guard.stack.erase key } :=
  if_pos hkey

end Guard

namespace Graph

variable {graph : Graph} {id : SymbolId} {type : Ty}

theorem lt_size_of_get? (hget : graph.get? id = some type) : id < graph.size := by
  by_contra hsize
  rw [get?, Array.getElem?_eq_none (by simpa [size] using hsize)] at hget
  cases hget

theorem not_lt_size_of_get? (hget : graph.get? id = none) : ¬id < graph.size := by
  intro hsize
  rw [get?, Array.getElem?_eq_getElem hsize] at hget
  cases hget

theorem exists_path (hget : graph.get? id = some type) : ∃ path, graph.path? id = some path := by
  obtain ⟨symbol, hsymbol, -⟩ := Option.map_eq_some_iff.mp hget
  exact ⟨symbol.path, by rw [path?, hsymbol]; rfl⟩

end Graph

namespace Pass

/-- An open symbol was asked for. -/
def cutAt (pass : Pass) (id : SymbolId) (position : Nat) : Pass :=
  (pass.link (some position)).record (.cut id position)

/-- A symbol is put on the stack; the cuts onto symbols below it are yet to come. -/
def opened (pass : Pass) (id : SymbolId) : Pass :=
  { pass with
    guard := { pass.guard.attempted with stack := pass.guard.stack ++ [id] }
    lowLink := none }.record (.walked id pass.guard.depth)

/-- A symbol is taken off the stack after its walk; the cuts before the walk count again. -/
def resumed (before inside : Pass) (id : SymbolId) : Pass :=
  { inside with
    guard := { inside.guard with stack := inside.guard.stack.erase id }
    lowLink := before.lowLink }.record (.left id)

/-- A cut closed onto a symbol below this position. -/
def ClosesBelow (inside : Pass) (position : Nat) : Prop := inside.lowLink.any (· < position) = true

instance (inside : Pass) (position : Nat) : Decidable (inside.ClosesBelow position) :=
  inferInstanceAs (Decidable (_ = true))

/-- The state after the walk of a symbol. Its type is kept unless a cut closed onto a symbol that is
open still. -/
def settled (before : Pass) (id : SymbolId) (result : Except Halt Ty) (inside : Pass) : Pass :=
  match result with
  | .error (.fault _) => inside
  | .error (.error _) => before.resumed inside id
  | .ok type =>
      if inside.ClosesBelow before.guard.depth then
        ((before.resumed inside id).link inside.lowLink).record (.provisional id)
      else
        { before.resumed inside id with graph := inside.graph.set id type }.record (.stored id)

/-- The events at the end of the walk of a symbol, the latest first. -/
def closing (before : Pass) (id : SymbolId) (result : Except Halt Ty) (inside : Pass) : List Event :=
  match result with
  | .error (.fault _) => []
  | .error (.error _) => [.left id]
  | .ok _ =>
      if inside.ClosesBelow before.guard.depth then [.provisional id, .left id]
      else [.stored id, .left id]

theorem mem_closed {pass : Pass} {id : SymbolId} :
    id ∈ pass.closed ↔ id < pass.graph.size ∧ id ∉ pass.guard.stack := by
  simp [closed, Graph.ids]

theorem nodup_closed (pass : Pass) : pass.closed.Nodup := List.nodup_range.filter _

theorem closed_opened (pass : Pass) (id : SymbolId) :
    (pass.opened id).closed = pass.closed.erase id := by
  rw [pass.nodup_closed.erase_eq_filter]
  change pass.graph.ids.filter (fun other => other ∉ pass.guard.stack ++ [id]) = _
  rw [closed, List.filter_filter]
  apply List.filter_congr
  intro other _
  by_cases hother : other = id <;> simp [hother]

/-- A symbol that is not open and whose type is not final. -/
structure Waits (pass : Pass) (id : SymbolId) (type : Ty) : Prop where
  closed : id ∉ pass.guard.stack
  get : pass.graph.get? id = some type
  pending : type.containsReference = true

end Pass

/-! ### Rules -/

/-- What a resolution is asked to do. -/
inductive Task
  | symbol (id : SymbolId)
  | inquiry (questions : Inquiry Ty)

/-- The runs of a task from a state: their result, the events they add, and the state they leave. -/
inductive Task.Runs : Task → Pass → Except Halt Ty → List Event → Pass → Prop
  | cut {pass id position} (hposition : pass.guard.position? id = some position) :
      Runs (.symbol id) pass (.ok .unknown) [.cut id position] (pass.cutAt id position)
  | unallocated {pass id} (hclosed : id ∉ pass.guard.stack) (hget : pass.graph.get? id = none) :
      Runs (.symbol id) pass (.error (.fault (.unallocated id))) [] pass
  | recalled {pass id type} (hclosed : id ∉ pass.guard.stack) (hget : pass.graph.get? id = some type)
      (hfinal : type.containsReference = false) :
      Runs (.symbol id) pass (.ok type) [.recalled id] (pass.record (.recalled id))
  | exhausted {pass id type path} (hwaits : pass.Waits id type) (hadmits : ¬pass.guard.Admits)
      (hpath : pass.graph.path? id = some path) :
      Runs (.symbol id) pass
        (.error (.error (.aborted path pass.guard.depth pass.guard.attempted.iterations))) []
        { pass with guard := pass.guard.attempted }
  | walked {pass id type result events inside} (hwaits : pass.Waits id type)
      (hadmits : pass.guard.Admits)
      (hwalk : Runs (.inquiry (.ofTy type)) (pass.opened id) result events inside) :
      Runs (.symbol id) pass result
        (pass.closing id result inside ++ events ++ [.walked id pass.guard.depth])
        (pass.settled id result inside)
  | answer {pass type} : Runs (.inquiry (.answer type)) pass (.ok type) [] pass
  | refuse {pass error} :
      Runs (.inquiry (.refuse error)) pass (.error (.error (.precondition error))) [] pass
  | missing {pass path rest result events after} (hlookup : pass.graph.lookup path = none)
      (hrest : Runs (.inquiry (rest none)) (pass.record (.missing path)) result events after) :
      Runs (.inquiry (.ask path rest)) pass result (events ++ [.missing path]) after
  | halted {pass path rest id halt events after} (hlookup : pass.graph.lookup path = some id)
      (hsymbol : Runs (.symbol id) pass (.error halt) events after) :
      Runs (.inquiry (.ask path rest)) pass (.error halt) events after
  | found {pass path rest id type first middle result second after}
      (hlookup : pass.graph.lookup path = some id)
      (hsymbol : Runs (.symbol id) pass (.ok type) first middle)
      (hrest : Runs (.inquiry (rest (some type))) middle result second after) :
      Runs (.inquiry (.ask path rest)) pass result (second ++ first) after

/-! ### What a run leaves as it was -/

/-- Two graphs with the same symbols, which may differ in the types of these. -/
structure Graph.SameSymbols (before after : Graph) : Prop where
  functions : after.functions = before.functions
  classes : after.classes = before.classes
  byPath : after.byPath = before.byPath
  size : after.size = before.size
  path : ∀ id, after.path? id = before.path? id

namespace Graph.SameSymbols

variable {first second third : Graph}

theorem refl (graph : Graph) : graph.SameSymbols graph := ⟨rfl, rfl, rfl, rfl, fun _ => rfl⟩

theorem trans (left : first.SameSymbols second) (right : second.SameSymbols third) :
    first.SameSymbols third :=
  ⟨right.functions.trans left.functions, right.classes.trans left.classes,
    right.byPath.trans left.byPath, right.size.trans left.size,
    fun id => (right.path id).trans (left.path id)⟩

theorem set (graph : Graph) (id : SymbolId) (type : Ty) : graph.SameSymbols (graph.set id type) := by
  refine ⟨rfl, rfl, rfl, Array.size_modify, fun other => ?_⟩
  simp only [path?, Graph.set, Array.getElem?_modify]
  split
  · simp only [Option.map_map]
    rfl
  · rfl

theorem lookup_eq (same : first.SameSymbols second) (path : Path) :
    second.lookup path = first.lookup path := by
  rw [lookup, lookup, same.byPath]

theorem ids_eq (same : first.SameSymbols second) : second.ids = first.ids := by
  rw [ids, ids, same.size]

end Graph.SameSymbols

def Faulty {α : Type} : Except Halt α → Prop
  | .error (.fault _) => True
  | _ => False

/-- The result says that the budget was exhausted. -/
def Aborted {α : Type} : Except Halt α → Prop
  | .error (.error (.aborted ..)) => True
  | _ => False

theorem not_faulty_ok {α : Type} (value : α) : ¬Faulty (.ok value) := fun h => h

theorem not_faulty_error {α : Type} (error : ResolveError) :
    ¬Faulty (.error (.error error) : Except Halt α) := fun h => h

namespace Pass

variable {before inside : Pass} {id : SymbolId} {result : Except Halt Ty}

theorem sameSymbols_settled : inside.graph.SameSymbols (before.settled id result inside).graph := by
  unfold settled
  split
  · exact .refl _
  · exact .refl _
  · split
    · exact .refl _
    · exact .set _ _ _

theorem limits_settled : (before.settled id result inside).guard.limits = inside.guard.limits := by
  unfold settled
  split
  · rfl
  · rfl
  · split <;> rfl

theorem journal_settled :
    (before.settled id result inside).journal = before.closing id result inside ++ inside.journal := by
  unfold settled closing
  split
  · rfl
  · rfl
  · split <;> rfl

/-- After the walk of a symbol the stack is what it was before. -/
theorem stack_settled (hclosed : id ∉ before.guard.stack) (hresult : ¬Faulty result)
    (hstack : inside.guard.stack = (before.opened id).guard.stack) :
    (before.settled id result inside).guard.stack = before.guard.stack := by
  have hresumed : (before.resumed inside id).guard.stack = before.guard.stack := by
    change inside.guard.stack.erase id = before.guard.stack
    rw [hstack]
    exact Guard.erase_top hclosed
  unfold settled
  split
  · exact absurd trivial hresult
  · exact hresumed
  · split <;> exact hresumed

end Pass

namespace Task.Runs

variable {task : Task} {pass after : Pass} {result : Except Halt Ty} {events : List Event}

/-- A run changes types only. -/
theorem sameSymbols (run : task.Runs pass result events after) :
    pass.graph.SameSymbols after.graph := by
  induction run with
  | cut | unallocated | recalled | exhausted | answer | refuse => exact .refl _
  | walked _ _ _ ih => exact ih.trans Pass.sameSymbols_settled
  | missing _ _ ih | halted _ _ ih => exact ih
  | found _ _ _ ihsymbol ihrest => exact ihsymbol.trans ihrest

theorem limits_eq (run : task.Runs pass result events after) :
    after.guard.limits = pass.guard.limits := by
  induction run with
  | cut | unallocated | recalled | exhausted | answer | refuse => rfl
  | walked _ _ _ ih => exact Pass.limits_settled.trans ih
  | missing _ _ ih | halted _ _ ih => exact ih
  | found _ _ _ ihsymbol ihrest => exact ihrest.trans ihsymbol

/-- The events of a run are what it adds to the journal. -/
theorem journal_eq (run : task.Runs pass result events after) :
    after.journal = events ++ pass.journal := by
  induction run with
  | cut | unallocated | recalled | exhausted | answer | refuse => rfl
  | walked _ _ _ ih =>
      rw [Pass.journal_settled, ih]
      simp only [Pass.opened, Pass.record, List.append_assoc, List.singleton_append]
  | missing _ _ ih =>
      rw [ih]
      simp only [Pass.record, List.append_assoc, List.singleton_append]
  | halted _ _ ih => exact ih
  | found _ _ _ ihsymbol ihrest => rw [ihrest, ihsymbol, List.append_assoc]

/-- A symbol is taken off the stack again however its walk ends, faults apart. -/
theorem stack_eq (run : task.Runs pass result events after) (hresult : ¬Faulty result) :
    after.guard.stack = pass.guard.stack := by
  induction run with
  | cut | recalled | exhausted | unallocated | answer | refuse => rfl
  | walked hwaits _ _ ih => exact Pass.stack_settled hwaits.closed hresult (ih hresult)
  | missing _ _ ih | halted _ _ ih => exact ih hresult
  | found _ _ _ ihsymbol ihrest => exact (ihrest hresult).trans (ihsymbol (not_faulty_ok _))

theorem closed_eq (run : task.Runs pass result events after) (hresult : ¬Faulty result) :
    after.closed = pass.closed := by
  rw [Pass.closed, Pass.closed, run.sameSymbols.ids_eq, run.stack_eq hresult]

end Task.Runs

/-! ### A run is what the walk of a resolution does -/

namespace Walk

theorem outcome_leave {id : SymbolId} {pass : Pass} (hopen : id ∈ pass.guard.stack) :
    outcome (leave id) pass =
      (.ok (), { pass with
        guard := { pass.guard with stack := pass.guard.stack.erase id } }.record (.left id)) := by
  rw [leave, outcome_get_bind, Guard.leave_of_mem hopen]
  rfl

theorem outcome_abort_of_path {α : Type} {id : SymbolId} {pass : Pass} {path : Path}
    (hpath : pass.graph.path? id = some path) :
    outcome (abort id : Walk α) pass =
      (.error (.error (.aborted path pass.guard.depth pass.guard.iterations)), pass) := by
  rw [abort, outcome_get_bind, hpath]
  rfl

variable {pass : Pass} {id : SymbolId} {body : Walk Ty}

theorem outcome_withOpen_of_not_admits {path : Path} (hclosed : id ∉ pass.guard.stack)
    (hadmits : ¬pass.guard.Admits) (hpath : pass.graph.path? id = some path) :
    outcome (withOpen id body) pass =
      (.error (.error (.aborted path pass.guard.depth pass.guard.attempted.iterations)),
        { pass with guard := pass.guard.attempted }) := by
  rw [withOpen, outcome_get_bind]
  rcases Guard.enter_of_not_admits hclosed hadmits with henter | henter
  · rw [henter]
    exact outcome_abort_of_path hpath
  · rw [henter]
    exact outcome_abort_of_path hpath

theorem outcome_settle (position : Nat) (inner : Option Nat) (type : Ty) :
    outcome (settle id position inner type) pass =
      (.ok (), if inner.any (· < position) then (pass.link inner).record (.provisional id)
        else { pass with graph := pass.graph.set id type }.record (.stored id)) := by
  unfold settle
  split <;> rfl

theorem outcome_withOpen_of_admits {result : Except Halt Ty} {inside : Pass}
    (hclosed : id ∉ pass.guard.stack) (hadmits : pass.guard.Admits)
    (hbody : outcome body (pass.opened id) = (result, inside))
    (hopen : ¬Faulty result → id ∈ inside.guard.stack) :
    outcome (withOpen id body) pass = (result, pass.settled id result inside) := by
  have hposition : (pass.guard.stack ++ [id]).length - 1 = pass.guard.stack.length := by simp
  rw [withOpen, outcome_get_bind, Guard.enter_of_admits hclosed hadmits]
  simp only [outcome_set_bind, outcome_modify_bind, Guard.depth, hposition]
  change outcome (attempt body >>= _) (pass.opened id) = _
  rw [outcome_bind, outcome_attempt, hbody]
  rcases result with (error | fault) | type
  · dsimp only
    rw [outcome_bind, outcome_leave (hopen (not_faulty_error _))]
    rfl
  · rfl
  · dsimp only
    rw [outcome_bind, outcome_leave (hopen (not_faulty_ok _))]
    change outcome (settle id pass.guard.depth inside.lowLink type >>= fun _ => pure type)
      (pass.resumed inside id) = _
    rw [outcome_bind, outcome_settle]
    rfl

/-- The way of a symbol that waits. -/
theorem outcome_resolveSymbol_of_waits {type : Ty} (hwaits : pass.Waits id type) :
    outcome (resolveSymbol pass.closed id) pass =
      outcome (withOpen id (resolve (fun next => resolveSymbol (pass.closed.erase id) next) type))
        pass := by
  have hposition := Guard.position?_eq_none_iff.mpr hwaits.closed
  have hmem : id ∈ pass.closed := Pass.mem_closed.mpr ⟨Graph.lt_size_of_get? hwaits.get, hwaits.closed⟩
  rw [resolveSymbol, outcome_get_bind, hposition]
  simp only [dif_pos hmem, hwaits.get, hwaits.pending, if_true]

end Walk

/-- What the resolution does for a task while these symbols are not open. -/
def Task.walk (closed : List SymbolId) : Task → Walk Ty
  | .symbol id => Walk.resolveSymbol closed id
  | .inquiry questions => questions.run (Walk.resolveSymbol closed)

namespace Task.Runs

variable {task : Task} {pass after : Pass} {result : Except Halt Ty} {events : List Event}

/-- A run is what the walk of its task does. -/
theorem outcome_walk (run : task.Runs pass result events after) :
    outcome (task.walk pass.closed) pass = (result, after) := by
  induction run with
  | cut hposition =>
      rw [walk, Walk.resolveSymbol, outcome_get_bind, hposition]
      rfl
  | @unallocated pass id hclosed hget =>
      have hmem : id ∉ pass.closed := fun hmem =>
        Graph.not_lt_size_of_get? hget (Pass.mem_closed.mp hmem).1
      rw [walk, Walk.resolveSymbol, outcome_get_bind, Guard.position?_eq_none_iff.mpr hclosed]
      simp only [dif_neg hmem]
      rfl
  | @recalled pass id type hclosed hget hfinal =>
      have hmem : id ∈ pass.closed := Pass.mem_closed.mpr ⟨Graph.lt_size_of_get? hget, hclosed⟩
      rw [walk, Walk.resolveSymbol, outcome_get_bind, Guard.position?_eq_none_iff.mpr hclosed]
      simp only [dif_pos hmem, hget, hfinal]
      rfl
  | exhausted hwaits hadmits hpath =>
      rw [walk, Walk.outcome_resolveSymbol_of_waits hwaits,
        Walk.outcome_withOpen_of_not_admits hwaits.closed hadmits hpath]
  | @walked pass id type result events inside hwaits hadmits hwalk ih =>
      rw [walk, Pass.closed_opened, Inquiry.run_ofTy] at ih
      rw [walk, Walk.outcome_resolveSymbol_of_waits hwaits]
      refine Walk.outcome_withOpen_of_admits hwaits.closed hadmits ih fun hresult => ?_
      rw [hwalk.stack_eq hresult]
      exact List.mem_append_right _ (List.mem_singleton_self id)
  | answer => rfl
  | refuse => rfl
  | missing hlookup _ ih =>
      rw [walk, Inquiry.run, outcome_get_bind, hlookup]
      exact ih
  | halted hlookup _ ih =>
      rw [walk] at ih
      rw [walk, Inquiry.run, outcome_get_bind, hlookup]
      dsimp only
      rw [outcome_bind, ih]
  | found hlookup hsymbol _ ihsymbol ihrest =>
      rw [hsymbol.closed_eq (not_faulty_ok _), walk] at ihrest
      rw [walk] at ihsymbol
      rw [walk, Inquiry.run, outcome_get_bind, hlookup]
      dsimp only
      rw [outcome_bind, ihsymbol]
      exact ihrest

theorem outcome_symbol {id : SymbolId} (run : (Task.symbol id).Runs pass result events after) :
    outcome (Walk.symbol id) pass = (result, after) := by
  rw [Walk.symbol, outcome_get_bind]
  exact run.outcome_walk

theorem outcome_type {type : Ty} (run : (Task.inquiry (.ofTy type)).Runs pass result events after) :
    outcome (Walk.type type) pass = (result, after) := by
  have hwalk := run.outcome_walk
  rw [walk, Inquiry.run_ofTy] at hwalk
  rw [Walk.type, outcome_get_bind]
  exact hwalk

end Task.Runs

/-! ### Every task has a run -/

namespace Task

/-- If symbols have runs, the questions of an inquiry have answers. -/
theorem exists_run_inquiry {count : Nat}
    (hsymbol : ∀ id pass, pass.closed.length = count →
      ∃ result events after, (Task.symbol id).Runs pass result events after)
    (questions : Inquiry Ty) (pass : Pass) (hpass : pass.closed.length = count) :
    ∃ result events after, (Task.inquiry questions).Runs pass result events after := by
  induction questions generalizing pass with
  | answer type => exact ⟨_, _, _, .answer⟩
  | refuse error => exact ⟨_, _, _, .refuse⟩
  | ask path rest ih =>
      cases hlookup : pass.graph.lookup path with
      | none =>
          obtain ⟨result, events, after, hrest⟩ := ih none (pass.record (.missing path)) hpass
          exact ⟨_, _, _, .missing hlookup hrest⟩
      | some id =>
          obtain ⟨result, first, middle, hrun⟩ := hsymbol id pass hpass
          cases result with
          | error halt => exact ⟨_, _, _, .halted hlookup hrun⟩
          | ok type =>
              have hmiddle : middle.closed.length = count := by
                rw [hrun.closed_eq (not_faulty_ok _), hpass]
              obtain ⟨result, second, after, hrest⟩ := ih (some type) middle hmiddle
              exact ⟨_, _, _, .found hlookup hrun hrest⟩

theorem exists_run_symbol (id : SymbolId) (pass : Pass) :
    ∃ result events after, (Task.symbol id).Runs pass result events after := by
  -- Each symbol that is opened leaves one less that can be.
  induction hcount : pass.closed.length using Nat.strongRecOn generalizing id pass with
  | ind count ih =>
      by_cases hopen : id ∈ pass.guard.stack
      · obtain ⟨position, hposition⟩ := Guard.exists_position hopen
        exact ⟨_, _, _, .cut hposition⟩
      cases hget : pass.graph.get? id with
      | none => exact ⟨_, _, _, .unallocated hopen hget⟩
      | some type =>
          by_cases hpending : type.containsReference = true
          · have hwaits : pass.Waits id type := ⟨hopen, hget, hpending⟩
            by_cases hadmits : pass.guard.Admits
            · have hmem : id ∈ pass.closed :=
                Pass.mem_closed.mpr ⟨Graph.lt_size_of_get? hget, hopen⟩
              have hshorter : (pass.opened id).closed.length < count := by
                rw [Pass.closed_opened, List.length_erase_of_mem hmem, ← hcount]
                have := List.length_pos_of_mem hmem
                omega
              obtain ⟨result, events, inside, hwalk⟩ := exists_run_inquiry
                (fun next inner hinner => ih _ hshorter next inner hinner) (.ofTy type)
                (pass.opened id) rfl
              exact ⟨_, _, _, .walked hwaits hadmits hwalk⟩
            · obtain ⟨path, hpath⟩ := Graph.exists_path hget
              exact ⟨_, _, _, .exhausted hwaits hadmits hpath⟩
          · exact ⟨_, _, _, .recalled hopen hget (Bool.eq_false_iff.mpr hpending)⟩

/-- Every task has a run. -/
theorem exists_run (task : Task) (pass : Pass) :
    ∃ result events after, task.Runs pass result events after := by
  cases task with
  | symbol id => exact exists_run_symbol id pass
  | inquiry questions =>
      exact exists_run_inquiry (fun id inner _ => exists_run_symbol id inner) questions pass rfl

end Task

end DeferredTypes
