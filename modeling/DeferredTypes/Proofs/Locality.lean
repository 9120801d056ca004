import Mathlib.Data.Set.Basic
import DeferredTypes.Proofs.Declarations
import DeferredTypes.Proofs.Evaluation
import DeferredTypes.Proofs.Requests

/-! What the answer for a symbol depends on. A region is a set of paths that has, with each of its
symbols, all that a walk of the symbol may ask for. A run that begins in a region stays there and writes
only there. Runs over two graphs that agree on a region take the same course, although the symbols may be
numbered differently and the graphs may differ everywhere else. -/

namespace DeferredTypes

theorem Ty.Final.not_mentions {type : Ty} (hfinal : type.Final) (path : Path) : ¬type.Mentions path := by
  rintro ⟨target, chain, hpart, -⟩
  have hreference := List.any_eq_false.mp hfinal _ hpart
  exact hreference rfl

namespace Graph

/-- The type of the symbol with a path, if the path was declared. -/
def typeOf? (graph : Graph) (path : Path) : Option Ty := (graph.lookup path).bind graph.get?

/-- Whatever the symbols of the region mention is in the region. -/
def Encloses (graph : Graph) (region : Set Path) : Prop :=
  ∀ path ∈ region, ∀ type, graph.typeOf? path = some type → ∀ next, type.Mentions next → next ∈ region

/-- Each path of the region has the same type in both graphs, or was declared in neither. -/
def AgreesOn (region : Set Path) (left right : Graph) : Prop :=
  ∀ path ∈ region, left.typeOf? path = right.typeOf? path

/-- The symbols are the same, and those outside the region have the types they had. -/
structure ChangesWithin (region : Set Path) (before after : Graph) : Prop
    extends before.SameSymbols after where
  outside : ∀ id path, before.path? id = some path → path ∉ region → after.get? id = before.get? id

variable {graph left right : Graph} {region : Set Path} {path : Path} {id id' : SymbolId} {type : Ty}

theorem typeOf?_of_lookup (hlookup : graph.lookup path = some id) : graph.typeOf? path = graph.get? id := by
  rw [typeOf?, hlookup]
  rfl

theorem Indexed.lookup_eq_none (hgraph : graph.Indexed) (htype : graph.typeOf? path = none) :
    graph.lookup path = none := by
  cases hlookup : graph.lookup path with
  | none => rfl
  | some id =>
      obtain ⟨type, hget⟩ := exists_get? (hgraph.lt_size hlookup)
      rw [typeOf?_of_lookup hlookup, hget] at htype
      cases htype

/-- A write changes the type at the path of its symbol only. -/
theorem Indexed.typeOf?_set (hgraph : graph.Indexed) (hid : graph.path? id = some path) (type : Ty)
    (other : Path) :
    (graph.set id type).typeOf? other = if other = path then some type else graph.typeOf? other := by
  rw [typeOf?, (SameSymbols.set graph id type).lookup_eq]
  by_cases hother : other = path
  · subst hother
    obtain ⟨before, hget⟩ := exists_get? (lt_size_of_path? hid)
    rw [if_pos rfl, (hgraph other id).mpr hid]
    exact get?_set_self hget type
  · rw [if_neg hother, typeOf?]
    cases hlookup : graph.lookup other with
    | none => rfl
    | some next =>
        have hnext : next ≠ id := by
          rintro rfl
          have hpath := (hgraph other next).mp hlookup
          exact hother (Option.some.inj (hpath.symm.trans hid))
        exact get?_set_of_ne hnext graph type

theorem typeOf?_empty (path : Path) : empty.typeOf? path = none := rfl

theorem typeOf?_declareClass (graph : Graph) (name : String) (path : Path) :
    (graph.declareClass name).typeOf? path = graph.typeOf? path := rfl

theorem Indexed.typeOf?_append (hgraph : graph.Indexed) (path : Path) (type : Ty) (other : Path) :
    (graph.append path type).typeOf? other = if other = path then some type else graph.typeOf? other := by
  rw [typeOf?, lookup_append]
  by_cases hother : other = path
  · rw [if_pos hother, if_pos hother]
    exact (get?_append graph path type graph.size).trans (if_pos rfl)
  · rw [if_neg hother, if_neg hother, typeOf?]
    cases hlookup : graph.lookup other with
    | none => rfl
    | some id =>
        exact (get?_append graph path type id).trans (if_neg (Nat.ne_of_lt (hgraph.lt_size hlookup)))

/-- A declaration gives a path its type, be the path new or not. -/
theorem Indexed.typeOf?_declare (hgraph : graph.Indexed) (path : Path) (type : Ty) (other : Path) :
    (graph.declare path type).2.typeOf? other =
      if other = path then some type else graph.typeOf? other := by
  unfold Graph.declare
  cases hlookup : graph.lookup path with
  | some id => exact hgraph.typeOf?_set ((hgraph path id).mp hlookup) type other
  | none => exact hgraph.typeOf?_append path type other

theorem Encloses.set (hregion : graph.Encloses region) (hgraph : graph.Indexed)
    (hid : graph.path? id = some path) (hfinal : type.Final) : (graph.set id type).Encloses region := by
  intro other hother stored hstored next hnext
  rw [hgraph.typeOf?_set hid] at hstored
  by_cases hpath : other = path
  · rw [if_pos hpath] at hstored
    obtain rfl := Option.some.inj hstored
    exact absurd hnext (hfinal.not_mentions next)
  · rw [if_neg hpath] at hstored
    exact hregion other hother stored hstored next hnext

namespace AgreesOn

theorem symm (hagrees : AgreesOn region left right) : AgreesOn region right left :=
  fun path hpath => (hagrees path hpath).symm

theorem encloses (hagrees : AgreesOn region left right) (hleft : left.Encloses region) :
    right.Encloses region := by
  intro path hpath type htype
  rw [← hagrees path hpath] at htype
  exact hleft path hpath type htype

theorem get? (hagrees : AgreesOn region left right) (hpath : path ∈ region)
    (hid : left.lookup path = some id) (hid' : right.lookup path = some id') :
    right.get? id' = left.get? id := by
  rw [← typeOf?_of_lookup hid, ← typeOf?_of_lookup hid']
  exact (hagrees path hpath).symm

theorem lookup_none (hagrees : AgreesOn region left right) (hright : right.Indexed)
    (hpath : path ∈ region) (hlookup : left.lookup path = none) : right.lookup path = none := by
  apply hright.lookup_eq_none
  rw [← hagrees path hpath, typeOf?, hlookup]
  rfl

theorem exists_lookup (hagrees : AgreesOn region left right) (hleft : left.Indexed)
    (hpath : path ∈ region) (hid : left.lookup path = some id) : ∃ id', right.lookup path = some id' := by
  cases hlookup : right.lookup path with
  | some id' => exact ⟨id', rfl⟩
  | none =>
      rw [hagrees.symm.lookup_none hleft hpath hlookup] at hid
      cases hid

theorem set (hagrees : AgreesOn region left right) (hleft : left.Indexed) (hright : right.Indexed)
    (hid : left.path? id = some path) (hid' : right.path? id' = some path) (type : Ty) :
    AgreesOn region (left.set id type) (right.set id' type) := by
  intro other hother
  rw [hleft.typeOf?_set hid, hright.typeOf?_set hid']
  by_cases hpath : other = path
  · rw [if_pos hpath, if_pos hpath]
  · rw [if_neg hpath, if_neg hpath]
    exact hagrees other hother

end AgreesOn

namespace ChangesWithin

theorem refl (region : Set Path) (graph : Graph) : ChangesWithin region graph graph :=
  ⟨.refl graph, fun _ _ _ _ => rfl⟩

theorem trans {first second third : Graph} (hfirst : ChangesWithin region first second)
    (hsecond : ChangesWithin region second third) : ChangesWithin region first third := by
  refine ⟨hfirst.toSameSymbols.trans hsecond.toSameSymbols, ?_⟩
  intro id path hid hpath
  rw [hsecond.outside id path ((hfirst.path id).trans hid) hpath]
  exact hfirst.outside id path hid hpath

theorem set (hid : graph.path? id = some path) (hpath : path ∈ region) (type : Ty) :
    ChangesWithin region graph (graph.set id type) := by
  refine ⟨.set graph id type, ?_⟩
  intro other path' hother hpath'
  apply get?_set_of_ne
  rintro rfl
  obtain rfl := Option.some.inj (hid.symm.trans hother)
  exact hpath' hpath

end ChangesWithin

end Graph

/-! ### A run stays in its region -/

namespace Task

/-- The task asks for paths of the region only. -/
def Within (region : Set Path) (graph : Graph) : Task → Prop
  | .symbol id => ∃ path ∈ region, graph.path? id = some path
  | .inquiry questions => questions.Meets (· ∈ region) (fun _ => True) fun _ => True

theorem within_symbol {region : Set Path} {graph : Graph} {path : Path} {id : SymbolId}
    (hgraph : graph.Indexed) (hpath : path ∈ region) (hlookup : graph.lookup path = some id) :
    (Task.symbol id).Within region graph :=
  ⟨path, hpath, (hgraph path id).mp hlookup⟩

end Task

/-- The walk of a symbol of the region asks for paths of the region only. -/
theorem Graph.Encloses.meets {graph : Graph} {region : Set Path} {path : Path} {id : SymbolId} {type : Ty}
    (hregion : graph.Encloses region) (hgraph : graph.Indexed) (hpath : path ∈ region)
    (hid : graph.path? id = some path) (hget : graph.get? id = some type) :
    (Inquiry.ofTy type).Meets (· ∈ region) (fun _ => True) fun _ => True := by
  apply Inquiry.meets_mentions
  apply hregion path hpath
  rw [Graph.typeOf?_of_lookup ((hgraph path id).mpr hid), hget]

/-- A run that asks for paths of a region only asks for no others later, and writes in the region only. -/
theorem Task.Runs.confined {region : Set Path} {task : Task} {pass after : Pass}
    {result : Except Halt Ty} {events : List Event} (run : task.Runs pass result events after)
    (hgraph : pass.graph.Indexed) (hregion : pass.graph.Encloses region)
    (htask : task.Within region pass.graph) :
    after.graph.Encloses region ∧ Graph.ChangesWithin region pass.graph after.graph := by
  induction run with
  | cut | unallocated | recalled | exhausted | answer | refuse => exact ⟨hregion, .refl region _⟩
  | @walked pass id type result events inside hwaits _ hwalk ih =>
      obtain ⟨path, hpath, hid⟩ := htask
      have hsame := hwalk.sameSymbols
      obtain ⟨hinside, hchanges⟩ := ih hgraph hregion (hregion.meets hgraph hpath hid hwaits.get)
      rcases pass.write_settled inside id result with ⟨hsettled, -⟩ | ⟨found, rfl, hsettled, -⟩
      · rw [hsettled]
        exact ⟨hinside, hchanges⟩
      · -- The symbol that is written is the one that the task is about.
        have hid' : inside.graph.path? id = some path := (hsame.path id).trans hid
        have hfinal : found.Final := hwalk.final (.ofTy _) rfl
        rw [hsettled]
        exact ⟨hinside.set (hgraph.of_sameSymbols hsame) hid' hfinal,
          hchanges.trans (.set hid' hpath found)⟩
  | missing _ _ ih => exact ih hgraph hregion (htask.2 none fun _ _ => trivial)
  | halted hlookup _ ih => exact ih hgraph hregion (within_symbol hgraph htask.1 hlookup)
  | found hlookup hsymbol _ ihsymbol ihrest =>
      obtain ⟨hmiddle, hfirst⟩ := ihsymbol hgraph hregion (within_symbol hgraph htask.1 hlookup)
      obtain ⟨hafter, hsecond⟩ :=
        ihrest (hgraph.of_sameSymbols hsymbol.sameSymbols) hmiddle (htask.2 _ fun _ _ => trivial)
      exact ⟨hafter, hfirst.trans hsecond⟩

/-! ### Two runs in one region -/

/-- The paths of the open symbols, the outermost first. -/
def Pass.openPaths (pass : Pass) : List (Option Path) := pass.guard.stack.map pass.graph.path?

theorem Pass.depth_eq (pass : Pass) : pass.guard.depth = pass.openPaths.length :=
  (List.length_map _).symm

/-- The position of a symbol on the stack is the position of its path. -/
theorem Pass.position?_eq {pass : Pass} {id : SymbolId} {path : Path} (hgraph : pass.graph.Indexed)
    (hid : pass.graph.path? id = some path) :
    pass.guard.position? id = pass.openPaths.idxOf? (some path) := by
  have hsame : ∀ other, (other == id) = (pass.graph.path? other == some path) := by
    intro other
    rw [Bool.eq_iff_iff, beq_iff_eq, beq_iff_eq]
    constructor
    · rintro rfl
      exact hid
    · intro hother
      have hlookup := (hgraph path id).mpr hid
      rw [(hgraph path other).mpr hother] at hlookup
      exact Option.some.inj hlookup
  rw [Guard.position?, openPaths, List.idxOf?, List.idxOf?, List.findIdx?_map]
  congr 1
  funext other
  exact hsame other

/-- A run leaves the paths open that were open before. -/
theorem Task.Runs.openPaths_eq {task : Task} {pass after : Pass} {result : Except Halt Ty}
    {events : List Event} (run : task.Runs pass result events after) (hresult : ¬Faulty result) :
    after.openPaths = pass.openPaths := by
  rw [Pass.openPaths, run.stack_eq hresult, funext run.sameSymbols.path]
  rfl

/-- Two states over graphs that agree on a region. The same paths are open in both. -/
structure Pass.Mirrors (region : Set Path) (left right : Pass) : Prop where
  indexed : left.graph.Indexed
  indexed' : right.graph.Indexed
  encloses : left.graph.Encloses region
  agrees : Graph.AgreesOn region left.graph right.graph
  openPaths : right.openPaths = left.openPaths
  limits : right.guard.limits = left.guard.limits
  iterations : right.guard.iterations = left.guard.iterations
  lowLink : right.lowLink = left.lowLink

/-- Tasks for the symbols of one path, or for the same questions. -/
inductive Task.Mirrors (region : Set Path) (left right : Graph) : Task → Task → Prop
  | symbol {path id id'} (hpath : path ∈ region) (hid : left.path? id = some path)
      (hid' : right.path? id' = some path) : Mirrors region left right (.symbol id) (.symbol id')
  | inquiry {questions} (hmeets : questions.Meets (· ∈ region) (fun _ => True) fun _ => True) :
      Mirrors region left right (.inquiry questions) (.inquiry questions)

namespace Pass.Mirrors

variable {region : Set Path} {left right after after' inside inside' : Pass} {task task' : Task}
  {result : Except Halt Ty} {events events' : List Event} {path : Path} {id id' : SymbolId} {type : Ty}

theorem depth (hmirrors : left.Mirrors region right) : right.guard.depth = left.guard.depth := by
  rw [depth_eq, depth_eq, hmirrors.openPaths]

theorem position (hmirrors : left.Mirrors region right) (hid : left.graph.path? id = some path)
    (hid' : right.graph.path? id' = some path) :
    right.guard.position? id' = left.guard.position? id := by
  rw [position?_eq hmirrors.indexed hid, position?_eq hmirrors.indexed' hid', hmirrors.openPaths]

theorem not_mem (hmirrors : left.Mirrors region right) (hid : left.graph.path? id = some path)
    (hid' : right.graph.path? id' = some path) (hclosed : id ∉ left.guard.stack) :
    id' ∉ right.guard.stack := by
  rw [← Guard.position?_eq_none_iff, hmirrors.position hid hid']
  exact Guard.position?_eq_none_iff.mpr hclosed

theorem get? (hmirrors : left.Mirrors region right) (hpath : path ∈ region)
    (hid : left.graph.path? id = some path) (hid' : right.graph.path? id' = some path) :
    right.graph.get? id' = left.graph.get? id :=
  hmirrors.agrees.get? hpath ((hmirrors.indexed path id).mpr hid) ((hmirrors.indexed' path id').mpr hid')

theorem waits (hmirrors : left.Mirrors region right) (hpath : path ∈ region)
    (hid : left.graph.path? id = some path) (hid' : right.graph.path? id' = some path)
    (hwaits : left.Waits id type) : right.Waits id' type := by
  refine ⟨hmirrors.not_mem hid hid' hwaits.closed, ?_, hwaits.pending⟩
  rw [hmirrors.get? hpath hid hid', hwaits.get]

theorem attempted (hmirrors : left.Mirrors region right) :
    right.guard.attempted.iterations = left.guard.attempted.iterations := by
  rw [Guard.attempted, hmirrors.iterations]
  rfl

/-- There is room for a symbol on both sides or on neither. -/
theorem admits_iff (hmirrors : left.Mirrors region right) :
    right.guard.Admits ↔ left.guard.Admits := by
  rw [Guard.Admits, Guard.Admits, hmirrors.attempted, hmirrors.limits, hmirrors.depth]

theorem lookup (hmirrors : left.Mirrors region right) (hpath : path ∈ region)
    (hlookup : left.graph.lookup path = some id) :
    ∃ id', right.graph.lookup path = some id' ∧
      Task.Mirrors region left.graph right.graph (.symbol id) (.symbol id') := by
  obtain ⟨id', hlookup'⟩ := hmirrors.agrees.exists_lookup hmirrors.indexed hpath hlookup
  exact ⟨id', hlookup', .symbol hpath ((hmirrors.indexed path id).mp hlookup)
    ((hmirrors.indexed' path id').mp hlookup')⟩

theorem opened (hmirrors : left.Mirrors region right) (hid : left.graph.path? id = some path)
    (hid' : right.graph.path? id' = some path) : (left.opened id).Mirrors region (right.opened id') where
  indexed := hmirrors.indexed
  indexed' := hmirrors.indexed'
  encloses := hmirrors.encloses
  agrees := hmirrors.agrees
  openPaths := by
    show (right.guard.stack ++ [id']).map right.graph.path? = (left.guard.stack ++ [id]).map left.graph.path?
    rw [List.map_append, List.map_append, List.map_singleton, List.map_singleton, hid, hid']
    exact congrArg (· ++ [some path]) hmirrors.openPaths
  limits := hmirrors.limits
  iterations := hmirrors.attempted
  lowLink := rfl

theorem record (hmirrors : left.Mirrors region right) (event event' : Event) :
    (left.record event).Mirrors region (right.record event') :=
  ⟨hmirrors.indexed, hmirrors.indexed', hmirrors.encloses, hmirrors.agrees, hmirrors.openPaths,
    hmirrors.limits, hmirrors.iterations, hmirrors.lowLink⟩

theorem closesBelow_iff (hmirrors : left.Mirrors region right) (hinside : inside.Mirrors region inside') :
    inside'.ClosesBelow right.guard.depth ↔ inside.ClosesBelow left.guard.depth := by
  rw [ClosesBelow, ClosesBelow, hinside.lowLink, hmirrors.depth]

/-- The ends of two walks. Both types are kept, or both are provisional. -/
theorem settled (hmirrors : left.Mirrors region right) (hinside : inside.Mirrors region inside')
    (hid : inside.graph.path? id = some path) (hid' : inside'.graph.path? id' = some path)
    (hresult : ¬Faulty result) :
    Graph.AgreesOn region (left.settled id result inside).graph (right.settled id' result inside').graph ∧
    (right.settled id' result inside').guard.iterations = (left.settled id result inside).guard.iterations ∧
    (right.settled id' result inside').lowLink = (left.settled id result inside).lowLink ∧
    Stats.ofJournal (right.closing id' result inside') = Stats.ofJournal (left.closing id result inside) := by
  rcases result with (error | fault) | type
  · exact ⟨hinside.agrees, hinside.iterations, hmirrors.lowLink, rfl⟩
  · exact absurd trivial hresult
  · by_cases hbelow : inside.ClosesBelow left.guard.depth
    · have hbelow' := (hmirrors.closesBelow_iff hinside).mpr hbelow
      simp only [Pass.settled, Pass.closing, if_pos hbelow, if_pos hbelow']
      refine ⟨hinside.agrees, hinside.iterations, ?_, rfl⟩
      show (right.lowLink.merge min inside'.lowLink) = left.lowLink.merge min inside.lowLink
      rw [hmirrors.lowLink, hinside.lowLink]
    · have hbelow' := mt (hmirrors.closesBelow_iff hinside).mp hbelow
      simp only [Pass.settled, Pass.closing, if_neg hbelow, if_neg hbelow']
      exact ⟨hinside.agrees.set hinside.indexed hinside.indexed' hid hid' type, hinside.iterations,
        hmirrors.lowLink, rfl⟩

/-- What remains to be shown of the states after two runs of one result. -/
theorem of_runs (hmirrors : left.Mirrors region right) (run : task.Runs left result events after)
    (run' : task'.Runs right result events' after') (htask : task.Within region left.graph)
    (hresult : ¬Faulty result) (hagrees : Graph.AgreesOn region after.graph after'.graph)
    (hiterations : after'.guard.iterations = after.guard.iterations)
    (hlowLink : after'.lowLink = after.lowLink) : after.Mirrors region after' where
  indexed := hmirrors.indexed.of_sameSymbols run.sameSymbols
  indexed' := hmirrors.indexed'.of_sameSymbols run'.sameSymbols
  encloses := (run.confined hmirrors.indexed hmirrors.encloses htask).1
  agrees := hagrees
  openPaths := by rw [run.openPaths_eq hresult, run'.openPaths_eq hresult, hmirrors.openPaths]
  limits := by rw [run.limits_eq, run'.limits_eq, hmirrors.limits]
  iterations := hiterations
  lowLink := hlowLink

end Pass.Mirrors

/-- Whatever a run does, the run of the corresponding task from a corresponding state does too. -/
theorem Task.Runs.mirrored {region : Set Path} {task task' : Task} {left right after : Pass}
    {result : Except Halt Ty} {events : List Event} (run : task.Runs left result events after)
    (hmirrors : left.Mirrors region right) (htask : Task.Mirrors region left.graph right.graph task task') :
    ∃ events' after', task'.Runs right result events' after' ∧ after.Mirrors region after' ∧
      Stats.ofJournal events' = Stats.ofJournal events := by
  induction run generalizing right task' with
  | @cut left id position hposition =>
      cases htask with | symbol hpath hid hid' =>
      have hposition' := (hmirrors.position hid hid').trans hposition
      refine ⟨_, _, .cut hposition', hmirrors.of_runs (.cut hposition) (.cut hposition')
        ⟨_, hpath, hid⟩ (not_faulty_ok _) hmirrors.agrees hmirrors.iterations ?_, rfl⟩
      show right.lowLink.merge min (some position) = left.lowLink.merge min (some position)
      rw [hmirrors.lowLink]
  | unallocated _ hget =>
      cases htask with | symbol hpath hid hid' =>
      exact absurd (Graph.lt_size_of_path? hid) (Graph.not_lt_size_of_get? hget)
  | recalled hclosed hget hfinal =>
      cases htask with | symbol hpath hid hid' =>
      have hget' := (hmirrors.get? hpath hid hid').trans hget
      exact ⟨_, _, .recalled (hmirrors.not_mem hid hid' hclosed) hget' hfinal, hmirrors.record _ _, rfl⟩
  | @exhausted left id type path hwaits hadmits hpath =>
      cases htask with | symbol hregion hid hid' =>
      obtain rfl := Option.some.inj (hid.symm.trans hpath)
      have hrun := Task.Runs.exhausted hwaits hadmits hpath
      have hrun' := Task.Runs.exhausted (hmirrors.waits hregion hid hid' hwaits)
        (mt hmirrors.admits_iff.mp hadmits) hid'
      rw [hmirrors.depth, hmirrors.attempted] at hrun'
      exact ⟨_, _, hrun', hmirrors.of_runs hrun hrun' ⟨_, hregion, hid⟩ (not_faulty_error _)
        hmirrors.agrees hmirrors.attempted hmirrors.lowLink, rfl⟩
  | @walked left id type result events inside hwaits hadmits hwalk ih =>
      cases htask with | symbol hpath hid hid' =>
      obtain ⟨events', inside', hwalk', hinside, hstats⟩ := ih (hmirrors.opened hid hid')
        (.inquiry (hmirrors.encloses.meets hmirrors.indexed hpath hid hwaits.get))
      have hrun := Task.Runs.walked hwaits hadmits hwalk
      have hrun' := Task.Runs.walked (hmirrors.waits hpath hid hid' hwaits)
        (hmirrors.admits_iff.mpr hadmits) hwalk'
      have hresult : ¬Faulty result := hrun.not_faulty hmirrors.indexed (Graph.lt_size_of_path? hid)
      obtain ⟨hagrees, hiterations, hlowLink, hclosing⟩ := hmirrors.settled hinside
        ((hwalk.sameSymbols.path id).trans hid) ((hwalk'.sameSymbols.path _).trans hid') hresult
      refine ⟨_, _, hrun', hmirrors.of_runs hrun hrun' ⟨_, hpath, hid⟩ hresult hagrees hiterations
        hlowLink, ?_⟩
      rw [Stats.ofJournal_append, Stats.ofJournal_append, Stats.ofJournal_append, Stats.ofJournal_append,
        hclosing, hstats]
      rfl
  | answer =>
      cases htask with | inquiry hmeets =>
      exact ⟨_, _, .answer, hmirrors, rfl⟩
  | refuse =>
      cases htask with | inquiry hmeets =>
      exact ⟨_, _, .refuse, hmirrors, rfl⟩
  | missing hlookup _ ih =>
      cases htask with | inquiry hmeets =>
      have hlookup' := hmirrors.agrees.lookup_none hmirrors.indexed' hmeets.1 hlookup
      obtain ⟨events', after', hrest', hafter, hstats⟩ :=
        ih (hmirrors.record _ (.missing _)) (.inquiry (hmeets.2 none fun _ _ => trivial))
      refine ⟨_, after', .missing hlookup' hrest', hafter, ?_⟩
      rw [Stats.ofJournal_append, Stats.ofJournal_append, hstats]
  | halted hlookup _ ih =>
      cases htask with | inquiry hmeets =>
      obtain ⟨id', hlookup', hsymbol⟩ := hmirrors.lookup hmeets.1 hlookup
      obtain ⟨events', after', hrun', hafter, hstats⟩ := ih hmirrors hsymbol
      exact ⟨events', after', .halted hlookup' hrun', hafter, hstats⟩
  | found hlookup _ _ ihsymbol ihrest =>
      cases htask with | inquiry hmeets =>
      obtain ⟨id', hlookup', hsymbol⟩ := hmirrors.lookup hmeets.1 hlookup
      obtain ⟨first', middle', hrun', hmiddle, hfirst⟩ := ihsymbol hmirrors hsymbol
      obtain ⟨second', after', hrest', hafter, hsecond⟩ :=
        ihrest hmiddle (.inquiry (hmeets.2 _ fun _ _ => trivial))
      refine ⟨_, after', .found hlookup' hrun' hrest', hafter, ?_⟩
      rw [Stats.ofJournal_append, Stats.ofJournal_append, hfirst, hsecond]

/-- Passes over graphs that agree on a region are alike when they begin. -/
theorem Pass.Mirrors.start {region : Set Path} {left right : Graph} (hleft : left.Indexed)
    (hright : right.Indexed) (hregion : left.Encloses region)
    (hagrees : Graph.AgreesOn region left right) (limits : Limits) :
    (Pass.start left limits).Mirrors region (.start right limits) :=
  ⟨hleft, hright, hregion, hagrees, rfl, rfl, rfl, rfl⟩

namespace Resolver

/-- **An answer depends on a region only.** Let two graphs be built by whatever declarations, and let
them agree on a set of paths that the first graph encloses. A request for one of these paths has the same
result over both graphs, be it a type or an error with its path, depth and iterations; it adds the same
to the counts; it leaves the same types for all paths of the set; and neither graph changes elsewhere. -/
theorem tryResolve_local {left right : Graph} {region : Set Path} {path : Path} {id id' : SymbolId}
    (hleft : left.Built) (hright : right.Built) (hregion : left.Encloses region)
    (hagrees : Graph.AgreesOn region left right) (hpath : path ∈ region)
    (hid : left.lookup path = some id) (hid' : right.lookup path = some id') (profile : Profile)
    (stats stats' : Stats) :
    let first := outcome (tryResolve id) ⟨left, profile, stats⟩
    let second := outcome (tryResolve id') ⟨right, profile, stats'⟩
    second.1 = first.1 ∧ ¬Faulty first.1 ∧
    (∃ increments, first.2.stats = stats.merge increments ∧ second.2.stats = stats'.merge increments) ∧
    Graph.AgreesOn region first.2.graph second.2.graph ∧
    Graph.ChangesWithin region left first.2.graph ∧ Graph.ChangesWithin region right second.2.graph := by
  intro first second
  have hindexed := hleft.indexed
  have hindexed' := hright.indexed
  have hmirrors := Pass.Mirrors.start hindexed hindexed' hregion hagrees profile.limits
  have hsymbol := (hindexed path id).mp hid
  have hsymbol' := (hindexed' path id').mp hid'
  obtain ⟨result, events, after, run⟩ := (Task.symbol id).exists_run (.start left profile.limits)
  obtain ⟨events', after', run', hafter, hstats⟩ := run.mirrored hmirrors (.symbol hpath hsymbol hsymbol')
  have hfirst : first = (result, advance ⟨left, profile, stats⟩ after.graph events) :=
    outcome_tryResolve run
  have hsecond : second = (result, advance ⟨right, profile, stats'⟩ after'.graph events') :=
    outcome_tryResolve run'
  rw [hfirst, hsecond]
  refine ⟨rfl, run.not_faulty hindexed (hindexed.lt_size hid), ⟨Stats.ofJournal events, rfl, ?_⟩,
    hafter.agrees, ?_, ?_⟩
  · rw [← hstats]
    rfl
  · exact (run.confined hindexed hregion ⟨path, hpath, hsymbol⟩).2
  · exact (run'.confined hindexed' (hagrees.encloses hregion) ⟨path, hpath, hsymbol'⟩).2

/-- A function and a method that ask for each other. The second graph declares them in another order,
with a class and an ill-formed function besides, and the method has another number there. -/
theorem tryResolve_local_reordered :
    let get := Ty.returning (.union [.literal (.int 7), .call (.function "main")])
    let main := Ty.reference (.function "make") [.callResult, .memberCall "get"]
    let make := Ty.returning (.object "Box")
    let left := (((Graph.empty.declare (.method "Box" "get") get).2.declare (.function "make") make).2.declare
      (.function "main") main).2
    let right := (((((Graph.empty.declareClass "Shelf").declare (.function "main") main).2.declare
      (.function "noise") (.union [])).2.declare (.function "make") make).2.declare
      (.method "Box" "get") get).2
    let first := outcome (tryResolve 2) ⟨left, .unbounded, {}⟩
    let second := outcome (tryResolve 0) ⟨right, .unbounded, {}⟩
    first.1 = .ok (.union [.unknown, .literal (.int 7)]) ∧ second.1 = first.1 ∧
      second.2.graph.get? 1 = some (.union []) := by
  intro get main make left right first second
  let region : Set Path := fun path =>
    path = .function "main" ∨ path = .function "make" ∨ ∃ owner, path = .method owner "get"
  have hempty := Graph.Indexed.empty
  have hclass := hempty.declareClass "Shelf"
  have hleft : ∀ path, left.typeOf? path = if path = .function "main" then some main
      else if path = .function "make" then some make
      else if path = .method "Box" "get" then some get else none := by
    intro path
    rw [((hempty.declare _ _).declare _ _).typeOf?_declare, (hempty.declare _ _).typeOf?_declare,
      hempty.typeOf?_declare, Graph.typeOf?_empty]
  have hright : ∀ path, right.typeOf? path = if path = .method "Box" "get" then some get
      else if path = .function "make" then some make
      else if path = .function "noise" then some (.union [])
      else if path = .function "main" then some main else none := by
    intro path
    rw [(((hclass.declare _ _).declare _ _).declare _ _).typeOf?_declare,
      ((hclass.declare _ _).declare _ _).typeOf?_declare, (hclass.declare _ _).typeOf?_declare,
      hclass.typeOf?_declare, Graph.typeOf?_declareClass, Graph.typeOf?_empty]
  have hagrees : Graph.AgreesOn region left right := by
    intro path hpath
    rw [hleft, hright]
    rcases hpath with rfl | rfl | ⟨owner, rfl⟩
    · rfl
    · rfl
    · by_cases howner : owner = "Box"
      · subst howner
        rfl
      · simp [howner, Path.method, Path.function]
  have hregion : left.Encloses region := by
    rintro path - type htype next ⟨target, chain, hpart, hnext⟩
    rw [hleft] at htype
    split_ifs at htype <;> obtain rfl := Option.some.inj htype
    · obtain ⟨rfl, rfl⟩ : target = .function "make" ∧ chain = [.callResult, .memberCall "get"] := by
        simpa [main, Ty.subterms] using hpart
      rcases hnext with rfl | ⟨owner, method, hmethod, rfl⟩
      · exact Or.inr (Or.inl rfl)
      · obtain rfl : method = "get" := by simpa using hmethod
        exact Or.inr (Or.inr ⟨owner, rfl⟩)
    · simp [make, Ty.returning, Ty.subterms, Ty.paramSubterms] at hpart
    · obtain ⟨rfl, rfl⟩ : target = .function "main" ∧ chain = [.callResult] := by
        simpa [get, Ty.returning, Ty.call, Ty.subterms, Ty.paramSubterms, Ty.memberSubterms] using hpart
      rcases hnext with rfl | ⟨owner, method, hmethod, rfl⟩
      · exact Or.inl rfl
      · simp at hmethod
  have hresult : first.1 = .ok (.union [.unknown, .literal (.int 7)]) := by decide +kernel
  obtain ⟨hsame, -, -, -, -, hchanges⟩ := tryResolve_local
    (((Graph.Built.empty.declare _ _).declare _ _).declare (.function "main") main)
    (((((Graph.Built.empty.declareClass "Shelf").declare _ _).declare _ _).declare _ _).declare _ _)
    hregion hagrees (Or.inl rfl : .function "main" ∈ region) rfl rfl .unbounded {} {}
  refine ⟨hresult, hsame, ?_⟩
  have hnoise : Path.function "noise" ∉ region := by
    rintro (hname | hname | ⟨owner, hname⟩) <;> simp [Path.function, Path.method] at hname
  exact hchanges.outside 1 (.function "noise") rfl hnoise

end Resolver

end DeferredTypes
