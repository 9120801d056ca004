import DeferredTypes.Proofs.Untangled

/-! A resolution made over a graph in which some symbols are final already. If the symbols that it walks are
among these only where their types are given by the graph alone, it goes as it would have gone at first:
the two runs open the same other symbols, make the same cuts onto them and keep the same types. -/

namespace DeferredTypes

/-- No type of the symbol is given by the graph alone. -/
def Graph.Tangles (graph : Graph) (id : SymbolId) : Prop := ∀ type, ¬graph.Yields id type

/-- Two graphs that come from the same one and agree on the symbols that are tangled there, those apart
that have their first types in the one graph and are not walked. -/
structure Graph.Tracks (graph : Graph) (walked : SymbolId → Prop) (left right : Graph) : Prop where
  keeps : graph.Keeps left
  keeps' : graph.Keeps right
  types : ∀ id, graph.Tangles id →
    right.get? id = left.get? id ∨ left.get? id = graph.get? id ∧ ¬walked id

namespace Graph.Tracks

variable {graph left right left' right' : Graph} {walked : SymbolId → Prop} {id : SymbolId} {type : Ty}

theorem fills (htracks : graph.Tracks walked left right) (hleft : graph.Fills left left')
    (hright : graph.Fills right right') : graph.Tracks walked left' right' where
  keeps := htracks.keeps.fills hleft
  keeps' := htracks.keeps'.fills hright
  types id hid := by
    have hsame : left'.get? id = left.get? id :=
      (hleft.types id).resolve_right fun ⟨type, hyields, _⟩ => hid type hyields
    have hsame' : right'.get? id = right.get? id :=
      (hright.types id).resolve_right fun ⟨type, hyields, _⟩ => hid type hyields
    rw [hsame, hsame']
    exact htracks.types id hid

theorem set (htracks : graph.Tracks walked left right) (hid : graph.Tangles id)
    {before before' : Ty} (hleft : left.get? id = some before) (hright : right.get? id = some before')
    (type : Ty) : graph.Tracks walked (left.set id type) (right.set id type) where
  keeps := htracks.keeps.set hid type
  keeps' := htracks.keeps'.set hid type
  types other hother := by
    by_cases heq : other = id
    · subst heq
      rw [get?_set_self hleft, get?_set_self hright]
      exact Or.inl rfl
    · rw [get?_set_of_ne heq, get?_set_of_ne heq]
      exact htracks.types other hother

/-- A tangled symbol that is final in the one graph has the same type in the other. -/
theorem get?_of_final (htracks : graph.Tracks walked left right) (hid : graph.Tangles id)
    (hget : left.get? id = some type) (hfinal : type.Final) : right.get? id = some type := by
  rcases htracks.types id hid with hsame | ⟨hfirst, -⟩
  · exact hsame.trans hget
  · exact absurd ⟨0, .final nofun (hfirst.symm.trans hget) hfinal⟩ (hid type)

theorem lookup_eq (htracks : graph.Tracks walked left right) (path : Path) :
    right.lookup path = left.lookup path := by
  rw [htracks.keeps.same.lookup_eq, htracks.keeps'.same.lookup_eq]

theorem get?_of_none (htracks : graph.Tracks walked left right) (hget : left.get? id = none) :
    right.get? id = none := by
  cases hright : right.get? id with
  | none => rfl
  | some type =>
      have hsize := lt_size_of_get? hright
      rw [htracks.keeps'.same.size, ← htracks.keeps.same.size] at hsize
      exact absurd hsize (not_lt_size_of_get? hget)

theorem get?_of_walked (htracks : graph.Tracks walked left right) (hid : graph.Tangles id)
    (hwalked : walked id) : right.get? id = left.get? id :=
  (htracks.types id hid).resolve_right fun h => h.2 hwalked

end Graph.Tracks

/-- Two states with the same open symbols, all of them tangled, over graphs that agree where it matters. -/
structure Pass.Follows (graph : Graph) (walked : SymbolId → Prop) (left right : Pass) : Prop where
  stack : right.guard.stack = left.guard.stack
  tangles : ∀ id ∈ left.guard.stack, graph.Tangles id
  tracks : graph.Tracks walked left.graph right.graph

namespace Pass.Follows

variable {graph : Graph} {walked : SymbolId → Prop} {left right after after' : Pass} {id : SymbolId}
  {events events' : List Event} {result result' : Except Halt Ty}

theorem opened (hfollows : Follows graph walked left right) (hid : graph.Tangles id) :
    Follows graph walked (left.opened id) (right.opened id) where
  stack := congrArg (· ++ [id]) hfollows.stack
  tangles other hother := by
    rcases List.mem_append.mp hother with hother | hother
    · exact hfollows.tangles other hother
    · rw [List.mem_singleton.mp hother]
      exact hid
  tracks := hfollows.tracks

theorem record (hfollows : Follows graph walked left right) (event : Event) :
    Follows graph walked (left.record event) (right.record event) :=
  ⟨hfollows.stack, hfollows.tangles, hfollows.tracks⟩

/-- A symbol with a type by the graph alone gets this type on both sides. -/
theorem of_yields (hfollows : Follows graph walked left right) {type : Ty}
    (hyields : graph.Yields id type)
    (run : (Task.symbol id).Runs left result events after) (hresult : ¬Aborted result)
    (run' : (Task.symbol id).Runs right result' events' after') (hresult' : ¬Aborted result') :
    result' = result ∧ ∀ found, result = .ok found → Follows graph walked after after' ∧
      ∀ ids, (∀ other ∈ ids, graph.Tangles other) →
        events'.any (Event.cutsOnto ids) = events.any (Event.cutsOnto ids) := by
  have htangles : ∀ other ∈ right.guard.stack, graph.Tangles other := by
    rw [hfollows.stack]
    exact hfollows.tangles
  obtain ⟨rfl, hfills, hcuts⟩ :=
    run.of_symbol_yields hresult hfollows.tracks.keeps hyields hfollows.tangles
  obtain ⟨rfl, hfills', hcuts'⟩ :=
    run'.of_symbol_yields hresult' hfollows.tracks.keeps' hyields htangles
  have hstack := run.stack_eq (not_faulty_ok _)
  have hstack' := run'.stack_eq (not_faulty_ok _)
  refine ⟨rfl, fun _ _ => ⟨⟨?_, ?_, hfollows.tracks.fills hfills hfills'⟩, fun ids hids => ?_⟩⟩
  · rw [hstack, hstack', hfollows.stack]
  · rw [hstack]
    exact hfollows.tangles
  · rw [hcuts ids hids, hcuts' ids hids]

/-- At the end of the walk of a tangled symbol its type is kept on both sides or on neither. -/
theorem settled {inside inside' : Pass} {stored stored' found : Ty}
    (hfollows : Follows graph walked left right) (hid : graph.Tangles id)
    (hwaits : left.Waits id stored) (hwaits' : right.Waits id stored')
    (hwalk : (Task.inquiry (.ofTy stored)).Runs (left.opened id) (.ok found) events inside)
    (hwalk' : (Task.inquiry (.ofTy stored')).Runs (right.opened id) (.ok found) events' inside')
    (hinside : Follows graph walked inside inside')
    (hlink : inside'.ClosesBelow right.guard.depth ↔ inside.ClosesBelow left.guard.depth) :
    Follows graph walked (left.settled id (.ok found) inside) (right.settled id (.ok found) inside') := by
  have hstack := Pass.stack_settled hwaits.closed (not_faulty_ok found)
    (hwalk.stack_eq (not_faulty_ok found))
  have hstack' := Pass.stack_settled hwaits'.closed (not_faulty_ok found)
    (hwalk'.stack_eq (not_faulty_ok found))
  refine ⟨by rw [hstack, hstack', hfollows.stack], by rw [hstack]; exact hfollows.tangles, ?_⟩
  by_cases hbelow : inside.ClosesBelow left.guard.depth
  · rw [Pass.settled, Pass.settled, if_pos hbelow, if_pos (hlink.mpr hbelow)]
    exact hinside.tracks
  · rw [Pass.settled, Pass.settled, if_neg hbelow, if_neg (mt hlink.mp hbelow)]
    exact hinside.tracks.set hid (Task.Runs.get?_of_walk hwaits hwalk)
      (Task.Runs.get?_of_walk hwaits' hwalk') found

end Pass.Follows

/-- A task has one run from a state. -/
theorem Task.Runs.unique {task : Task} {pass after after' : Pass} {result result' : Except Halt Ty}
    {events events' : List Event} (run : task.Runs pass result events after)
    (run' : task.Runs pass result' events' after') :
    result' = result ∧ events' = events ∧ after' = after := by
  obtain ⟨rfl, rfl⟩ := Prod.mk.inj (run'.outcome_walk.symm.trans run.outcome_walk)
  exact ⟨rfl, List.append_cancel_right (run'.journal_eq.symm.trans run.journal_eq), rfl⟩

/-- A run and its replay, neither of them aborted, have the same result; if they end well, they leave states
that agree as before, and they have made the same cuts onto tangled symbols. -/
theorem Task.Runs.replay {graph : Graph} {walked : SymbolId → Prop} {task : Task} {left after : Pass}
    {result : Except Halt Ty} {events : List Event} (run : task.Runs left result events after)
    (hresult : ¬Aborted result) (hwalked : ∀ id position, .walked id position ∈ events → walked id)
    {right after' : Pass} {result' : Except Halt Ty} {events' : List Event}
    (hfollows : left.Follows graph walked right) (run' : task.Runs right result' events' after')
    (hresult' : ¬Aborted result') :
    result' = result ∧ ∀ found, result = .ok found → after.Follows graph walked after' ∧
      ∀ ids, (∀ other ∈ ids, graph.Tangles other) →
        events'.any (Event.cutsOnto ids) = events.any (Event.cutsOnto ids) := by
  induction run generalizing right result' events' after' with
  | @cut pass id position hposition =>
      have hopen : id ∈ right.guard.stack := by
        rw [hfollows.stack]
        exact Guard.mem_of_position? hposition
      obtain ⟨position', hposition'⟩ := Guard.exists_position hopen
      obtain ⟨rfl, rfl, rfl⟩ := (Runs.cut hposition').unique run'
      refine ⟨rfl, fun _ _ => ⟨⟨hfollows.stack, hfollows.tangles, hfollows.tracks⟩, fun ids _ => ?_⟩⟩
      simp [Event.cutsOnto]
  | @unallocated pass id hclosed hget =>
      rw [← hfollows.stack] at hclosed
      obtain ⟨rfl, -, -⟩ := (Runs.unallocated hclosed (hfollows.tracks.get?_of_none hget)).unique run'
      refine ⟨rfl, ?_⟩
      rintro _ ⟨⟩
  | @recalled pass id type hclosed hget hfinal =>
      by_cases hyields : ∃ type, graph.Yields id type
      · obtain ⟨_, hyields⟩ := hyields
        exact hfollows.of_yields hyields (.recalled hclosed hget hfinal) hresult run' hresult'
      · have hget' := hfollows.tracks.get?_of_final (fun type h => hyields ⟨type, h⟩) hget hfinal
        rw [← hfollows.stack] at hclosed
        obtain ⟨rfl, rfl, rfl⟩ := (Runs.recalled hclosed hget' hfinal).unique run'
        exact ⟨rfl, fun _ _ => ⟨hfollows.record _, fun _ _ => rfl⟩⟩
  | exhausted => exact absurd trivial hresult
  | @walked pass id stored result events inside hwaits hadmits hwalk ih =>
      by_cases hyields : ∃ type, graph.Yields id type
      · obtain ⟨_, hyields⟩ := hyields
        exact hfollows.of_yields hyields (.walked hwaits hadmits hwalk) hresult run' hresult'
      · have hid : graph.Tangles id := fun type h => hyields ⟨type, h⟩
        have hget' : right.graph.get? id = some stored := by
          rw [hfollows.tracks.get?_of_walked hid (hwalked id _ (List.mem_append_right _ List.mem_cons_self))]
          exact hwaits.get
        have hclosed' : id ∉ right.guard.stack := by
          rw [hfollows.stack]
          exact hwaits.closed
        cases run' with
        | cut hposition => exact absurd (Guard.mem_of_position? hposition) hclosed'
        | unallocated _ hget'' => cases hget'.symm.trans hget''
        | recalled _ hget'' hfinal =>
            obtain rfl := Option.some.inj (hget'.symm.trans hget'')
            exact absurd hwaits.pending (Bool.eq_false_iff.mp hfinal)
        | exhausted => exact absurd trivial hresult'
        | @walked _ _ _ _ events' inside' hwaits' _ hwalk' =>
            obtain rfl := Option.some.inj (hget'.symm.trans hwaits'.get)
            obtain ⟨rfl, hinner⟩ := ih hresult (fun other position hother => hwalked other position
              (List.mem_append_left _ (List.mem_append_right _ hother))) (hfollows.opened hid) hwalk' hresult'
            refine ⟨rfl, ?_⟩
            rintro found rfl
            obtain ⟨hinside, hcuts⟩ := hinner found rfl
            have hlink : inside'.ClosesBelow right.guard.depth ↔ inside.ClosesBelow pass.guard.depth := by
              rw [hwalk.closesBelow_iff, hwalk'.closesBelow_iff, hfollows.stack,
                hcuts _ hfollows.tangles]
            refine ⟨hfollows.settled hid hwaits hwaits' hwalk hwalk' hinside hlink, fun ids hids => ?_⟩
            rw [Pass.any_cutsOnto_closing, Pass.any_cutsOnto_closing, hcuts ids hids]
  | answer =>
      cases run'
      exact ⟨rfl, fun _ _ => ⟨hfollows, fun _ _ => rfl⟩⟩
  | refuse =>
      cases run'
      refine ⟨rfl, ?_⟩
      rintro _ ⟨⟩
  | missing hlookup _ ih =>
      rw [← hfollows.tracks.lookup_eq] at hlookup
      cases run' with
      | missing _ hrest' =>
          obtain ⟨hsame, hafter⟩ := ih hresult
            (fun id position hid => hwalked id position (List.mem_append_left _ hid))
            (hfollows.record _) hrest' hresult'
          refine ⟨hsame, fun found hfound => ⟨(hafter found hfound).1, fun ids hids => ?_⟩⟩
          rw [List.any_append, List.any_append, (hafter found hfound).2 ids hids]
      | halted hlookup' | found hlookup' => cases hlookup.symm.trans hlookup'
  | halted hlookup _ ih =>
      rw [← hfollows.tracks.lookup_eq] at hlookup
      cases run' with
      | missing hlookup' => cases hlookup.symm.trans hlookup'
      | halted hlookup' hsymbol' =>
          obtain rfl := Option.some.inj (hlookup.symm.trans hlookup')
          refine ⟨(ih hresult hwalked hfollows hsymbol' hresult').1, ?_⟩
          rintro _ ⟨⟩
      | found hlookup' hsymbol' =>
          obtain rfl := Option.some.inj (hlookup.symm.trans hlookup')
          cases (ih hresult hwalked hfollows hsymbol' fun h => h).1
  | found hlookup hsymbol _ ihsymbol ihrest =>
      rw [← hfollows.tracks.lookup_eq] at hlookup
      have hfirst := fun id position hid => hwalked id position (List.mem_append_right _ hid)
      cases run' with
      | missing hlookup' => cases hlookup.symm.trans hlookup'
      | halted hlookup' hsymbol' =>
          obtain rfl := Option.some.inj (hlookup.symm.trans hlookup')
          cases (ihsymbol (fun h => h) hfirst hfollows hsymbol' hresult').1
      | found hlookup' hsymbol' hrest' =>
          obtain rfl := Option.some.inj (hlookup.symm.trans hlookup')
          obtain ⟨hsame, hmiddle⟩ := ihsymbol (fun h => h) hfirst hfollows hsymbol' fun h => h
          obtain rfl := Except.ok.inj hsame
          obtain ⟨hmiddle, hcuts⟩ := hmiddle _ rfl
          obtain ⟨hsame, hafter⟩ := ihrest hresult
            (fun id position hid => hwalked id position (List.mem_append_left _ hid)) hmiddle hrest' hresult'
          refine ⟨hsame, fun found hfound => ⟨(hafter found hfound).1, fun ids hids => ?_⟩⟩
          rw [List.any_append, List.any_append, (hafter found hfound).2 ids hids, hcuts ids hids]

namespace Graph

variable {graph later : Graph} {id : SymbolId} {type : Ty} {events : List Event} {after : Pass}

/-- The symbols that the resolution of a symbol by itself walks have their first types in the later graph
still, untangled ones apart. -/
def Spares (graph later : Graph) (id : SymbolId) : Prop :=
  ∀ other position, .walked other position ∈ (graph.alone id).2.journal →
    graph.Untangled other ∨ later.get? other = graph.get? other

/-- From the later graph an untangled symbol, and any other one that is spared, is resolved as by itself. -/
theorem alone_of_run (hkeeps : graph.Keeps later) (hfree : graph.Untangled id ∨ graph.Spares later id)
    (halone : ¬Aborted (graph.alone id).1)
    (run : (Task.symbol id).Runs (.start later Profile.unbounded.limits) (.ok type) events after) :
    (graph.alone id).1 = .ok type := by
  rcases hfree with huntangled | hspares
  · obtain ⟨found, hfound, hyields⟩ := huntangled.exists_yields
    rw [hfound]
    exact (run.of_symbol_yields (fun h => h) hkeeps hyields fun _ hopen => by cases hopen).1.symm
  · obtain ⟨result, walks, last, first⟩ :=
      (Task.symbol id).exists_run (.start graph Profile.unbounded.limits)
    obtain ⟨hresult, hjournal⟩ := alone_eq first
    rw [Spares, hjournal] at hspares
    rw [hresult] at halone ⊢
    have hfollows : (Pass.start graph Profile.unbounded.limits).Follows graph
        (fun other => ∃ position, .walked other position ∈ walks)
        (.start later Profile.unbounded.limits) := by
      refine ⟨rfl, fun _ hopen => absurd hopen List.not_mem_nil, .refl graph, hkeeps, fun other hother => ?_⟩
      by_cases hwalked : ∃ position, .walked other position ∈ walks
      · obtain ⟨position, hposition⟩ := hwalked
        rcases hspares other position hposition with huntangled | hsame
        · obtain ⟨found, -, hyields⟩ := huntangled.exists_yields
          exact absurd hyields (hother found)
        · exact Or.inl hsame
      · exact Or.inr ⟨rfl, hwalked⟩
    exact (first.replay halone (fun other position hmem => ⟨position, hmem⟩) hfollows run fun h => h).1.symm

end Graph

end DeferredTypes
