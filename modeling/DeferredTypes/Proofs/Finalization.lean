import DeferredTypes.Proofs.Answers
import DeferredTypes.Proofs.Journal

/-! Every write of a resolution replaces a type with references by one without. A final type therefore
stays as it is, each symbol is written at most once, and the writes are counted by the symbols that
wait no more. -/

namespace DeferredTypes

namespace Graph

/-- A write changes the type of its symbol only, and adds no symbol. -/
theorem get?_set (graph : Graph) (id other : SymbolId) (type : Ty) :
    (graph.set id type).get? other =
      if other = id then (graph.get? id).map fun _ => type else graph.get? other := by
  simp only [get?, set, Array.getElem?_modify, eq_comm]
  split
  · simp_all
    rfl
  · rfl

theorem get?_set_self {graph : Graph} {id : SymbolId} {before : Ty} (hget : graph.get? id = some before)
    (type : Ty) : (graph.set id type).get? id = some type := by
  rw [get?_set, if_pos rfl, hget]
  rfl

theorem get?_set_of_ne {id other : SymbolId} (hne : other ≠ id) (graph : Graph) (type : Ty) :
    (graph.set id type).get? other = graph.get? other := by
  rw [get?_set, if_neg hne]

theorem mem_pending {graph : Graph} {id : SymbolId} :
    id ∈ graph.pending ↔ ∃ type, graph.get? id = some type ∧ type.containsReference = true := by
  simp only [pending, isResolved?, ids, List.mem_filter, List.mem_range, decide_eq_true_eq,
    Option.map_eq_some_iff, Bool.not_eq_false']
  constructor
  · exact fun h => h.2
  · rintro ⟨type, hget, hpending⟩
    exact ⟨lt_size_of_get? hget, type, hget, hpending⟩

theorem nodup_pending (graph : Graph) : graph.pending.Nodup := List.nodup_range.filter _

/-- A series of writes, each of which gives a final type to a symbol that had none. -/
inductive Finalization : Graph → List (SymbolId × Ty) → Graph → Prop
  | none {graph} : Finalization graph [] graph
  | write {graph id before type writes after} (hget : graph.get? id = some before)
      (hpending : before.containsReference = true) (hfinal : type.Final)
      (hrest : Finalization (graph.set id type) writes after) :
      Finalization graph ((id, type) :: writes) after

namespace Finalization

variable {first second third : Graph} {writes more : List (SymbolId × Ty)} {id : SymbolId} {type : Ty}

theorem append (left : Finalization first writes second) (right : Finalization second more third) :
    Finalization first (writes ++ more) third := by
  induction left with
  | none => exact right
  | write hget hpending hfinal _ ih => exact .write hget hpending hfinal (ih right)

theorem get?_of_not_written (h : Finalization first writes second) (hid : id ∉ writes.map Prod.fst) :
    second.get? id = first.get? id := by
  induction h with
  | none => rfl
  | write _ _ _ _ ih =>
      rw [List.map_cons, List.mem_cons, not_or] at hid
      rw [ih hid.2, get?_set_of_ne hid.1]

theorem not_written_of_final (h : Finalization first writes second) (hget : first.get? id = some type)
    (hfinal : type.Final) : id ∉ writes.map Prod.fst := by
  induction h with
  | none => exact List.not_mem_nil
  | @write graph other before _ _ _ hother hpending _ _ ih =>
      have hne : id ≠ other := by
        rintro rfl
        obtain rfl := Option.some.inj (hget.symm.trans hother)
        exact Bool.false_ne_true (hfinal.symm.trans hpending)
      rw [List.map_cons, List.mem_cons, not_or]
      exact ⟨hne, ih (by rw [get?_set_of_ne hne, hget])⟩

/-- A final type is never replaced. -/
theorem get?_of_final (h : Finalization first writes second) (hget : first.get? id = some type)
    (hfinal : type.Final) : second.get? id = some type := by
  rw [h.get?_of_not_written (h.not_written_of_final hget hfinal), hget]

/-- No symbol is written twice. -/
theorem nodup (h : Finalization first writes second) : (writes.map Prod.fst).Nodup := by
  induction h with
  | none => exact List.nodup_nil
  | @write _ _ _ type _ _ hget _ hfinal hrest ih =>
      exact List.nodup_cons.mpr ⟨hrest.not_written_of_final (get?_set_self hget type) hfinal, ih⟩

/-- A symbol keeps its type, or it waited before and has a final type now. -/
theorem get?_cases (h : Finalization first writes second) (id : SymbolId) :
    second.get? id = first.get? id ∨ ∃ type, second.get? id = some type ∧ type.Final := by
  induction h with
  | none => exact Or.inl rfl
  | @write graph other before type _ after hget _ hfinal hrest ih =>
      by_cases hid : id = other
      · subst hid
        exact Or.inr ⟨type, hrest.get?_of_final (get?_set_self hget type) hfinal, hfinal⟩
      · rwa [get?_set_of_ne hid] at ih

/-- A symbol has the type that was written, which is final. -/
theorem get?_of_written (h : Finalization first writes second) (hwrite : (id, type) ∈ writes) :
    second.get? id = some type ∧ type.Final := by
  induction h with
  | none => cases hwrite
  | write hget _ hfinal hrest ih =>
      rcases List.mem_cons.mp hwrite with heq | hwrite
      · obtain ⟨rfl, rfl⟩ := Prod.mk.inj heq
        exact ⟨hrest.get?_of_final (get?_set_self hget _) hfinal, hfinal⟩
      · exact ih hwrite

/-- The symbols that were written are those with another type than before. -/
theorem written_iff (h : Finalization first writes second) :
    id ∈ writes.map Prod.fst ↔ second.get? id ≠ first.get? id := by
  constructor
  · intro hid hsame
    obtain ⟨⟨_, type⟩, hwrite, rfl⟩ := List.mem_map.mp hid
    obtain ⟨hget, hfinal⟩ := h.get?_of_written hwrite
    exact h.not_written_of_final (hsame.symm.trans hget) hfinal hid
  · intro hchanged
    by_contra hid
    exact hchanged (h.get?_of_not_written hid)

/-- Each write leaves one symbol less that waits. -/
theorem length_pending (h : Finalization first writes second) :
    second.pending.length + writes.length = first.pending.length := by
  induction h with
  | none => rfl
  | @write graph id before type writes after hget hpending hfinal _ ih =>
      have hmem : id ∈ graph.pending := mem_pending.mpr ⟨before, hget, hpending⟩
      have herase : (graph.set id type).pending.Perm (graph.pending.erase id) := by
        refine (List.perm_ext_iff_of_nodup (nodup_pending _) ((nodup_pending _).erase id)).mpr
          fun other => ?_
        rw [(nodup_pending graph).mem_erase_iff, mem_pending, mem_pending]
        by_cases hother : other = id
        · subst hother
          simp [get?_set_self hget, hfinal]
        · simp [get?_set_of_ne hother, hother]
      have hlength := herase.length_eq
      rw [List.length_erase_of_mem hmem] at hlength
      have := List.length_pos_of_mem hmem
      rw [List.length_cons]
      omega

end Finalization

end Graph

/-- At the end of the walk of a symbol nothing is written, or the type found for it is; then no cut
closed onto a symbol that is open still. -/
theorem Pass.write_settled (before inside : Pass) (id : SymbolId) (result : Except Halt Ty) :
    ((before.settled id result inside).graph = inside.graph ∧
      (before.closing id result inside).filterMap Event.stored? = []) ∨
    ∃ found, result = .ok found ∧
      (before.settled id result inside).graph = inside.graph.set id found ∧
      (before.closing id result inside).filterMap Event.stored? = [id] ∧
      ¬inside.ClosesBelow before.guard.depth := by
  unfold settled closing
  rcases result with (error | fault) | found
  · exact Or.inl ⟨rfl, rfl⟩
  · exact Or.inl ⟨rfl, rfl⟩
  · by_cases hlink : inside.ClosesBelow before.guard.depth
    · simp only [if_pos hlink]
      exact Or.inl ⟨rfl, rfl⟩
    · simp only [if_neg hlink]
      exact Or.inr ⟨found, rfl, rfl, rfl, hlink⟩

/-- What a run does to the graph is a series of writes. They are the ones in its events, and none of
them is to a symbol that is open. -/
theorem Task.Runs.finalization {task : Task} {pass after : Pass} {result : Except Halt Ty}
    {events : List Event} (run : task.Runs pass result events after) (htask : task.HandsOutFinal) :
    ∃ writes, pass.graph.Finalization writes after.graph ∧
      events.filterMap Event.stored? = (writes.map Prod.fst).reverse ∧
      ∀ id ∈ pass.guard.stack, id ∉ writes.map Prod.fst := by
  induction run with
  | cut | unallocated | recalled | exhausted | answer | refuse =>
      exact ⟨[], .none, rfl, fun _ _ h => by cases h⟩
  | @walked pass id type result events inside hwaits _ hwalk ih =>
      obtain ⟨writes, hwrites, hstored, hopen⟩ := ih (.ofTy _)
      have hbelow : ∀ other ∈ pass.guard.stack, other ∉ writes.map Prod.fst := fun other hother =>
        hopen other (List.mem_append_left _ hother)
      have hevents : (events ++ [Event.walked id pass.guard.depth]).filterMap Event.stored? =
          (writes.map Prod.fst).reverse := by
        rw [List.filterMap_append, hstored]
        exact List.append_nil _
      rw [List.append_assoc, List.filterMap_append, hevents]
      rcases pass.write_settled inside id result with
        ⟨hgraph, hclosing⟩ | ⟨found, rfl, hgraph, hclosing, -⟩
      · rw [hgraph, hclosing]
        exact ⟨writes, hwrites, rfl, hbelow⟩
      · -- The symbol is open during its walk, so it waits still when its own type is written.
        have hget : inside.graph.get? id = some type := by
          rw [hwrites.get?_of_not_written (hopen id (List.mem_append_right _ List.mem_cons_self))]
          exact hwaits.get
        have hfinal : found.Final := hwalk.final (.ofTy _) rfl
        rw [hgraph, hclosing]
        refine ⟨writes ++ [(id, found)], hwrites.append (.write hget hwaits.pending hfinal .none), ?_, ?_⟩
        · simp only [List.map_append, List.map_cons, List.map_nil, List.reverse_append,
            List.reverse_singleton]
        · intro other hother hmem
          rw [List.map_append, List.mem_append] at hmem
          rcases hmem with hmem | hmem
          · exact hbelow other hother hmem
          · rw [List.mem_singleton.mp hmem] at hother
            exact hwaits.closed hother
  | missing _ _ ih =>
      obtain ⟨writes, hwrites, hstored, hopen⟩ := ih htask.of_missing
      refine ⟨writes, hwrites, ?_, hopen⟩
      rw [List.filterMap_append, hstored]
      exact List.append_nil _
  | halted _ _ ih => exact ih trivial
  | found _ hsymbol _ ihsymbol ihrest =>
      obtain ⟨writes, hwrites, hstored, hopen⟩ := ihsymbol trivial
      obtain ⟨more, hmore, hstored', hopen'⟩ := ihrest (htask.of_found hsymbol)
      refine ⟨writes ++ more, hwrites.append hmore, ?_, fun id hid hmem => ?_⟩
      · rw [List.filterMap_append, hstored, hstored', List.map_append, List.reverse_append]
      · rw [List.map_append, List.mem_append] at hmem
        rw [hsymbol.stack_eq (not_faulty_ok _)] at hopen'
        exact hmem.elim (hopen id hid) (hopen' id hid)

namespace Task.Runs

variable {task : Task} {pass after : Pass} {result : Except Halt Ty} {events : List Event}
  {id : SymbolId}

/-- The events of a run tell which symbols have another type in the graph that it leaves. -/
theorem stored_mem_iff_get?_ne (run : task.Runs pass result events after) (htask : task.HandsOutFinal) :
    .stored id ∈ events ↔ after.graph.get? id ≠ pass.graph.get? id := by
  obtain ⟨writes, hwrites, hstored, -⟩ := run.finalization htask
  rw [← Event.mem_filterMap_stored?, hstored, List.mem_reverse]
  exact hwrites.written_iff

/-- A symbol that is open before a run has the same type after it. -/
theorem get?_of_open (run : task.Runs pass result events after) (htask : task.HandsOutFinal)
    (hopen : id ∈ pass.guard.stack) : after.graph.get? id = pass.graph.get? id := by
  obtain ⟨writes, hwrites, -, hclosed⟩ := run.finalization htask
  exact hwrites.get?_of_not_written (hclosed id hopen)

/-- A symbol is not written while it is open. -/
theorem not_stored_of_open (run : task.Runs pass result events after) (htask : task.HandsOutFinal)
    (hopen : id ∈ pass.guard.stack) : .stored id ∉ events := by
  rw [run.stored_mem_iff_get?_ne htask]
  exact not_not_intro (run.get?_of_open htask hopen)

/-- A symbol has its type still at the end of its walk. -/
theorem get?_of_walk {type : Ty} (hwaits : pass.Waits id type)
    (hwalk : (Task.inquiry (.ofTy type)).Runs (pass.opened id) result events after) :
    after.graph.get? id = some type := by
  rw [hwalk.get?_of_open (.ofTy _) (List.mem_append_right _ List.mem_cons_self)]
  exact hwaits.get

/-- At the end of its walk a symbol is written or not. -/
theorem finalization_settled {type : Ty} (hwaits : pass.Waits id type)
    (hwalk : (Task.inquiry (.ofTy type)).Runs (pass.opened id) result events after) :
    ∃ writes, after.graph.Finalization writes (pass.settled id result after).graph := by
  rcases pass.write_settled after id result with ⟨hgraph, -⟩ | ⟨found, rfl, hgraph, -⟩
  · exact ⟨[], hgraph ▸ .none⟩
  · rw [hgraph]
    exact ⟨_, .write (get?_of_walk hwaits hwalk) hwaits.pending
      (hwalk.final (.ofTy _) rfl) .none⟩

end Task.Runs

end DeferredTypes
