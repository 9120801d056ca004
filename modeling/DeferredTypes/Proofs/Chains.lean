import DeferredTypes.Proofs.Termination

/-! Chains of calls. A chain is applied from its first step to its last, and where it collapses the steps
that are left are not looked at. The same comes of going on with them: on a type that is not known they
do nothing. So a chain may be cut anywhere and its second part be applied to what the first one gave. -/

namespace DeferredTypes

namespace Walk

variable (symbol : SymbolId → Walk Ty)

/-- On a type that is not known a chain has no effect. -/
theorem applyChain_unknown (chain : List ChainOp) : applyChain symbol chain .unknown = pure .unknown := by
  induction chain with
  | nil => rfl
  | cons op rest ih =>
      cases op with
      | callResult => exact ih
      | memberCall method => rfl

/-- A chain can be applied in two parts. -/
theorem applyChain_append (first second : List ChainOp) (ty : Ty) :
    applyChain symbol (first ++ second) ty = applyChain symbol first ty >>= applyChain symbol second := by
  induction first generalizing ty with
  | nil => exact (pure_bind ty (applyChain symbol second)).symm
  | cons op rest ih =>
      cases op with
      | callResult => exact ih ty.callResult
      | memberCall method =>
          cases ty with
          | object owner =>
              simp only [List.cons_append, applyChain, bind_assoc]
              congr 1
              funext pass
              cases pass.graph.lookupMethod owner method with
              | some id => simp only [ih, bind_assoc]
              | none => simp only [bind_assoc, pure_bind, applyChain_unknown]
          | unknown | literal _ | array _ | function _ _ | union _ | reference _ _ =>
              simp only [List.cons_append, applyChain, pure_bind, applyChain_unknown]

theorem resolveReference_append (target : Path) (first second : List ChainOp) :
    resolveReference symbol target (first ++ second) =
      resolveReference symbol target first >>= applyChain symbol second := by
  simp only [resolveReference, bind_assoc]
  congr 1
  funext pass
  cases pass.graph.lookup target with
  | some id => simp only [applyChain_append, bind_assoc]
  | none => simp only [bind_assoc, pure_bind, applyChain_unknown]

theorem type_reference (target : Path) (chain : List ChainOp) :
    type (.reference target chain) = resolveReference Walk.symbol target chain := by
  rw [← resolve_symbol, resolve]

theorem type_reference_append (target : Path) (first second : List ChainOp) :
    type (.reference target (first ++ second)) =
      type (.reference target first) >>= applyChain Walk.symbol second := by
  rw [type_reference, resolveReference_append, ← type_reference]

variable {pass after : Pass} {target : Path} {chain : List ChainOp}

theorem outcome_reference_append_of_ok {ty : Ty}
    (hchain : outcome (type (.reference target chain)) pass = (.ok ty, after)) (rest : List ChainOp) :
    outcome (type (.reference target (chain ++ rest))) pass =
      outcome (applyChain Walk.symbol rest ty) after := by
  rw [type_reference_append, outcome_bind, hchain]

/-- What has become unknown stays unknown, and nothing more is asked for. -/
theorem outcome_reference_of_unknown
    (hchain : outcome (type (.reference target chain)) pass = (.ok .unknown, after))
    (rest : List ChainOp) :
    outcome (type (.reference target (chain ++ rest))) pass = (.ok .unknown, after) := by
  rw [outcome_reference_append_of_ok hchain, applyChain_unknown]
  rfl

end Walk

/-! ### Collapse -/

/-- The ways in which a reference loses its type, with the part of its chain that led there and the state
after it. -/
inductive Pass.Collapses (pass : Pass) (target : Path) : List ChainOp → Pass → Prop
  /-- Nobody declared the target. -/
  | missingTarget (hlookup : pass.graph.lookup target = none) :
      Collapses pass target [] (pass.record (.missing target))
  /-- The target is open. -/
  | openTarget {id position} (hlookup : pass.graph.lookup target = some id)
      (hposition : pass.guard.position? id = some position) :
      Collapses pass target [] (pass.cutAt id position)
  /-- A method is called on something that is not an object. -/
  | notAnObject {chain type after} (method : String)
      (hchain : outcome (Walk.type (.reference target chain)) pass = (.ok type, after))
      (htype : ∀ owner, type ≠ .object owner) :
      Collapses pass target (chain ++ [.memberCall method]) after
  /-- A method is called that the class of the object has not. -/
  | missingMethod {chain owner method after}
      (hchain : outcome (Walk.type (.reference target chain)) pass = (.ok (.object owner), after))
      (hlookup : after.graph.lookupMethod owner method = none) :
      Collapses pass target (chain ++ [.memberCall method]) (after.record (.missing (.method owner method)))
  /-- A method is called that is open. -/
  | openMethod {chain owner method after id position}
      (hchain : outcome (Walk.type (.reference target chain)) pass = (.ok (.object owner), after))
      (hlookup : after.graph.lookupMethod owner method = some id)
      (hposition : after.guard.position? id = some position) :
      Collapses pass target (chain ++ [.memberCall method]) (after.cutAt id position)

namespace Walk

theorem outcome_symbol_of_open {pass : Pass} {id : SymbolId} {position : Nat}
    (hposition : pass.guard.position? id = some position) :
    outcome (symbol id) pass = (.ok .unknown, pass.cutAt id position) :=
  (Task.Runs.cut hposition).outcome_symbol

theorem outcome_of_collapses {pass after : Pass} {target : Path} {chain : List ChainOp}
    (hcollapses : pass.Collapses target chain after) :
    outcome (type (.reference target chain)) pass = (.ok .unknown, after) := by
  cases hcollapses with
  | missingTarget hlookup =>
      rw [type_reference, resolveReference, outcome_get_bind, hlookup]
      rfl
  | openTarget hlookup hposition =>
      rw [type_reference, resolveReference, outcome_get_bind, hlookup]
      dsimp only
      rw [outcome_bind, outcome_symbol_of_open hposition]
      rfl
  | @notAnObject _ ty _ method hchain htype =>
      rw [outcome_reference_append_of_ok hchain]
      cases ty with
      | object owner => exact absurd rfl (htype owner)
      | unknown | literal _ | array _ | function _ _ | union _ | reference _ _ => rfl
  | missingMethod hchain hlookup =>
      rw [outcome_reference_append_of_ok hchain, applyChain, outcome_get_bind, hlookup]
      rfl
  | openMethod hchain hlookup hposition =>
      rw [outcome_reference_append_of_ok hchain, applyChain, outcome_get_bind, hlookup]
      dsimp only
      rw [outcome_bind, outcome_symbol_of_open hposition]
      rfl

end Walk

/-- **Chains compose.** From any state, a reference with a chain in two parts gives the same type or error
and leaves the same state, its graph, its stack, its link and its journal of all that is counted, as the
reference with the first part alone and, if this gives a type, the second part applied to it in the state
reached. So once a chain has come to a type that is not known, nothing that follows changes anything; in
particular where it collapses, for want of a target, of an object or of a method, or at an open symbol. -/
theorem reference_chains_compose (pass : Pass) (target : Path) :
    (∀ first second,
      outcome (Walk.type (.reference target (first ++ second))) pass =
        outcome (do
          let type ← Walk.type (.reference target first)
          Walk.applyChain Walk.symbol second type) pass) ∧
    (∀ chain after, outcome (Walk.type (.reference target chain)) pass = (.ok .unknown, after) →
      ∀ rest, outcome (Walk.type (.reference target (chain ++ rest))) pass = (.ok .unknown, after)) ∧
    ∀ chain after, pass.Collapses target chain after →
      ∀ rest, outcome (Walk.type (.reference target (chain ++ rest))) pass = (.ok .unknown, after) := by
  refine ⟨?_, ?_, ?_⟩
  · intro first second
    rw [Walk.type_reference_append]
  · intro chain after hchain rest
    exact Walk.outcome_reference_of_unknown hchain rest
  · intro chain after hcollapses rest
    exact Walk.outcome_reference_of_unknown (Walk.outcome_of_collapses hcollapses) rest

/-- A method that is walked and stored on the way to one that its class has not; and the same method called
once more from within its own walk. -/
theorem reference_chains_compose_collapsed :
    let make := Path.function "make"
    let next := Path.method "Store" "next"
    let graph := (Graph.empty.append make (.returning (.object "Store"))).append next (.call make)
    let pass := Pass.start graph ⟨9, 9⟩
    let walked := (outcome (Walk.type (.reference make [.callResult, .memberCall "next"])) pass).2
    let inside := (outcome (Walk.type (.reference make [.callResult])) (pass.opened 1)).2
    walked.graph.get? 1 = some (.object "Store") ∧
    outcome (Walk.type (.reference make
        [.callResult, .memberCall "next", .memberCall "gone", .callResult, .memberCall "next"])) pass =
      (.ok .unknown, walked.record (.missing (.method "Store" "gone"))) ∧
    outcome (Walk.type (.reference make [.callResult, .memberCall "next", .memberCall "next"]))
        (pass.opened 1) = (.ok .unknown, inside.cutAt 1 0) := by
  intro make next graph pass walked inside
  have hwalked : (outcome (Walk.type (.reference make [.callResult, .memberCall "next"])) pass).1 =
      .ok (.object "Store") := by decide +kernel
  have hinside : (outcome (Walk.type (.reference make [.callResult])) (pass.opened 1)).1 =
      .ok (.object "Store") := by decide +kernel
  obtain ⟨-, -, hcollapses⟩ := reference_chains_compose pass make
  obtain ⟨-, -, hcollapses'⟩ := reference_chains_compose (pass.opened 1) make
  refine ⟨by decide +kernel, ?_, ?_⟩
  · exact hcollapses _ _ (.missingMethod (Prod.ext hwalked rfl) (by decide +kernel))
      [.callResult, .memberCall "next"]
  · exact hcollapses' _ _ (.openMethod (Prod.ext hinside rfl) (by decide +kernel) (by decide +kernel))
      [.memberCall "next"]

end DeferredTypes
