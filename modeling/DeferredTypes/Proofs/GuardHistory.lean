import DeferredTypes.Proofs.Run

/-! Guards under any series of calls. Keys need not be left in the reverse order of entering them, and
a leave of a key that nobody works on is refused. What a guard holds can be read off the answers it gave:
its stack holds the keys whose last entry has not been followed by a leave, in the order of these entries.
So every later answer is determined by the calls and the answers before it. -/

namespace DeferredTypes.Guard

/-! ### Calls and answers -/

inductive Call (κ : Type)
  | enter (key : κ)
  | leave (key : κ)
  deriving DecidableEq

/-- A call with its answer. -/
inductive Exchange (κ : Type)
  | enter (key : κ) (answer : Entry)
  | leave (key : κ) (refusal : Option Misuse)
  deriving DecidableEq

variable {κ : Type}

def Call.isEnter : Call κ → Bool
  | .enter _ => true
  | .leave _ => false

namespace Exchange

/-- The key that was put on the stack, if one was. -/
def entered? : Exchange κ → Option κ
  | .enter key .entered => some key
  | _ => none

def left? : Exchange κ → Option κ
  | .leave key _ => some key
  | _ => none

/-- The exchange supersedes earlier entries of the key: it is entered once more, or left. -/
def Ends (key : κ) (exchange : Exchange κ) : Prop :=
  exchange.entered? = some key ∨ exchange.left? = some key

/-- After an attempt too many, every attempt is one too many. -/
def Exhausts (earlier later : Exchange κ) : Prop :=
  ∀ key next answer, earlier = .enter key .iterationExceeded → later = .enter next answer →
    answer = .iterationExceeded

end Exchange

variable [DecidableEq κ]

instance (key : κ) (exchange : Exchange κ) : Decidable (exchange.Ends key) :=
  inferInstanceAs (Decidable (_ ∨ _))

/-- The keys whose last entry has not been followed by a leave, in the order of these entries. -/
def standing : List (Exchange κ) → List κ
  | [] => []
  | exchange :: later =>
      (exchange.entered?.toList.filter fun key => ∀ next ∈ later, ¬next.Ends key) ++ standing later

/-- The answer to a call, and the guard after it. A refused leave changes nothing. -/
def respond (guard : Guard κ) : Call κ → Exchange κ × Guard κ
  | .enter key => (.enter key (guard.enter key).1, (guard.enter key).2)
  | .leave key =>
      match guard.leave key with
      | .ok after => (.leave key none, after)
      | .error misuse => (.leave key (some misuse), guard)

/-- The answers to calls, and the guard after them. -/
def perform (guard : Guard κ) : List (Call κ) → List (Exchange κ) × Guard κ
  | [] => ([], guard)
  | call :: rest =>
      let (exchange, after) := guard.respond call
      let (history, last) := after.perform rest
      (exchange :: history, last)

/-- When an attempt to enter a key gets an answer: the number of attempts is looked at first, then whether
the key is on the stack, then the depth. -/
def Answers (limits : Limits) (attempts : Nat) (stack : List κ) (key : κ) : Entry → Prop
  | .iterationExceeded => limits.maxIterations < attempts
  | .cycle position => attempts ≤ limits.maxIterations ∧ stack[position]? = some key
  | .depthExceeded => attempts ≤ limits.maxIterations ∧ key ∉ stack ∧ limits.maxDepth ≤ stack.length
  | .entered => attempts ≤ limits.maxIterations ∧ key ∉ stack ∧ stack.length < limits.maxDepth

/-! ### What stands after a history -/

variable {history : List (Exchange κ)} {key : κ}

omit [DecidableEq κ] in
theorem Exchange.eq_of_entered? {exchange : Exchange κ} (h : exchange.entered? = some key) :
    exchange = .enter key .entered := by
  cases exchange with
  | enter key' answer => cases answer <;> cases h; rfl
  | leave key' refusal => cases h

omit [DecidableEq κ] in
theorem Exchange.ends_leave_iff {other : κ} {refusal : Option Misuse} :
    (Exchange.leave key refusal).Ends other ↔ other = key := by
  simp [Ends, entered?, left?, eq_comm]

/-- A key stands by an entry that nothing later ends. -/
theorem mem_standing_cons {exchange : Exchange κ} {later : List (Exchange κ)} :
    key ∈ standing (exchange :: later) ↔
      exchange.entered? = some key ∧ (∀ next ∈ later, ¬next.Ends key) ∨ key ∈ standing later := by
  rw [standing, List.mem_append, List.mem_filter, Option.mem_toList, decide_eq_true_iff]

/-- A key stands if its last entry has not been followed by a leave. -/
theorem mem_standing_iff :
    key ∈ standing history ↔ ∃ earlier later, history = earlier ++ .enter key .entered :: later ∧
      ∀ next ∈ later, ¬next.Ends key := by
  induction history with
  | nil => simp [standing]
  | cons exchange rest ih =>
      rw [mem_standing_cons, ih]
      constructor
      · rintro (⟨hentered, hrest⟩ | ⟨earlier, later, rfl, hlater⟩)
        · exact ⟨[], rest, by rw [Exchange.eq_of_entered? hentered]; rfl, hrest⟩
        · exact ⟨exchange :: earlier, later, rfl, hlater⟩
      · rintro ⟨_ | ⟨first, earlier⟩, later, hsplit, hlater⟩
        · obtain ⟨rfl, rfl⟩ := List.cons.inj hsplit
          exact Or.inl ⟨rfl, hlater⟩
        · exact Or.inr ⟨earlier, later, (List.cons.inj hsplit).2, hlater⟩

theorem nodup_standing (history : List (Exchange κ)) : (standing history).Nodup := by
  induction history with
  | nil => exact List.nodup_nil
  | cons exchange rest ih =>
      have hfirst : exchange.entered?.toList.Nodup := by cases exchange.entered? <;> simp
      refine List.nodup_append.mpr ⟨hfirst.filter _, ih, ?_⟩
      rintro key hkey _ hkey' rfl
      -- The key would stand for a later entry, which supersedes the first one.
      obtain ⟨earlier, later, rfl, -⟩ := mem_standing_iff.mp hkey'
      have hlast := of_decide_eq_true (List.mem_filter.mp hkey).2
      exact hlast (.enter key .entered) (List.mem_append_right _ List.mem_cons_self) (Or.inl rfl)

/-- One more exchange takes off the keys that it supersedes, and puts the key that it enters on top. -/
theorem standing_concat (history : List (Exchange κ)) (last : Exchange κ) :
    standing (history ++ [last]) =
      (standing history).filter (fun key => ¬last.Ends key) ++ last.entered?.toList := by
  induction history with
  | nil => simp [standing]
  | cons exchange rest ih =>
      have hends : ∀ key, (∀ next ∈ rest ++ [last], ¬next.Ends key) ↔
          ¬last.Ends key ∧ ∀ next ∈ rest, ¬next.Ends key := by
        intro key
        rw [List.forall_mem_append, List.forall_mem_singleton, and_comm]
      rw [List.cons_append, standing, standing, ih, List.filter_append, List.filter_filter,
        List.append_assoc]
      simp only [hends, Bool.decide_and]

/-! ### Single calls -/

variable {guard : Guard κ}

theorem position?_eq_some_iff (hnodup : guard.stack.Nodup) {position : Nat} :
    guard.position? key = some position ↔ guard.stack[position]? = some key := by
  rw [position?, List.idxOf?_eq_some_iff, List.getElem?_eq_some_iff]
  refine exists_congr fun hposition => and_iff_left_of_imp fun hkey before hbefore hkey' => ?_
  exact Nat.ne_of_lt hbefore (hnodup.getElem_inj_iff.mp (hkey'.trans hkey.symm))

omit [DecidableEq κ] in
/-- An attempt to enter a key gets one answer only. -/
theorem Answers.unique {limits : Limits} {attempts : Nat} {stack : List κ} {answer answer' : Entry}
    (hnodup : stack.Nodup) (h : Answers limits attempts stack key answer)
    (h' : Answers limits attempts stack key answer') : answer = answer' := by
  -- Two answers differ in the number of attempts, in whether the key is on the stack, or in the depth.
  cases answer with
  | iterationExceeded =>
      cases answer' with
      | iterationExceeded => rfl
      | cycle _ | depthExceeded | entered => exact absurd h (Nat.not_lt.mpr h'.1)
  | cycle position =>
      cases answer' with
      | iterationExceeded => exact absurd h' (Nat.not_lt.mpr h.1)
      | cycle position' =>
          obtain ⟨hposition, -⟩ := List.getElem?_eq_some_iff.mp h.2
          rw [(List.getElem?_inj hposition hnodup).mp (h.2.trans h'.2.symm)]
      | depthExceeded | entered => exact absurd (List.mem_of_getElem? h.2) h'.2.1
  | depthExceeded =>
      cases answer' with
      | iterationExceeded => exact absurd h' (Nat.not_lt.mpr h.1)
      | cycle _ => exact absurd (List.mem_of_getElem? h'.2) h.2.1
      | depthExceeded => rfl
      | entered => exact absurd h'.2.2 (Nat.not_lt.mpr h.2.2)
  | entered =>
      cases answer' with
      | iterationExceeded => exact absurd h' (Nat.not_lt.mpr h.1)
      | cycle _ => exact absurd (List.mem_of_getElem? h'.2) h.2.1
      | depthExceeded => exact absurd h.2.2 (Nat.not_lt.mpr h'.2.2)
      | entered => rfl

theorem answers_enter (guard : Guard κ) (hnodup : guard.stack.Nodup) (key : κ) :
    Answers guard.limits guard.attempted.iterations guard.stack key (guard.enter key).1 := by
  cases hposition : guard.position? key with
  | some position =>
      rw [enter_of_position? hposition]
      split
      · assumption
      · exact ⟨by omega, (position?_eq_some_iff hnodup).mp hposition⟩
  | none =>
      have hkey := position?_eq_none_iff.mp hposition
      rw [enter_of_not_mem hkey]
      split
      · assumption
      · split
        · exact ⟨by omega, hkey, by assumption⟩
        · exact ⟨by omega, hkey, by rw [depth] at *; omega⟩

theorem enter_fst_iff (hnodup : guard.stack.Nodup) {answer : Entry} :
    (guard.enter key).1 = answer ↔
      Answers guard.limits guard.attempted.iterations guard.stack key answer := by
  constructor
  · rintro rfl
    exact answers_enter guard hnodup key
  · exact fun h => (answers_enter guard hnodup key).unique hnodup h

/-- An attempt counts, and the stack grows by the key if it was entered. -/
theorem enter_snd (guard : Guard κ) (key : κ) :
    (guard.enter key).2 = { guard.attempted with
      stack := guard.stack ++ (Exchange.enter key (guard.enter key).1).entered?.toList } := by
  rcases hposition : guard.position? key with _ | position
  · rw [enter_of_not_mem (position?_eq_none_iff.mp hposition)]
    split
    · simp [Exchange.entered?, attempted]
    · split <;> simp [Exchange.entered?, attempted]
  · rw [enter_of_position? hposition]
    split <;> simp [Exchange.entered?, attempted]

theorem respond_leave (guard : Guard κ) (key : κ) :
    guard.respond (.leave key) =
      (.leave key (if key ∈ guard.stack then none else some .notEntered),
        { guard with stack := guard.stack.erase key }) := by
  by_cases hkey : key ∈ guard.stack
  · rw [respond, leave_of_mem hkey, if_pos hkey]
  · rw [respond, leave, if_neg hkey, if_neg hkey, List.erase_of_not_mem hkey]

/-! ### Series of calls -/

/-- What is kept by every call: the guard holds what the calls and their answers say. -/
structure Records (limits : Limits) (calls : List (Call κ)) (history : List (Exchange κ))
    (guard : Guard κ) : Prop where
  limits_eq : guard.limits = limits
  stack_eq : guard.stack = standing history
  depth_le : guard.depth ≤ limits.maxDepth
  iterations_eq : guard.iterations = min (calls.countP Call.isEnter) maxCount
  exhausted : ∀ key, .enter key .iterationExceeded ∈ history → limits.maxIterations < guard.iterations
  lasting : history.Pairwise Exchange.Exhausts

namespace Records

variable {limits : Limits} {calls : List (Call κ)}

theorem start (limits : Limits) : Records limits [] [] (Guard.start limits : Guard κ) where
  limits_eq := rfl
  stack_eq := rfl
  depth_le := Nat.zero_le _
  iterations_eq := (Nat.zero_min _).symm
  exhausted _ hmem := absurd hmem List.not_mem_nil
  lasting := List.Pairwise.nil

theorem nodup (h : Records limits calls history guard) : guard.stack.Nodup := by
  rw [h.stack_eq]
  exact nodup_standing history

theorem attempted_eq (h : Records limits calls history guard) :
    guard.attempted.iterations = min (calls.countP Call.isEnter + 1) maxCount := by
  change min (guard.iterations + 1) maxCount = _
  rw [h.iterations_eq]
  omega

theorem iterations_le (h : Records limits calls history guard) :
    guard.iterations ≤ guard.attempted.iterations := by
  rw [h.attempted_eq, h.iterations_eq]
  omega

/-- An attempt changes the stack only if the key was not on it; and once the attempts are used up, the count
does not fall below the limit again. -/
theorem enter (h : Records limits calls history guard) (key : κ) :
    Records limits (calls ++ [.enter key]) (history ++ [.enter key (guard.enter key).1])
      (guard.enter key).2 := by
  have hanswers := answers_enter guard h.nodup key
  have hiterations : (guard.enter key).2.iterations = guard.attempted.iterations := by rw [enter_snd]
  -- A key that was entered was not on the stack, and there was room for it.
  have hentered : ∀ other, (Exchange.enter key (guard.enter key).1).entered? = some other →
      other ∉ guard.stack ∧ guard.depth < limits.maxDepth := by
    intro other hother
    obtain ⟨rfl, hanswer⟩ := Exchange.enter.inj (Exchange.eq_of_entered? hother)
    rw [hanswer, h.limits_eq] at hanswers
    exact hanswers.2
  constructor
  case limits_eq =>
    rw [enter_snd]
    exact h.limits_eq
  case stack_eq =>
    rw [enter_snd, standing_concat, ← h.stack_eq]
    refine congrArg (· ++ _) (List.filter_eq_self.mpr fun other hother => decide_eq_true ?_).symm
    rintro (hother' | hother')
    · exact (hentered other hother').1 hother
    · cases hother'
  case depth_le =>
    rw [enter_snd, depth, List.length_append]
    rcases hnew : (Exchange.enter key (guard.enter key).1).entered? with _ | other
    · exact h.depth_le
    · exact (hentered other hnew).2
  case iterations_eq =>
    rw [hiterations, h.attempted_eq, List.countP_append]
    rfl
  case exhausted =>
    rw [hiterations]
    intro other hother
    rcases List.mem_append.mp hother with hother | hother
    · exact Nat.lt_of_lt_of_le (h.exhausted other hother) h.iterations_le
    · obtain ⟨-, hanswer⟩ := Exchange.enter.inj (List.mem_singleton.mp hother)
      rw [← hanswer, h.limits_eq] at hanswers
      exact hanswers
  case lasting =>
    refine List.pairwise_append.mpr ⟨h.lasting, List.pairwise_singleton _ _, ?_⟩
    rintro _ hearlier _ hlast other next answer rfl rfl
    obtain ⟨-, hanswer⟩ := Exchange.enter.inj (List.mem_singleton.mp hlast)
    rw [hanswer, enter_fst_iff h.nodup, h.limits_eq]
    exact Nat.lt_of_lt_of_le (h.exhausted other hearlier) h.iterations_le

/-- A leave that is refused and one that is not are alike here: a key that is not on the stack does not
stand, and taking it off changes nothing. -/
theorem leave (h : Records limits calls history guard) (key : κ) (refusal : Option Misuse) :
    Records limits (calls ++ [.leave key]) (history ++ [.leave key refusal])
      { guard with stack := guard.stack.erase key } := by
  constructor
  case limits_eq => exact h.limits_eq
  case stack_eq =>
    have hnone : (Exchange.leave key refusal).entered? = none := rfl
    rw [standing_concat, ← h.stack_eq, h.nodup.erase_eq_filter, hnone, Option.toList_none, List.append_nil]
    refine List.filter_congr fun other _ => ?_
    simp only [Exchange.ends_leave_iff, decide_not, bne, beq_eq_decide]
  case depth_le => exact Nat.le_trans List.length_erase_le h.depth_le
  case iterations_eq =>
    rw [List.countP_append]
    exact h.iterations_eq
  case exhausted =>
    intro other hother
    rcases List.mem_append.mp hother with hother | hother
    · exact h.exhausted other hother
    · cases List.mem_singleton.mp hother
  case lasting =>
    refine List.pairwise_append.mpr ⟨h.lasting, List.pairwise_singleton _ _, ?_⟩
    rintro _ hearlier _ hlast other next answer rfl rfl
    cases List.mem_singleton.mp hlast

theorem respond (h : Records limits calls history guard) (call : Call κ) :
    Records limits (calls ++ [call]) (history ++ [(guard.respond call).1]) (guard.respond call).2 := by
  cases call with
  | enter key => exact h.enter key
  | leave key =>
      rw [respond_leave]
      exact h.leave key _

/-- A guard records all calls that are made, whatever they are. -/
theorem perform (h : Records limits calls history guard) (more : List (Call κ)) :
    Records limits (calls ++ more) (history ++ (guard.perform more).1) (guard.perform more).2 := by
  induction more generalizing calls history guard with
  | nil =>
      rw [List.append_nil, Guard.perform, List.append_nil]
      exact h
  | cons call rest ih =>
      have hrest := ih (h.respond call)
      rw [List.append_assoc, List.append_assoc] at hrest
      exact hrest

end Records

/-- **The guard after any calls.** Its stack holds distinct keys, those whose last entry has not been followed
by a leave, in the order of these entries; it is never deeper than the limit, and positions count along it.
Every attempt to enter counts, up to the greatest count. The next attempt enters a key exactly if the count
allows it, the key is not on the stack and there is room; any other answer leaves the stack as it was, and
so does a leave of a key that is not on it. After an attempt too many all attempts are. -/
theorem state_after_calls (limits : Limits) (calls : List (Call κ)) (history : List (Exchange κ))
    (guard : Guard κ) (hperform : (start limits).perform calls = (history, guard)) :
    guard.stack.Nodup ∧ guard.stack = standing history ∧
    (∀ key, key ∈ guard.stack ↔ ∃ earlier later, history = earlier ++ .enter key .entered :: later ∧
      ∀ next ∈ later, next.entered? ≠ some key ∧ next.left? ≠ some key) ∧
    guard.depth ≤ limits.maxDepth ∧
    guard.iterations = min (calls.countP Call.isEnter) maxCount ∧
    (∀ key position, guard.position? key = some position ↔ guard.stack[position]? = some key) ∧
    (∀ key answer, (guard.enter key).1 = answer ↔
      Answers limits (min (calls.countP Call.isEnter + 1) maxCount) guard.stack key answer) ∧
    (∀ key, (guard.enter key).1 ≠ .entered → (guard.enter key).2.stack = guard.stack) ∧
    (∀ key, key ∉ guard.stack →
      guard.respond (.leave key) = (.leave key (some .notEntered), guard)) ∧
    ∀ earlier key later, history = earlier ++ .enter key .iterationExceeded :: later →
      ∀ next answer, .enter next answer ∈ later → answer = .iterationExceeded := by
  have h : Records limits calls history guard := by
    have hrecords := (Records.start limits).perform calls
    rw [hperform] at hrecords
    exact hrecords
  refine ⟨h.nodup, h.stack_eq, fun key => ?_, h.depth_le, h.iterations_eq,
    fun key position => position?_eq_some_iff h.nodup, fun key answer => ?_, fun key hanswer => ?_,
    fun key hkey => ?_, ?_⟩
  · rw [h.stack_eq, mem_standing_iff]
    simp only [Exchange.Ends, not_or, ne_eq]
  · rw [enter_fst_iff h.nodup, h.limits_eq, h.attempted_eq]
  · have hnone : (Exchange.enter key (guard.enter key).1).entered? = none := by
      rw [Option.eq_none_iff_forall_ne_some]
      exact fun other hother => hanswer (Exchange.enter.inj (Exchange.eq_of_entered? hother)).2
    rw [enter_snd, hnone]
    exact List.append_nil _
  · rw [respond_leave, if_neg hkey, List.erase_of_not_mem hkey]
  · rintro earlier key later rfl next answer hnext
    have hlater := (List.pairwise_cons.mp (List.pairwise_append.mp h.lasting).2.1).1
    exact hlater _ hnext key next answer rfl rfl

/-- Seven attempts and three leaves under limits of two and six. The outermost key is left first, so the
other one moves down; it is left once too often, and the last attempt is one too many, as will be the next. -/
theorem state_after_calls_shuffled :
    (start ⟨2, 6⟩).perform [.enter 5, .enter 6, .leave 5, .enter 6, .leave 5, .enter 7, .enter 8, .leave 6,
        .enter 7, .enter 6] =
      ([.enter 5 .entered, .enter 6 .entered, .leave 5 none, .enter 6 (.cycle 0),
        .leave 5 (some .notEntered), .enter 7 .entered, .enter 8 .depthExceeded, .leave 6 none,
        .enter 7 (.cycle 0), .enter 6 .iterationExceeded], ⟨[7], 7, ⟨2, 6⟩⟩) ∧
    (∀ position, (⟨[7], 7, ⟨2, 6⟩⟩ : Guard Nat).position? 7 = some position ↔ [7][position]? = some 7) ∧
    ((⟨[7], 7, ⟨2, 6⟩⟩ : Guard Nat).enter 9).1 = .iterationExceeded :=
  have hperform : _ := by decide
  have hstate := state_after_calls _ _ _ _ hperform
  ⟨hperform, hstate.2.2.2.2.2.1 7, (hstate.2.2.2.2.2.2.1 9 .iterationExceeded).mpr (by decide +kernel : 6 < _)⟩

end DeferredTypes.Guard
