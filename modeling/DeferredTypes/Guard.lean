import DeferredTypes.Number.Digits

/-! Guards of recursive work: an ordered stack of the keys that are being worked on, with a limit on
its depth and on the number of attempts to enter a key. -/

namespace DeferredTypes

/-- Counts are 32-bit numbers; at the greatest one they stay. -/
def maxCount : Nat := UInt32.size - 1

/-- How deep a guard may grow and how many attempts to enter it grants. -/
structure Limits where
  maxDepth : Nat
  maxIterations : Nat
  deriving DecidableEq, Repr

inductive Profile
  /-- As much as a count can hold. -/
  | unbounded
  /-- For callers who wait for the answer. -/
  | interactive
  | custom (maxDepth maxIterations : Nat)
  deriving DecidableEq, Repr

def Profile.limits : Profile → Limits
  | .unbounded => ⟨maxCount, maxCount⟩
  | .interactive => ⟨512, 1000000⟩
  | .custom maxDepth maxIterations => ⟨maxDepth, maxIterations⟩

/-- The keys being worked on, outermost first, and the attempts made so far. -/
structure Guard (κ : Type) where
  stack : List κ
  iterations : Nat
  limits : Limits
  deriving DecidableEq

namespace Guard

/-- The answer to an attempt to enter a key. -/
inductive Entry
  /-- The key is on top of the stack now. -/
  | entered
  /-- The key is being worked on already, at this position. -/
  | cycle (position : Nat)
  | depthExceeded
  | iterationExceeded
  deriving DecidableEq, Repr

/-- Entering and leaving that does not match. -/
inductive Misuse
  /-- A key was left that had not been entered. -/
  | notEntered
  /-- Some keys were never left. -/
  | leftOpen (count : Nat)
  deriving DecidableEq

/-- The text of a misuse. -/
def Misuse.message : Misuse → String
  | .notEntered =>
      "RecursionGuard::leave() called with a key that is not in the visiting set. " ++
        "This indicates a double-leave or a leave without a matching enter()."
  | .leftOpen count =>
      "RecursionGuard dropped with " ++ integerText count ++
        " active entries still in the visiting set. " ++
        "This indicates leaked enter() calls without matching leave() calls."

variable {κ : Type}

def start (limits : Limits) : Guard κ := ⟨[], 0, limits⟩

def depth (guard : Guard κ) : Nat := guard.stack.length

/-- A guard may be given up once every key has been left. -/
def close (guard : Guard κ) : Except Misuse Unit :=
  if guard.stack.isEmpty then .ok () else .error (.leftOpen guard.depth)

variable [DecidableEq κ]

/-- Where on the stack a key is, counted from the outermost one. -/
def position? (guard : Guard κ) (key : κ) : Option Nat := guard.stack.idxOf? key

/-- Tries to put a key on top of the stack. Every attempt counts. The number of attempts is checked
first, then whether the key is being worked on, then the depth: closing a cycle deepens nothing. -/
def enter (guard : Guard κ) (key : κ) : Entry × Guard κ :=
  let guard := { guard with iterations := min (guard.iterations + 1) maxCount }
  if guard.limits.maxIterations < guard.iterations then (.iterationExceeded, guard)
  else
    match guard.position? key with
    | some position => (.cycle position, guard)
    | none =>
        if guard.limits.maxDepth ≤ guard.depth then (.depthExceeded, guard)
        else (.entered, { guard with stack := guard.stack ++ [key] })

/-- Takes a key off the stack, wherever it is; those above it move down. -/
def leave (guard : Guard κ) (key : κ) : Except Misuse (Guard κ) :=
  if key ∈ guard.stack then .ok { guard with stack := guard.stack.erase key }
  else .error .notEntered

end Guard

end DeferredTypes
