import DeferredTypes.Graph

/-! What happens in the course of a resolution, and the counts of it that callers see. -/

namespace DeferredTypes

/-- A step of a resolution. -/
inductive Event
  /-- A symbol was taken as open from the start. -/
  | seeded (id : SymbolId)
  /-- A symbol was opened, at this position of the stack, and its type is being walked. -/
  | walked (id : SymbolId) (position : Nat)
  /-- A symbol that was open is not any more. -/
  | left (id : SymbolId)
  /-- The final type of a symbol was handed out. -/
  | recalled (id : SymbolId)
  /-- A symbol that is open, at this position, was asked for; the answer was unknown. -/
  | cut (id : SymbolId) (position : Nat)
  /-- A function or method was asked for that nobody declared. -/
  | missing (path : Path)
  /-- The type found for a symbol became its final type. -/
  | stored (id : SymbolId)
  /-- The type found for a symbol depends on a symbol that is open still, so it was not kept. -/
  | provisional (id : SymbolId)
  deriving DecidableEq

/-- Counts over the life of a resolver. -/
structure Stats where
  walks : Nat := 0
  memoHits : Nat := 0
  cyclesCut : Nat := 0
  unresolvedTargets : Nat := 0
  writes : Nat := 0
  deriving DecidableEq, Repr, Inhabited

namespace Stats

def merge (left right : Stats) : Stats where
  walks := left.walks + right.walks
  memoHits := left.memoHits + right.memoHits
  cyclesCut := left.cyclesCut + right.cyclesCut
  unresolvedTargets := left.unresolvedTargets + right.unresolvedTargets
  writes := left.writes + right.writes

/-- Counts one more step. -/
def count (stats : Stats) : Event → Stats
  | .walked .. => { stats with walks := stats.walks + 1 }
  | .recalled _ => { stats with memoHits := stats.memoHits + 1 }
  | .cut .. => { stats with cyclesCut := stats.cyclesCut + 1 }
  | .missing _ => { stats with unresolvedTargets := stats.unresolvedTargets + 1 }
  | .stored _ => { stats with writes := stats.writes + 1 }
  | .seeded _ | .left _ | .provisional _ => stats

def ofJournal (journal : List Event) : Stats := journal.foldl count {}

end Stats

end DeferredTypes
