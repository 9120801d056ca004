import DeferredTypes.Dump.Writing
import DeferredTypes.LogSettings
import DeferredTypes.Main
import DeferredTypes.Proofs.Alternatives
import DeferredTypes.Proofs.Chains
import DeferredTypes.Proofs.DumpRoundTrip
import DeferredTypes.Proofs.EmptyUnions
import DeferredTypes.Proofs.FilteredReport
import DeferredTypes.Proofs.GraphIndex
import DeferredTypes.Proofs.GuardDiscipline
import DeferredTypes.Proofs.JsonReport
import DeferredTypes.Proofs.Locality
import DeferredTypes.Proofs.Noninterference
import DeferredTypes.Proofs.Queries
import DeferredTypes.Proofs.Termination
import DeferredTypes.Proofs.VisitingSet
import DeferredTypes.Proofs.WalkOnce
import DeferredTypes.Proofs.Origins
import DeferredTypes.Proofs.CanonicalText
import DeferredTypes.Proofs.Unambiguity
import DeferredTypes.Proofs.Population
import DeferredTypes.Proofs.GuardHistory
import DeferredTypes.Proofs.Traversal
import DeferredTypes.Proofs.Rendering
