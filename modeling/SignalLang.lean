import SignalLang.Proofs.AllocationOrder
import SignalLang.Proofs.AnchoredRuns
import SignalLang.Proofs.Assignment
import SignalLang.Proofs.Backtraces
import SignalLang.Proofs.Causes
import SignalLang.Proofs.DeclarationOrder
import SignalLang.Proofs.DeclaredTypes
import SignalLang.Proofs.ErrorPlaces
import SignalLang.Proofs.Limits
import SignalLang.Proofs.MalformedLiterals
import SignalLang.Proofs.Membership
import SignalLang.Proofs.NameProblems
import SignalLang.Proofs.NewScopes
import SignalLang.Proofs.PipeCalls
import SignalLang.Proofs.PlacementErrors
import SignalLang.Proofs.RunawayLoops
import SignalLang.Proofs.SharedInstances
import SignalLang.Proofs.StringLiterals
import SignalLang.Proofs.Subsumption
import SignalLang.Proofs.Targets
import SignalLang.Proofs.Termination
import SignalLang.Proofs.TypeReferences
import SignalLang.Proofs.TypeTests
import SignalLang.Proofs.Visibility
import SignalLang.Proofs.WellFormedRuns
