import FiniteDomain.Main
import FiniteDomain.Proofs.Narrowing
import FiniteDomain.Proofs.Pruning
import FiniteDomain.Proofs.Constraint.Shift
import FiniteDomain.Proofs.Constraint.Precedence
import FiniteDomain.Proofs.Constraint.Disequality
import FiniteDomain.Proofs.Constraint.NonOverlap
import FiniteDomain.Proofs.Satisfaction
import FiniteDomain.Proofs.Scheduling
import FiniteDomain.Proofs.Deciding
import FiniteDomain.Proofs.Requests
import FiniteDomain.Proofs.Bookkeeping
import FiniteDomain.Proofs.Lineage
import FiniteDomain.Proofs.Retiring
import FiniteDomain.Proofs.NarrowingUpdates
import FiniteDomain.Proofs.GreatestBox
import FiniteDomain.Proofs.Stepping
import FiniteDomain.Proofs.Calling
import FiniteDomain.Proofs.SearchSoundness
import FiniteDomain.Proofs.Regions
import FiniteDomain.Proofs.SearchCompleteness
import FiniteDomain.Proofs.SearchOptimality
import FiniteDomain.Proofs.RecursiveSearch
import FiniteDomain.Proofs.Budgeting
import FiniteDomain.Proofs.Safety
import FiniteDomain.Proofs.Decomposition
import FiniteDomain.Proofs.Packing.Squares
import FiniteDomain.Proofs.Posing
import FiniteDomain.Proofs.Packing.Building
import FiniteDomain.Proofs.Packing.Optimum
import FiniteDomain.Proofs.Cursors
import FiniteDomain.Proofs.Resuming
import FiniteDomain.Proofs.Ordering
import FiniteDomain.Proofs.Lexicographic
import FiniteDomain.Proofs.Records
import FiniteDomain.Proofs.SearchRecords
import FiniteDomain.Proofs.Termination
import FiniteDomain.Proofs.StoreHistory
import FiniteDomain.Proofs.Restoring
import FiniteDomain.Proofs.ForeignArchives
import FiniteDomain.Proofs.Alternatives
import FiniteDomain.Proofs.Constraint.Supports
import FiniteDomain.Proofs.Constraint.Overlaps
import FiniteDomain.Proofs.Constraint.Sweeps
import FiniteDomain.Proofs.Constraint.PrecedenceRuns
import FiniteDomain.Proofs.SortedEnumeration
import FiniteDomain.Proofs.StrictImprovement
import FiniteDomain.Proofs.Exploration
import FiniteDomain.Proofs.ExplorationDepth
import FiniteDomain.Proofs.Halting
import FiniteDomain.Proofs.Rounds
import FiniteDomain.Proofs.StickyFailure
import FiniteDomain.Proofs.WriteOnce
import FiniteDomain.Proofs.Accounts
