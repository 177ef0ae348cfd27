import MemoryAgent.Roots.ClosestGcRoots
import MemoryAgent.Sizes.RetainedSizeAndHeldObjects
import MemoryAgent.Containers.Vector
import MemoryAgent.Graph.Dominance
import MemoryAgent.Graph.PathCompression
import MemoryAgent.Sizes.DominatorTree.Program
import MemoryAgent.Sizes.DominatorTree.DepthFirst
import MemoryAgent.Sizes.DominatorTree.Forest
import MemoryAgent.Sizes.DominatorTree.MainLoop
import MemoryAgent.Graph.LeafAccumulation
import MemoryAgent.Sizes.DominatorTree.Correctness
import MemoryAgent.Jvmti.InputArray
import MemoryAgent.Sizes.ViaDominatorTree.Program
import MemoryAgent.Sizes.ViaDominatorTree.Vertices
import MemoryAgent.Sizes.ViaDominatorTree.FirstTraversal
import MemoryAgent.Sizes.ViaDominatorTree.SecondTraversal
import MemoryAgent.Sizes.ViaDominatorTree.RetainedSizes
import MemoryAgent.Sizes.ViaDominatorTree.ByClass
import MemoryAgent.Sizes.ViaDominatorTree.CollectedInstances
import MemoryAgent.Sizes.DominatorTree.Unreached
import MemoryAgent.Sizes.DominatorTree.AnyGraph
import MemoryAgent.Sizes.DominatorTree.CountedLeaves
import MemoryAgent.Sizes.ViaDominatorTree.Numbering
import MemoryAgent.Sizes.ViaDominatorTree.CountedObjects
import MemoryAgent.Sizes.ViaDominatorTree.ByObjects
import MemoryAgent.Memory.Store
import MemoryAgent.Roots.GcTags
import MemoryAgent.Roots.Paths
import MemoryAgent.Roots.PathsToClosestGcRoots
import MemoryAgent.Roots.RecordedReferences
import MemoryAgent.Roots.RealLinks
import MemoryAgent.Roots.EmittedPaths
import MemoryAgent.Roots.ObjectsLimit
import MemoryAgent.Roots.TruncatedPaths
import MemoryAgent.Roots.ReachedTags
import MemoryAgent.Roots.Runs
import MemoryAgent.Memory.ReferenceCounting
import MemoryAgent.Memory.Renaming
import MemoryAgent.Sizes.Tags.TagInfoArray
import MemoryAgent.Sizes.Tags.Program
import MemoryAgent.Sizes.Tags.Ownership
import MemoryAgent.Sizes.Tags.MergedInfos
import MemoryAgent.Sizes.Tags.MergeGuard
import MemoryAgent.Sizes.DominatorTree.Overflow
import MemoryAgent.Sizes.Tags.Actions
import MemoryAgent.Sizes.Tags.Effects
import MemoryAgent.Sizes.Tags.MergeOrder
import MemoryAgent.Sizes.Tags.Frame
import MemoryAgent.Sizes.Tags.Contents
import MemoryAgent.Sizes.Tags.StartEntries
import MemoryAgent.Sizes.Tags.UninterruptedRuns
import MemoryAgent.Sizes.Tags.NewInfo
import MemoryAgent.Sizes.Tags.Insertions
import MemoryAgent.Sizes.Tags.Renaming
import MemoryAgent.Sizes.Tags.Rewalks
import MemoryAgent.Sizes.Tags.StartTags
import MemoryAgent.Sizes.Tags.SizeSums
import MemoryAgent.Sizes.Tags.ObjectRuns
import MemoryAgent.Sizes.Tags.ClassTags
import MemoryAgent.Sizes.Tags.ClassRuns
import MemoryAgent.Sizes.Tags.ShallowSizes
import MemoryAgent.Sizes.Tags.IndexLaw
import MemoryAgent.Jvmti.Orders
import MemoryAgent.Reachability.ObjectsOfClass
import MemoryAgent.Reachability.FirstObject
import MemoryAgent.Roots.WeakSoft
import MemoryAgent.Sizes.ViaDominatorTree.Edges
import MemoryAgent.Actions.Calls
import MemoryAgent.Actions.Program
import MemoryAgent.Actions.ErrorCode
import MemoryAgent.Sizes.DominatorTree.LinkEval
import MemoryAgent.Actions.CancellationChecker
import MemoryAgent.Actions.ThreadSuspender
import MemoryAgent.Allocations.Listeners
import MemoryAgent.Allocations.Notifications
import MemoryAgent.Allocations.Interleavings
import MemoryAgent.Allocations.Deliveries
import MemoryAgent.Allocations.FailedInitialization
import MemoryAgent.Sizes.Tags.Provenance
import MemoryAgent.Sizes.Tags.TracedRuns
import MemoryAgent.Sizes.Tags.ReachableSums
import MemoryAgent.Actions.Rules
import MemoryAgent.Actions.WrappedIterations
import MemoryAgent.Actions.DefinedRuns
import MemoryAgent.Actions.PromptStops
import MemoryAgent.Graph.WrappedCallbacks
import MemoryAgent.Actions.CallbackWrappers
import MemoryAgent.Roots.HeapRoots
import MemoryAgent.Roots.ReportedPaths
import MemoryAgent.Roots.LeakCounter
import MemoryAgent.Roots.StaleReferences
import MemoryAgent.Roots.SharedTag
import MemoryAgent.Sizes.HeldSets
import MemoryAgent.Actions.Executions
import MemoryAgent.Actions.SizeExecutions
import MemoryAgent.Sizes.ViaDominatorTree.SameSizes
import MemoryAgent.Actions.DominatorExecutions
import MemoryAgent.Actions.PathExecutions
import MemoryAgent.Actions.Sessions
