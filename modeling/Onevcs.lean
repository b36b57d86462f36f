import Onevcs.Foundations.Transition
import Onevcs.Foundations.Firsts
import Onevcs.Foundations.Flock
import Onevcs.Foundations.Ancestry
import Onevcs.Foundations.Lines
import Onevcs.Foundations.Chains
import Onevcs.Foundations.History
import Onevcs.Foundations.Outcome
import Onevcs.Foundations.Picking
import Onevcs.Foundations.Agreement
import Onevcs.Foundations.Json
import Onevcs.CheckoutReads.Model
import Onevcs.CheckoutReads.Invariant
import Onevcs.CheckoutReads.Steps
import Onevcs.CheckoutReads.Exclusion
import Onevcs.Landed.Decide
import Onevcs.Landed.DecideSound
import Onevcs.NativeObjects.Paint
import Onevcs.NativeObjects.PaintInvariant
import Onevcs.NativeObjects.PaintAnswers
import Onevcs.Rules.Policy
import Onevcs.Rules.Narrow
import Onevcs.Rules.Apply
import Onevcs.Rules.Composition
import Onevcs.Rules.Relaid
import Onevcs.Store.Normalize
import Onevcs.Store.Remainder
import Onevcs.Boundary.Levels
import Onevcs.Boundary.LevelsExact
import Onevcs.Boundary.Scope
import Onevcs.Boundary.ScopeMerge
import Onevcs.Boundary.Visibility
import Onevcs.Boundary.VisibilityRuns
import Onevcs.Boundary.Screen
import Onevcs.Boundary.ScreenExact
import Onevcs.Sessions.Retry
import Onevcs.Sessions.RetryAcyclic
import Onevcs.Sessions.RetryClosable
import Onevcs.Sessions.Reclaim
import Onevcs.Sessions.ReclaimSafe
import Onevcs.Sessions.FreshNames
import Onevcs.Sessions.FreshNamesRuns
import Onevcs.Pool.Shed
import Onevcs.Pool.Slots
import Onevcs.Pool.Ownership
import Onevcs.Pool.OwnershipRuns
import Onevcs.Pool.MaintenanceKept
import Onevcs.Pool.Maintenance
import Onevcs.Pool.Capacity
import Onevcs.Pool.CapacityAgrees
import Onevcs.Retire.RunRoots
import Onevcs.Retire.RunRootsExact
import Onevcs.Sweep.Judge
import Onevcs.Sweep.Naming
import Onevcs.Sweep.Records
import Onevcs.Sweep.RecordsSpent
import Onevcs.Sweep.Family
import Onevcs.Sweep.FamilyInvariant
import Onevcs.Sweep.FamilySafe
import Onevcs.Retire.Classes
import Onevcs.Retire.Deletion
import Onevcs.Retire.DeletionSafe
import Onevcs.Retire.DeletionRuns
import Onevcs.Retire.Judge
import Onevcs.Retire.JudgeSound
import Onevcs.Retire.Derive
import Onevcs.Retire.Retirable
import Onevcs.Store.Registry
import Onevcs.Store.RegistryRuns
import Onevcs.Store.UpdateSafe
import Onevcs.Branches.Locate
import Onevcs.Branches.LocateSafe
import Onevcs.Streams.Vocabulary
import Onevcs.Streams.EventStream
import Onevcs.Streams.EventStreamRuns
import Onevcs.Streams.Delivery
import Onevcs.Foundations.Fifo
import Onevcs.Queue.Turn
import Onevcs.Queue.TurnFair
import Onevcs.Queue.TurnRuns
import Onevcs.Queue.TurnServed
import Onevcs.Release.Status
import Onevcs.Release.StatusSound
import Onevcs.Release.BaselineKept
import Onevcs.Review.Comments
import Onevcs.Review.Base64
import Onevcs.Review.Read
import Onevcs.Review.ReadRuns
import Onevcs.Review.MarkerJson
import Onevcs.Review.NodeId
import Onevcs.Review.Reply
import Onevcs.Review.ReplyOnce
import Onevcs.Foundations.Memo
import Onevcs.GitReads.Spelling
import Onevcs.GitReads.Reads
import Onevcs.GitReads.Transparent
import Onevcs.GitReads.Capture
import Onevcs.Foundations.Scanning
import Onevcs.Foundations.Utf8
import Onevcs.Foundations.Weighted
import Onevcs.Foundations.Utf16
import Onevcs.Export.Extract
import Onevcs.Export.ScanExact
import Onevcs.Export.LayersRead
import Onevcs.Publish.Checks
import Onevcs.Publish.Watch
import Onevcs.Publish.DraftSkips
import Onevcs.Publish.Landing
import Onevcs.Publish.LandingSafe
import Onevcs.Foundations.Refs
import Onevcs.Integrate.Train
import Onevcs.Integrate.TrainLine
import Onevcs.Integrate.TrainSkips
import Onevcs.Import.Steps
import Onevcs.Foundations.Calls
import Onevcs.Host.ReleaseChangesMapped
import Onevcs.Import.Kept
import Onevcs.Standings.Pattern
import Onevcs.Standings.Declarations
import Onevcs.Standings.Standing
import Onevcs.Standings.Covered
import Onevcs.Publish.Adoption
import Onevcs.Publish.Double
import Onevcs.Publish.DoubleAgrees
import Onevcs.Foundations.Framing
import Onevcs.Audit.Mirror
import Onevcs.Audit.Status
import Onevcs.Audit.GitScan
import Onevcs.Audit.Records
import Onevcs.Audit.ScannedWhole
import Onevcs.Publish.Transitions
import Onevcs.Foundations.Paging
import Onevcs.Review.Fetch
import Onevcs.Review.FetchWhole
import Onevcs.Publish.Lease
import Onevcs.Publish.LeaseReads
import Onevcs.Declared.RoundTrip
import Onevcs.Recovery.SessionNarrowed
import Onevcs.Recovery.ObjectStores
import Onevcs.Recovery.NativeAnswers
import Onevcs.Stack.Assemble
import Onevcs.Stack.Restores
import Onevcs.Foundations.Traced
import Onevcs.Publish.Deferred
import Onevcs.Publish.DeferredAsks
import Onevcs.Foundations.Delimited
import Onevcs.Foundations.Dict
import Onevcs.Foundations.Overlay
import Onevcs.Release.Observed
import Onevcs.Release.Records
import Onevcs.Release.Resolve
import Onevcs.NativeObjects.Ranges
import Onevcs.NativeObjects.RangesExact
import Onevcs.Store.Canonical
import Onevcs.NativeObjects.Differ
import Onevcs.Closing.References
import Onevcs.Closing.Scanning
import Onevcs.Closing.Carried
import Onevcs.Closing.Report
import Onevcs.Foundations.Digits
import Onevcs.Workspaces.Span
import Onevcs.Workspaces.Limits
import Onevcs.Recovery.StoredAnswers
import Onevcs.Standings.Followed
import Onevcs.Streams.OperationEvents
import Onevcs.MergePath.AttemptsKept
import Onevcs.Export.TargetExact
import Onevcs.GitHub.ListedKept
import Onevcs.GitHub.RollupExact
import Onevcs.Rules.GlobExact
import Onevcs.Release.HeadGlob
import Onevcs.Testing.NamedBranch
import Onevcs.Branches.Sanitize
import Onevcs.Standings.PatternExact
import Onevcs.Audit.AttributeExact
