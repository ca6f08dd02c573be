import ClassWeave.CallSite
import ClassWeave.Chain
import ClassWeave.ClassName
import ClassWeave.CommandLine.Arguments
import ClassWeave.CommandLine.Basic
import ClassWeave.Decimal.Shortest
import ClassWeave.Descriptor
import ClassWeave.Directive.Basic
import ClassWeave.Directive.Reading
import ClassWeave.Json.Basic
import ClassWeave.Json.Fault
import ClassWeave.Json.Numeral
import ClassWeave.Json.Printer
import ClassWeave.Json.Reader
import ClassWeave.Json.Record
import ClassWeave.Json.Scan
import ClassWeave.Json.Shape
import ClassWeave.Link.Basic
import ClassWeave.Link.Construction
import ClassWeave.Link.Index
import ClassWeave.Link.Leaks
import ClassWeave.Link.Redirects
import ClassWeave.Log
import ClassWeave.Main
import ClassWeave.Merge.Access
import ClassWeave.Merge.Basic
import ClassWeave.Merge.Error
import ClassWeave.Merge.Grouping
import ClassWeave.Merge.Hierarchy
import ClassWeave.Merge.Inheritance
import ClassWeave.Merged.Basic
import ClassWeave.Merged.Name
import ClassWeave.Ordered.Map
import ClassWeave.Ordered.Set
import ClassWeave.Proofs.BytePositions
import ClassWeave.Proofs.Chain
import ClassWeave.Proofs.Demangling
import ClassWeave.Proofs.Descriptor
import ClassWeave.Proofs.Json.Numeral
import ClassWeave.Proofs.Json.Record
import ClassWeave.Proofs.Json.Text
import ClassWeave.Proofs.Link.Bridges
import ClassWeave.Proofs.Link.Construction
import ClassWeave.Proofs.Link.Identity
import ClassWeave.Proofs.Link.Leaks
import ClassWeave.Proofs.Link.Linked
import ClassWeave.Proofs.Link.Lookup
import ClassWeave.Proofs.Link.Loop
import ClassWeave.Proofs.Link.MemberLeak
import ClassWeave.Proofs.Link.Mentions
import ClassWeave.Proofs.Link.MergeOnly
import ClassWeave.Proofs.Link.Redirected
import ClassWeave.Proofs.Link.Renaming
import ClassWeave.Proofs.Link.ResultCast
import ClassWeave.Proofs.Link.StandIn
import ClassWeave.Proofs.Link.Step
import ClassWeave.Proofs.Link.Unredirected
import ClassWeave.Proofs.MangledNames
import ClassWeave.Proofs.Merge.Access
import ClassWeave.Proofs.Merge.Climb
import ClassWeave.Proofs.Merge.CommonAncestor
import ClassWeave.Proofs.Merge.Conflict
import ClassWeave.Proofs.Merge.FirstCommon
import ClassWeave.Proofs.Merge.Grouping
import ClassWeave.Proofs.Merge.Hierarchy
import ClassWeave.Proofs.Merge.Inheritance
import ClassWeave.Proofs.Merge.Invariants
import ClassWeave.Proofs.Merge.Mangling
import ClassWeave.Proofs.Merge.Order
import ClassWeave.Proofs.Merge.Partition
import ClassWeave.Proofs.Merge.Result
import ClassWeave.Proofs.Merge.VersionOrder
import ClassWeave.Proofs.Names
import ClassWeave.Proofs.Ordered.Map
import ClassWeave.Proofs.Ordered.Set
import ClassWeave.Proofs.Outcome
import ClassWeave.Proofs.ParameterScan
import ClassWeave.Proofs.Parameters
import ClassWeave.Proofs.Reference
import ClassWeave.Proofs.Run.Accounted
import ClassWeave.Proofs.Run.Atomic
import ClassWeave.Proofs.Run.Confined
import ClassWeave.Proofs.Run.Dropped
import ClassWeave.Proofs.Run.Interleaving
import ClassWeave.Proofs.Run.Merging
import ClassWeave.Proofs.Run.Overlap
import ClassWeave.Proofs.Run.Pool
import ClassWeave.Proofs.Run.Replaced
import ClassWeave.Proofs.Run.Schedule
import ClassWeave.Proofs.Run.Splitting
import ClassWeave.Proofs.Run.Survival
import ClassWeave.Proofs.Run.Written
import ClassWeave.Proofs.Split.Detached
import ClassWeave.Proofs.Split.Directives
import ClassWeave.Proofs.Split.Flags
import ClassWeave.Proofs.Split.Precedence
import ClassWeave.Proofs.Split.Receivers
import ClassWeave.Proofs.Split.Remerge
import ClassWeave.Proofs.Split.RoundTrip
import ClassWeave.Proofs.Store.ClassFiles
import ClassWeave.Proofs.Store.Confined
import ClassWeave.Proofs.Store.Directory
import ClassWeave.Proofs.Store.Disk
import ClassWeave.Proofs.Store.Memory
import ClassWeave.Proofs.Store.Path
import ClassWeave.Proofs.Store.Refinement
import ClassWeave.Proofs.Stored.Checked
import ClassWeave.Proofs.Stored.Codec
import ClassWeave.Proofs.Tree.Wire
import ClassWeave.Reference
import ClassWeave.Run.Merging
import ClassWeave.Run.Pool
import ClassWeave.Run.Report
import ClassWeave.Run.Splitting
import ClassWeave.Settings
import ClassWeave.Split.Hook
import ClassWeave.Split.Problem
import ClassWeave.Split.Projection
import ClassWeave.Store.Basic
import ClassWeave.Store.Directory
import ClassWeave.Store.Disk
import ClassWeave.Store.Error
import ClassWeave.Store.Memory
import ClassWeave.Store.Path
import ClassWeave.Store.Workspace
import ClassWeave.Stored.Annotated
import ClassWeave.Stored.Error
import ClassWeave.Text.Blank
import ClassWeave.Text.Identifier
import ClassWeave.Text.Quoted
import ClassWeave.Text.Unprintable
import ClassWeave.Tree.Basic
import ClassWeave.Tree.Code
import ClassWeave.Tree.Note
import ClassWeave.Tree.Shape
import ClassWeave.Tree.Wire
import ClassWeave.Version
import ClassWeave.Visibility
