import HotRename.Collaborator.Analyzer
import HotRename.Collaborator.Answer
import HotRename.Collaborator.Asked
import HotRename.Collaborator.Patch
import HotRename.Collaborator.SyntaxTree
import HotRename.Collaborator.Table
import HotRename.Command.Invocation
import HotRename.Command.Parsed
import HotRename.Command.Run
import HotRename.Command.Spec
import HotRename.Decimal.Basic
import HotRename.Decimal.Shortest
import HotRename.Digest.Sha256
import HotRename.Edit.Basic
import HotRename.Edit.Splice
import HotRename.Edit.Workspace
import HotRename.Graph.Basic
import HotRename.Graph.Cycles
import HotRename.Graph.Frames
import HotRename.Graph.Interned
import HotRename.Graph.Order
import HotRename.Graph.Reach
import HotRename.Json.Basic
import HotRename.Json.Decode
import HotRename.Json.Numeral
import HotRename.Json.Printer
import HotRename.Json.Reader
import HotRename.Main
import HotRename.Path.Basic
import HotRename.Project.Manifest
import HotRename.Project.Settings
import HotRename.Rename.Apply
import HotRename.Rename.Batch
import HotRename.Rename.Cascade
import HotRename.Rename.Config
import HotRename.Rename.Conflict
import HotRename.Rename.Engine
import HotRename.Rename.Error
import HotRename.Rename.Execute
import HotRename.Rename.ExecuteBatch
import HotRename.Rename.Impact
import HotRename.Rename.Integrity
import HotRename.Rename.Plan
import HotRename.Rename.Reload
import HotRename.Rename.Request
import HotRename.Rename.Safety
import HotRename.Store.Basic
import HotRename.Store.Disk
import HotRename.Store.Memory
import HotRename.Symbol.Id
import HotRename.Symbol.Identifier
import HotRename.Symbol.Kind
import HotRename.Symbol.Occurrence
import HotRename.Text.Character
import HotRename.Text.Search
import HotRename.Text.Offset
import HotRename.Toml.Document
import HotRename.Toml.Reader
import HotRename.Toml.Scalar
import HotRename.Proofs.Edit.Groups
import HotRename.Proofs.Edit.Substitution
import HotRename.Proofs.Except
import HotRename.Proofs.List
import HotRename.Proofs.Json.Decode
import HotRename.Proofs.Path.Order
import HotRename.Proofs.Rename.Apply
import HotRename.Proofs.Store.Memory
import HotRename.Proofs.Store.Placed
import HotRename.Proofs.Text.Bytes
import HotRename.Proofs.Rename.AllOrNothing
import HotRename.Proofs.Rename.Inquiry
import HotRename.Proofs.Rename.Execute
import HotRename.Proofs.Rename.Failure
import HotRename.Proofs.Path.Join
import HotRename.Proofs.Store.Disk
import HotRename.Proofs.Rename.Locations
import HotRename.Proofs.Graph.Order
import HotRename.Proofs.Graph.CycleSearch
import HotRename.Proofs.Graph.CyclesFound
import HotRename.Proofs.Graph.Insert
import HotRename.Proofs.Rename.Cascade
import HotRename.Proofs.Rename.Circular
import HotRename.Proofs.Rename.Agreement
import HotRename.Proofs.Edit.Disjoint
import HotRename.Proofs.Rename.Batch
import HotRename.Proofs.Rename.BatchOrder
import HotRename.Proofs.Rename.ExecuteBatch
import HotRename.Proofs.Command.BatchOfOne
import HotRename.Proofs.Text.Comment
import HotRename.Proofs.Edit.Words
import HotRename.Proofs.Rename.Integrity
import HotRename.Proofs.Json.RoundTrip
import HotRename.Proofs.Rename.DryRun
import HotRename.Proofs.Store.Overwrite
import HotRename.Proofs.Command.Confinement
import HotRename.Proofs.Rename.Permissive
import HotRename.Proofs.Rename.BatchIntegrity
import HotRename.Proofs.Command.BatchChecks
import HotRename.Proofs.Edit.Weave
import HotRename.Proofs.Rename.Withheld
import HotRename.Proofs.Rename.Reload
import HotRename.Proofs.Project.Documents
import HotRename.Proofs.Graph.ExactOrder
import HotRename.Proofs.Graph.CycleReports
import HotRename.Proofs.Edit.Overlap
import HotRename.Proofs.Rename.BatchChains
import HotRename.Proofs.Store.Confined
import HotRename.Proofs.Rename.Conflicts
import HotRename.Proofs.Edit.Boundaries
import HotRename.Proofs.Edit.GivenOrder
import HotRename.Proofs.Rename.Distances
import HotRename.Proofs.Text.Pieces
import HotRename.Proofs.Text.Mask
import HotRename.Proofs.Rename.Leftovers
import HotRename.Proofs.Symbol.Id
import HotRename.Proofs.Edit.StableSort
import HotRename.Proofs.Edit.Views
import HotRename.Proofs.Graph.Interned
import HotRename.Proofs.Rename.Patches
import HotRename.Proofs.Collaborator.SymbolAt
import HotRename.Proofs.Rename.Files
import HotRename.Proofs.Graph.Frames
import HotRename.Proofs.Project.Index
