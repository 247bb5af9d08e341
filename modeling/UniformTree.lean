import UniformTree.Concrete.Rows
import UniformTree.Tree.Json
import UniformTree.Tree.Outline
import UniformTree.Tree.Part
import UniformTree.Workspace.Basic
import UniformTree.Proofs.Tree.Building
import UniformTree.Proofs.Tree.RoundTrip
import UniformTree.Proofs.Lowering.Depth.Unions
import UniformTree.Proofs.Lowering.Elements
import UniformTree.Proofs.Lowering.Labels
import UniformTree.Proofs.Workspace.Partition
import UniformTree.Proofs.Workspace.Confinement
import UniformTree.Proofs.Workspace.Rebase
import UniformTree.Proofs.Tree.Nodes
import UniformTree.Proofs.Comment.Requests
import UniformTree.Proofs.Lowering.Spans.File
import UniformTree.Proofs.Lowering.Rules.Stmt
import UniformTree.Proofs.Tree.Pruning
import UniformTree.Proofs.Walk.Skipping
import UniformTree.Proofs.Workspace.Sequences
import UniformTree.Proofs.Concrete.Counter
import UniformTree.Proofs.Concrete.Faults
import UniformTree.Proofs.Tree.Visits
import UniformTree.Proofs.Tree.Lists
import UniformTree.Proofs.Package.Extents
import UniformTree.Proofs.Workspace.Settings
