import UniformTree.Tree.Builder
import UniformTree.Walk.Trace
/-!
# Uniform trees of parts

Any node that a walk enters has a uniform tree of its own.
-/

namespace UniformTree

/-- The uniform trees of the nodes that a walk enters at the wanted numbers, in the order of the
walk. -/
def Node.normalizeParts (n : Node) (wanted : List Nat) (options : BuildOptions) :
    List (Nat × Tree) :=
  n.visited.zipIdx.filterMap fun (part, i) =>
    if i ∈ wanted then some (i, part.normalize options) else none

end UniformTree
