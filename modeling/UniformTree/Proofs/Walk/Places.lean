import Mathlib.Data.List.Basic
import UniformTree.Proofs.Walk.Visited
/-!
# Places

Where a node stands in the one that holds it, as far as the grammar makes a difference there: what
is a clause of a switch in one block is out of place in any other. `Node.visitedIn` are the nodes of
a walk with their places, and they are the nodes of the walk: `Node.map_snd_visitedIn`.
-/

namespace UniformTree

/-- Where a node stands. -/
inductive Place where
  /-- A place about which the grammar says nothing. -/
  | plain
  /-- The body of a switch, be it over values or over types. -/
  | switchBody
  /-- The body of a select. -/
  | selectBody
  /-- In the body of a switch. -/
  | switchClause
  /-- In the body of a select. -/
  | selectClause
  /-- After a label. -/
  | afterLabel
  /-- The parameters of a function, its type parameters, its results or its receiver, or the type
  parameters of a type. -/
  | parameters
  /-- A field among parameters. -/
  | parameter
  /-- The type of a parameter. -/
  | parameterType
  /-- The length of an array. -/
  | arrayLength
deriving DecidableEq, Repr

namespace Place

/-- The place of the statements of a block. -/
def inBlock : Place → Place
  | switchBody => switchClause
  | selectBody => selectClause
  | _ => plain

/-- The place of the fields of a list of fields. -/
def inFieldList : Place → Place
  | parameters => parameter
  | _ => plain

/-- The place of the type of a field. -/
def inField : Place → Place
  | parameter => parameterType
  | _ => plain

end Place

namespace Node

/-- Nodes in one place. -/
def allIn (p : Place) (ns : List Node) : List (Place × Node) := ns.map (p, ·)

/-- The children of a node with their places, if the node has a place itself. -/
def childrenIn (p : Place) : Node → List (Place × Node)
  | fieldList l => l.list.map fun f => (p.inFieldList, field f)
  | field f => allIn .plain (slot commentGroup f.doc ++ listOf .names ident f.names) ++
      (p.inField, expr f.type) :: allIn .plain (slot basicLit f.tag ++ slot commentGroup f.comment)
  | expr (.arrayType _ len elt) => allIn .arrayLength (slot expr len) ++ [(.plain, expr elt)]
  | expr (.funcType t) => allIn .parameters (ofExpr (.funcType t))
  | stmt (.block b) => b.list.map fun s => (p.inBlock, stmt s)
  | stmt (.labeled _ l s) => [(.plain, ident l), (.afterLabel, stmt s)]
  | stmt (.switch _ init tag body) =>
    allIn .plain (slot stmt init ++ slot expr tag) ++ [(.switchBody, block body)]
  | stmt (.typeSwitch _ init assign body) =>
    allIn .plain (slot stmt init ++ [stmt assign]) ++ [(.switchBody, block body)]
  | stmt (.select _ body) => [(.selectBody, block body)]
  | spec (.type _ doc name params _ t line) =>
    allIn .plain (slot commentGroup doc ++ [ident name]) ++
      (allIn .parameters (slot fieldList params) ++ allIn .plain (expr t :: slot commentGroup line))
  | decl (.func _ doc recv name t body) =>
    allIn .plain (slot commentGroup doc) ++ (allIn .parameters (slot fieldList recv) ++
      allIn .plain (ident name :: funcType t :: slot block body))
  | n => allIn .plain n.children

@[simp] theorem map_snd_allIn (p : Place) (ns : List Node) : (allIn p ns).map (·.2) = ns := by
  simp [allIn, Function.comp_def]

theorem map_snd_childrenIn (p : Place) (n : Node) : (n.childrenIn p).map (·.2) = n.children := by
  cases n with
  | expr e => cases e <;> simp [childrenIn, children, ofExpr]
  | stmt s => cases s <;> simp [childrenIn, children, ofStmt]
  | spec s => cases s <;> simp [childrenIn, children, ofSpec]
  | decl d => cases d <;> simp [childrenIn, children, ofDecl]
  | _ => simp [childrenIn, children]

theorem mem_children_of_mem_childrenIn {p : Place} {n : Node} {c : Place × Node}
    (h : c ∈ n.childrenIn p) : c.2 ∈ n.children := by
  rw [← map_snd_childrenIn p n]
  exact List.mem_map_of_mem h

/-- The nodes of a walk that begins in a place, each with its own place. -/
def visitedIn (p : Place) (n : Node) : List (Place × Node) :=
  (p, n) :: (n.childrenIn p).attach.flatMap fun c => visitedIn c.1.1 c.1.2
termination_by n.weight
decreasing_by exact weight_lt_of_mem_children (mem_children_of_mem_childrenIn c.2)

theorem visitedIn_eq (p : Place) (n : Node) :
    n.visitedIn p = (p, n) :: (n.childrenIn p).flatMap fun c => visitedIn c.1 c.2 := by
  rw [visitedIn, flatMap_attach (n.childrenIn p) fun c => visitedIn c.1 c.2]

/-- The nodes with a place are those of the walk. -/
theorem map_snd_visitedIn (p : Place) (n : Node) : (n.visitedIn p).map (·.2) = n.visited := by
  induction n using Node.induction generalizing p with
  | step n ih =>
    have hrow : (n.childrenIn p).flatMap (fun c => (visitedIn c.1 c.2).map (·.2)) =
        (n.childrenIn p).flatMap fun c => c.2.visited :=
      List.flatMap_congr fun c hc => ih c.2 (mem_children_of_mem_childrenIn hc) c.1
    rw [visitedIn_eq, visited_eq, List.map_cons, List.map_flatMap, hrow,
      ← map_snd_childrenIn p n, List.flatMap_map]

end Node

end UniformTree
