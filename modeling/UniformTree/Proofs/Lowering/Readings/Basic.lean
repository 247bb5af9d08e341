import Mathlib.Data.List.Forall2
import UniformTree.Proofs.Lowering.Yields
import UniformTree.Proofs.Walk.Visited
/-!
# Readings and their rows

What a node is lowered to depends on what it is read as: a type that stands alone in an interface is
an element there, and below it an expression. Many readings gather a row of nodes, such as the
arguments of a call or the statements of a block. `Reading.rows` are the rows that the source wrote,
and `Node.rows` those of the node that was made; `rows_lowered` says that they match, one element
for each node and in the same order.
-/

namespace UniformTree

open Lowering

namespace Concrete

/-! ## Rows of the source -/

/-- The parts of the child in a field; none if it is absent. -/
def partsUnder (n : Concrete) (f : String) : List Concrete :=
  match n.child? f with
  | some c => c.parts
  | none => []

/-- The expressions of a list of expressions, or the node as the only one. -/
def exprNodes (n : Concrete) : List Concrete :=
  if n.kind == "expression_list" then n.parts else [n]

/-- The expressions in a field; none if it is absent. -/
def exprNodesIn (n : Concrete) (f : String) : List Concrete :=
  match n.child? f with
  | some c => c.exprNodes
  | none => []

/-- The statements of a clause of a switch: what is neither a value nor a type of it. -/
def caseBody (n : Concrete) : List Concrete :=
  flattened (n.parts.filter fun c => !c.fills "value" && !c.fills "type")

end Concrete

/-- What a node is read as when it is lowered. -/
inductive Reading where
  | expr
  | stmt
  | decl
  | spec (tok : DeclToken)
  /-- The expression in a field of the node. -/
  | operand (field : String)
  /-- The function that a call calls. -/
  | callee
  /-- The assertion in the guard of a type switch. -/
  | assertion
  | guard
  /-- The block in a field of the node. -/
  | body (field : String)
  /-- The clauses of a select, or else of a switch. -/
  | clauses (select : Bool)
  | clause (select : Bool)
  | param
  | params
  /-- The parameters of a function, which may be absent. -/
  | parameters
  /-- A result without parentheses. -/
  | bareResult
  | results
  | structField
  | structFields
  | element
  | elements
deriving DecidableEq, Repr

namespace Reading

open Concrete

/-- Nodes that are all read alike. -/
abbrev Row := Reading × List Concrete

/-- A clause of a select, or else of a switch. -/
def lowerClause (src : Placed) (below : Below) : Bool → Concrete → Lower Stmt
  | true => commClause src below
  | false => caseClause src below

/-- The guard of a type switch, with its value. -/
def guarded (src : Placed) (below : Below) (n : Concrete) : Lower Stmt := do
  let value ← exprIn src below n "value"
  Lowering.guard src below n value

/-- What a node is lowered to under a reading. -/
def lower (src : Placed) (below : Below) : Reading → Concrete → Lower Node
  | expr, n => .expr <$> Lowering.expr src below n
  | stmt, n => .stmt <$> Lowering.stmt src below n
  | decl, n => .decl <$> Lowering.decl src below n
  | spec tok, n => .spec <$> Lowering.spec src below tok n
  | operand f, n => .expr <$> exprIn src below n f
  | callee, n => .expr <$> Lowering.callee src below n
  | assertion, n => do
    let value ← exprIn src below n "value"
    return .expr (.typeAssert ⟨value.span.start, guardStop src n value⟩ value none)
  | guard, n => .stmt <$> guarded src below n
  | body f, n => Node.block <$> blockIn src below n f
  | clauses select, n => Node.block <$> Lowering.clauses src (lowerClause src below select) n
  | clause select, n => .stmt <$> lowerClause src below select n
  | param, n => .field <$> Lowering.param src below n
  | params, n => .fieldList <$> Lowering.params src below n
  | parameters, n => .fieldList <$> paramsOf src below n
  | bareResult, n => do
    let type ← below.expr n
    return .field ⟨src.span n, none, [], type, none, none⟩
  | results, n => .fieldList <$> Lowering.results src below n
  | structField, n => .field <$> Lowering.structField src below n
  | structFields, n =>
    match n.parts.head? with
    | some list => .fieldList <$> Lowering.structFields src below list
    | none => return .fieldList ⟨src.span n, []⟩
  | element, n => .field <$> Lowering.element src below n
  | elements, n => .fieldList <$> Lowering.elements src below n

/-- How many levels there are to lower below a node: its own too where the node as a whole is handed
on to be lowered as a type. -/
def levelsBelow : Reading → Concrete → Nat
  | bareResult, n | results, n | element, n => n.height
  | _, n => n.height - 1

/-- The node that is made belongs to the reading, and is not handed on from another one. -/
def isDirect : Reading → Concrete → Bool
  | expr, n =>
    match ExprForm.ofKind n.kind with
    | .wrapper | .union => false
    | _ => true
  | operand _, _ => false
  | callee, n => (n.child? "type_arguments").isSome
  | _, _ => true

/-! ## What the source wrote -/

/-- The rows of an expression, by its form. -/
def exprRows : ExprForm → Concrete → List Row
  | .compositeLit, n => [(expr, n.partsUnder "body")]
  | .literalValue, n => [(expr, n.parts)]
  | .index, n => [(expr, n.partsIn "index")]
  | .instantiation, n => [(expr, n.partsBeside "type")]
  | .generic, n => [(expr, n.partsUnder "type_arguments")]
  | .call, n => [(expr, n.partsUnder "arguments")]
  | .conversion, n => [(operand "operand", [n])]
  | _, _ => []

/-- The two sides of a receive operation; there are none without targets. -/
def receiveRows (n : Concrete) : List Row :=
  match n.child? "left" with
  | some left => [(expr, left.exprNodes), (operand "right", [n])]
  | none => []

/-- The targets of a loop over a range. -/
def loopRows (n : Concrete) : List Row :=
  match (n.partsBeside "body").head? with
  | some head => if head.kind == "range_clause" then [(expr, head.exprNodesIn "left")] else []
  | none => []

/-- The rows of a statement, by its form. -/
def stmtRows : StmtForm → Concrete → List Row
  | .assignment, n | .definition, n => [(expr, n.exprNodesIn "left"), (expr, n.exprNodesIn "right")]
  | .receive, n => receiveRows n
  | .returning, n => [(expr, n.parts.flatMap exprNodes)]
  | .block, n => [(stmt, flattened n.parts)]
  | .loop, n => loopRows n
  | _, _ => []

/-- The rows of a declaration, by its form. -/
def declRows : DeclForm → Concrete → List Row
  | .gen tok, n => [(spec tok, specNodes n)]
  | _, _ => []

/-- The two sides of the guard of a type switch; there are none without an alias. -/
def guardRows (n : Concrete) : List Row :=
  match n.child? "alias" with
  | some c => [(expr, c.exprNodes), (assertion, [n])]
  | none => []

/-- The results of a function: parameters, or one type that stands alone. -/
def resultRows (n : Concrete) : List Row :=
  if n.kind == "parameter_list" then [(param, n.parts)] else [(bareResult, [n])]

/-- The fields of a struct type. -/
def fieldRows (n : Concrete) : List Row :=
  match n.parts.head? with
  | some list => [(structField, list.parts)]
  | none => [(structField, [])]

/-- The rows of nodes that a node has under a reading. -/
def rows : Reading → Concrete → List Row
  | expr, n => exprRows (ExprForm.ofKind n.kind) n
  | stmt, n => stmtRows (StmtForm.ofKind n.kind) n
  | decl, n => declRows (DeclForm.ofKind n.kind) n
  | spec .constant, n | spec .variable, n => [(expr, n.exprNodesIn "value")]
  | callee, n => [(expr, n.partsUnder "type_arguments")]
  | guard, n => guardRows n
  | body f, n => [(stmt, flattened (n.partsUnder f))]
  | clauses select, n => [(clause select, n.parts.filter isClause)]
  | clause true, n => [(stmt, flattened (n.partsBeside "communication"))]
  | clause false, n =>
    [(expr, (n.partsIn "value" ++ n.partsIn "type").flatMap exprNodes), (stmt, n.caseBody)]
  | params, n => [(param, n.parts)]
  | parameters, n => [(param, n.partsUnder "parameters")]
  | results, n => resultRows n
  | structFields, n => fieldRows n
  | elements, n => [(element, n.parts)]
  | _, _ => []

/-- The node is read as a loop. -/
def isLoop : Reading → Concrete → Bool
  | stmt, n => StmtForm.ofKind n.kind == .loop
  | _, _ => false

/-- The rows as far as they are kept: a loop over a range has room for two targets. -/
def kept (r : Reading) (n : Concrete) : List Row :=
  if r.isLoop n then (r.rows n).map fun row => (row.1, row.2.take 2) else r.rows n

end Reading

/-- The rows of nodes that a node holds. -/
def Node.rows : Node → List (List Node)
  | expr (.compositeLit _ _ elts) => [elts.map expr]
  | expr (.index _ _ i) => [[expr i]]
  | expr (.indexList _ _ indices) => [indices.map expr]
  | expr (.call _ _ args _) => [args.map expr]
  | stmt (.assign _ lhs _ rhs) => [lhs.map expr, rhs.map expr]
  | stmt (.returning _ results) => [results.map expr]
  | stmt (.block b) => [b.list.map stmt]
  | stmt (.caseClause _ cases body) => [cases.map expr, body.map stmt]
  | stmt (.commClause _ _ body) => [body.map stmt]
  | stmt (.range _ key value _ _ _) => [(key.toList ++ value.toList).map expr]
  | fieldList l => [l.list.map field]
  | spec (.value _ _ _ _ values _) => [values.map expr]
  | decl (.gen _ _ _ specs) => [specs.map spec]
  | _ => []

/-- The node is what a node of the concrete tree is lowered to under a reading, whatever comments
are left and with levels enough. -/
def Lowered (src : Placed) (r : Reading) (c : Concrete) (m : Node) : Prop :=
  ∃ levels, r.levelsBelow c ≤ levels ∧ ∃ pool, (r.lower src (upTo src levels) c pool).1 = m

/-- Rows of lowered nodes match those of the source: as many rows, in each of them as many nodes,
and each node is what its partner is lowered to. -/
def Match (src : Placed) (rows : List Reading.Row) (nodes : List (List Node)) : Prop :=
  List.Forall₂ (fun row out => List.Forall₂ (Lowered src row.1) row.2 out) rows nodes

namespace Lower

variable {α β : Type} {R : α → β → Prop} {Q : β → Prop}

/-- One result for each element, in order. -/
theorem Yields.forall₂ {f : α → Lower β} {xs : List α} (h : ∀ x ∈ xs, (f x).Yields (R x)) :
    (xs.mapM f).Yields (List.Forall₂ R xs) := by
  induction xs with
  | nil =>
    rw [List.mapM_nil]
    exact .pure .nil
  | cons x xs ih =>
    rw [List.mapM_cons]
    refine (h x List.mem_cons_self).bind fun y hy => ?_
    refine (ih fun z hz => h z (List.mem_cons_of_mem x hz)).bind fun ys hys => ?_
    exact .pure (.cons hy hys)

/-- A step whose result does not matter. -/
theorem Yields.skip {m : Lower α} {f : α → Lower β} (hf : ∀ a, (f a).Yields Q) :
    Yields (m >>= f) Q := (Yields.trivial m).bind fun a _ => hf a

end Lower

end UniformTree
