import UniformTree.Lowering.Decl
/-!
# Lowering: statements

As with expressions, the order in which the parts of a form are lowered decides who gets a comment
that two could own: the body of a loop comes before its head, and the right side of a receive
before its left.
-/

namespace UniformTree

namespace Lowering

variable (src : Placed) (below : Below)

/-- The assignment token of a node. -/
def assignToken? (n : Concrete) : Option String := (n.token? ["=", ":="]).map (·.kind)

/-- An assignment; its token is the operator, or else the one given. -/
def assignment (tok : String) (n : Concrete) : Lower Stmt := do
  let lhs ← exprsIn below n "left"
  let rhs ← exprsIn below n "right"
  let tok := match n.child? "operator" with
    | some op => op.kind
    | none => tok
  return .assign (src.span n) lhs tok rhs

/-- A receive operation, with the targets that it is assigned to if it has any. -/
def receive (n : Concrete) : Lower Stmt := do
  let right ← exprIn src below n "right"
  match n.child? "left" with
  | some left =>
    let lhs ← exprs below left
    return .assign (src.span n) lhs ((assignToken? n).getD "=") [right]
  | none => return .expr (src.span n) right

/-- The statement after a label; one at the end of a block labels an implicit empty statement. -/
def afterLabel (n : Concrete) : Lower Stmt :=
  match (flattened (n.partsBeside "label")).head? with
  | some s => below.stmt s
  | none => pure (.empty (Span.point (src.pos n.stop)) true)

/-- A labeled statement. -/
def labeled (n : Concrete) : Lower Stmt := do
  let stmt ← afterLabel src below n
  return .labeled (src.span n) (identIn src n "label") stmt

/-- A return with its results. -/
def returning (n : Concrete) : Lower Stmt := do
  let results ← n.parts.mapM (exprs below)
  return .returning (src.span n) results.flatten

/-- An if statement. -/
def ifElse (n : Concrete) : Lower Stmt := do
  let init ← stmtIn? below n "initializer"
  let cond ← exprIn src below n "condition"
  let body ← blockIn src below n "consequence"
  let otherwise ← stmtIn? below n "alternative"
  return .ifElse (src.span n) init cond body otherwise

/-- A loop over a range: of its targets the first two are the key and the value. -/
def rangeLoop (n head : Concrete) (body : BlockStmt) : Lower Stmt := do
  let targets ← exprsIn below head "left"
  let x ← exprIn src below head "right"
  return .range (src.span n) targets[0]? targets[1]? (assignToken? head) x body

/-- A loop with an initial statement, a condition and a statement after each turn. -/
def clauseLoop (n head : Concrete) (body : BlockStmt) : Lower Stmt := do
  let init ← stmtIn? below head "initializer"
  let cond ← exprIn? below head "condition"
  let post ← stmtIn? below head "update"
  return .forLoop (src.span n) init cond post body

/-- A loop, by what its head is: a range, a clause, a condition or nothing. -/
def loop (n : Concrete) : Lower Stmt := do
  let body ← blockIn src below n "body"
  match (n.partsBeside "body").head? with
  | some head =>
    if head.kind == "range_clause" then rangeLoop src below n head body
    else if head.kind == "for_clause" then clauseLoop src below n head body
    else return .forLoop (src.span n) none (some (← below.expr head)) none body
  | none => return .forLoop (src.span n) none none none body

/-! ## Clauses -/

/-- A clause of a switch or a select. -/
def isClause (n : Concrete) : Bool :=
  ["expression_case", "type_case", "default_case", "communication_case"].contains n.kind

/-- A clause of a select. -/
def commClause (n : Concrete) : Lower Stmt := do
  let comm ← stmtIn? below n "communication"
  let body ← stmtEach below (flattened (n.partsBeside "communication"))
  return .commClause (src.span n) comm body

/-- A clause of a switch: its values, then its types, then its body. -/
def caseClause (n : Concrete) : Lower Stmt := do
  let cases ← (n.partsIn "value" ++ n.partsIn "type").mapM (exprs below)
  let rest := n.parts.filter fun c => !c.fills "value" && !c.fills "type"
  let body ← stmtEach below (flattened rest)
  return .caseClause (src.span n) cases.flatten body

/-- The clauses of a switch or a select, between its braces. -/
def clauses (clause : Concrete → Lower Stmt) (n : Concrete) : Lower BlockStmt := do
  let list ← (n.parts.filter isClause).mapM clause
  return ⟨braceSpan src n, list⟩

/-- The closing parenthesis after the word `type` in the head of a type switch. -/
def guardClose? (n : Concrete) : Option Concrete :=
  let fromType := n.children.dropWhile fun c => !(c.kind == "type" && !c.isNamed)
  fromType.find? (·.kind == ")")

/-- The guard of a type switch as a statement: an assertion without a type, assigned to the alias
if there is one. -/
def guard (n : Concrete) (value : Expr) : Lower Stmt := do
  let stop := match guardClose? n with
    | some c => src.pos c.stop
    | none => value.span.stop
  let assertion : Expr := .typeAssert ⟨value.span.start, stop⟩ value none
  match n.child? "alias" with
  | some c =>
    let lhs ← exprs below c
    return .assign ⟨src.pos c.start, stop⟩ lhs ":=" [assertion]
  | none => return .expr assertion.span assertion

/-- A type switch. -/
def typeSwitch (n : Concrete) : Lower Stmt := do
  let init ← stmtIn? below n "initializer"
  let value ← exprIn src below n "value"
  let assign ← guard src below n value
  let body ← clauses src (caseClause src below) n
  return .typeSwitch (src.span n) init assign body

/-- A switch over the values of an expression. -/
def switch (n : Concrete) : Lower Stmt := do
  let init ← stmtIn? below n "initializer"
  let tag ← exprIn? below n "value"
  let body ← clauses src (caseClause src below) n
  return .switch (src.span n) init tag body

/-- A node as a statement. -/
def stmt (n : Concrete) : Lower Stmt := do
  let span := src.span n
  match StmtForm.ofKind n.kind with
  | .expression => return .expr span (← firstExpr src below n)
  | .send =>
    let chan ← exprIn src below n "channel"
    let value ← exprIn src below n "value"
    return .send span chan value
  | .increment => return .incDec span (← firstExpr src below n) "++"
  | .decrement => return .incDec span (← firstExpr src below n) "--"
  | .assignment => assignment src below "=" n
  | .definition => assignment src below ":=" n
  | .receive => receive src below n
  | .labeled => labeled src below n
  | .empty => return .empty span false
  | .branch tok => return .branch span tok (n.parts.head?.map (ident src))
  | .returning => returning src below n
  | .go => return .go span (← firstExpr src below n)
  | .defer => return .defer span (← firstExpr src below n)
  | .block => return .block (← block src below n)
  | .ifElse => ifElse src below n
  | .loop => loop src below n
  | .switch => switch src below n
  | .typeSwitch => typeSwitch src below n
  | .select => return .select span (← clauses src (commClause src below) n)
  | .declaration _ => return .decl span (← decl src below n)
  | .unknown => return .bad span

end Lowering

end UniformTree
