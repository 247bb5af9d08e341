import UniformTree.Ast.Basic
import UniformTree.Kind
/-!
# Nodes

Any node of a source tree, seen alike: its kind, its span and its label. A sequence of nodes that
share a slot of their owner is a node too, a synthetic list.
-/

namespace UniformTree

/-- A node of a source tree, or a synthetic list of nodes. -/
inductive Node where
  | comment (c : Comment)
  | commentGroup (g : CommentGroup)
  | field (f : Field)
  | fieldList (l : FieldList)
  | expr (e : Expr)
  | stmt (s : Stmt)
  | spec (s : Spec)
  | decl (d : Decl)
  | file (f : File)
  | package (p : Package)
  | list (role : ListRole) (span : Span) (items : List Node)

instance : Inhabited Node := ⟨.expr default⟩

/-! ## Kinds -/

/-- The kind of an expression. -/
def Expr.kind : Expr → Kind
  | bad _ => .badExpr
  | ident _ => .ident
  | basicLit _ => .basicLit
  | ellipsis _ _ => .ellipsis
  | funcLit _ _ _ => .funcLit
  | compositeLit _ _ _ => .compositeLit
  | paren _ _ => .parenExpr
  | selector _ _ _ => .selectorExpr
  | index _ _ _ => .indexExpr
  | indexList _ _ _ => .indexListExpr
  | slice _ _ _ _ _ => .sliceExpr
  | typeAssert _ _ _ => .typeAssertExpr
  | call _ _ _ _ => .callExpr
  | star _ _ => .starExpr
  | unary _ _ _ => .unaryExpr
  | binary _ _ _ _ => .binaryExpr
  | keyValue _ _ _ => .keyValueExpr
  | arrayType _ _ _ => .arrayType
  | structType _ _ => .structType
  | funcType _ => .funcType
  | interfaceType _ _ => .interfaceType
  | mapType _ _ _ => .mapType
  | chanType _ _ _ => .chanType

/-- The kind of a statement. -/
def Stmt.kind : Stmt → Kind
  | bad _ => .badStmt
  | decl _ _ => .declStmt
  | empty _ _ => .emptyStmt
  | labeled _ _ _ => .labeledStmt
  | expr _ _ => .exprStmt
  | send _ _ _ => .sendStmt
  | incDec _ _ _ => .incDecStmt
  | assign _ _ _ _ => .assignStmt
  | go _ _ => .goStmt
  | defer _ _ => .deferStmt
  | returning _ _ => .returnStmt
  | branch _ _ _ => .branchStmt
  | block _ => .blockStmt
  | ifElse _ _ _ _ _ => .ifStmt
  | caseClause _ _ _ => .caseClause
  | switch _ _ _ _ => .switchStmt
  | typeSwitch _ _ _ _ => .typeSwitchStmt
  | commClause _ _ _ => .commClause
  | select _ _ => .selectStmt
  | forLoop _ _ _ _ _ => .forStmt
  | range _ _ _ _ _ _ => .rangeStmt

/-- The kind of a spec. -/
def Spec.kind : Spec → Kind
  | importing _ _ _ _ _ => .importSpec
  | value _ _ _ _ _ _ => .valueSpec
  | type _ _ _ _ _ _ _ => .typeSpec

/-- The kind of a declaration. -/
def Decl.kind : Decl → Kind
  | bad _ => .badDecl
  | gen _ _ _ _ => .genDecl
  | func _ _ _ _ _ _ => .funcDecl

/-! ## Labels -/

/-- The text that sorts an expression further: a name, a literal, an operator. -/
def Expr.label : Expr → Option String
  | ident id => some id.name
  | basicLit lit => some lit.value
  | unary _ op _ => some op
  | binary _ _ op _ => some op
  | chanType _ dir _ => some dir.text
  | _ => none

/-- The text that sorts a statement further: its token. -/
def Stmt.label : Stmt → Option String
  | incDec _ _ tok => some tok
  | assign _ _ tok _ => some tok
  | branch _ tok _ => some tok
  | range _ _ _ tok _ _ => tok
  | _ => none

/-- An alias is marked with its equals sign. -/
def Spec.label : Spec → Option String
  | type _ _ _ _ true _ _ => some "="
  | _ => none

/-- A general declaration is labelled with its first word. -/
def Decl.label : Decl → Option String
  | gen _ _ tok _ => some tok.text
  | _ => none

namespace Node

/-- The kind of a node. -/
def kind : Node → Kind
  | comment _ => .comment
  | commentGroup _ => .commentGroup
  | field _ => .field
  | fieldList _ => .fieldList
  | expr e => e.kind
  | stmt s => s.kind
  | spec s => s.kind
  | decl d => d.kind
  | file _ => .file
  | package _ => .package
  | list _ _ _ => .list

/-- Where a node stands. -/
def span : Node → Span
  | comment c => c.span
  | commentGroup g => g.span
  | field f => f.span
  | fieldList l => l.span
  | expr e => e.span
  | stmt s => s.span
  | spec s => s.span
  | decl d => d.span
  | file f => f.span
  | package p => p.span
  | list _ s _ => s

/-- The text that sorts a node further, if it has one. -/
def label : Node → Option String
  | comment c => some c.text
  | expr e => e.label
  | stmt s => s.label
  | spec s => s.label
  | decl d => d.label
  | package p => some p.name
  | list role _ _ => some role.name
  | _ => none

/-- A name as a node. -/
abbrev ident (id : Ident) : Node := .expr (.ident id)

/-- A literal as a node. -/
abbrev basicLit (lit : BasicLit) : Node := .expr (.basicLit lit)

/-- A function type as a node. -/
abbrev funcType (t : FuncType) : Node := .expr (.funcType t)

/-- A block as a node. -/
abbrev block (b : BlockStmt) : Node := .stmt (.block b)

end Node

end UniformTree
