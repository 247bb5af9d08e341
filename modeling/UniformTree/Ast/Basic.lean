import UniformTree.Comment.Basic
/-!
# Source trees

The typed tree of a file: one constructor per form of the grammar. The arguments of a constructor
stand in the order of the source, which is the order in which they are visited. Whatever has no
form of its own is `bad`.
-/

namespace UniformTree

/-- A name and where it stands; an absent name is empty. -/
structure Ident where
  span : Span
  name : String
deriving DecidableEq, Repr, Inhabited

/-- What a literal denotes. -/
inductive LitKind where
  | int | float | imag | char | string
deriving DecidableEq, Repr, Inhabited

/-- A literal as it is written, quotes included. -/
structure BasicLit where
  span : Span
  kind : LitKind
  value : String
deriving DecidableEq, Repr, Inhabited

/-- Which way a channel goes. -/
inductive ChanDir where
  | both | send | recv
deriving DecidableEq, Repr, Inhabited

/-- How the type of a channel begins. -/
def ChanDir.text : ChanDir → String
  | both => "chan"
  | send => "chan<-"
  | recv => "<-chan"

/-- What a general declaration declares. -/
inductive DeclToken where
  | importing | constant | variable | type
deriving DecidableEq, Repr, Inhabited

/-- The word that a general declaration begins with. -/
def DeclToken.text : DeclToken → String
  | importing => "import"
  | constant => "const"
  | .variable => "var"
  | type => "type"

mutual

/-- Expressions and types. -/
inductive Expr where
  | bad (span : Span)
  | ident (id : Ident)
  | basicLit (lit : BasicLit)
  /-- `...T` as the type of a parameter, or `...` as the length of an array. -/
  | ellipsis (span : Span) (elt : Option Expr)
  | funcLit (span : Span) (type : FuncType) (body : BlockStmt)
  /-- The type is absent where the literal around it implies it. -/
  | compositeLit (span : Span) (type : Option Expr) (elts : List Expr)
  | paren (span : Span) (x : Expr)
  | selector (span : Span) (x : Expr) (sel : Ident)
  | index (span : Span) (x : Expr) (index : Expr)
  | indexList (span : Span) (x : Expr) (indices : List Expr)
  | slice (span : Span) (x : Expr) (low high max : Option Expr)
  /-- The type is absent in the guard `x.(type)` of a type switch. -/
  | typeAssert (span : Span) (x : Expr) (type : Option Expr)
  /-- `spread` says that the last argument is followed by `...`. -/
  | call (span : Span) (fn : Expr) (args : List Expr) (spread : Bool)
  | star (span : Span) (x : Expr)
  | unary (span : Span) (op : String) (x : Expr)
  | binary (span : Span) (x : Expr) (op : String) (y : Expr)
  | keyValue (span : Span) (key value : Expr)
  /-- The length is absent in the type of a slice. -/
  | arrayType (span : Span) (len : Option Expr) (elt : Expr)
  | structType (span : Span) (fields : FieldList)
  | funcType (type : FuncType)
  | interfaceType (span : Span) (methods : FieldList)
  | mapType (span : Span) (key value : Expr)
  | chanType (span : Span) (dir : ChanDir) (value : Expr)

/-- Parameters and results of a function. -/
structure FuncType where
  span : Span
  typeParams : Option FieldList
  params : FieldList
  results : Option FieldList

/-- A field of a struct, an element of an interface, a parameter or a result. -/
structure Field where
  span : Span
  doc : Option CommentGroup
  /-- Empty where the type stands alone. -/
  names : List Ident
  type : Expr
  tag : Option BasicLit
  comment : Option CommentGroup

/-- Fields with the brackets around them. -/
structure FieldList where
  span : Span
  list : List Field

/-- Statements, and the clauses of switches and selects. -/
inductive Stmt where
  | bad (span : Span)
  | decl (span : Span) (decl : Decl)
  /-- An empty statement is implicit where a label ends its block. -/
  | empty (span : Span) (implicit : Bool)
  | labeled (span : Span) (label : Ident) (stmt : Stmt)
  | expr (span : Span) (x : Expr)
  | send (span : Span) (chan value : Expr)
  | incDec (span : Span) (x : Expr) (tok : String)
  | assign (span : Span) (lhs : List Expr) (tok : String) (rhs : List Expr)
  | go (span : Span) (call : Expr)
  | defer (span : Span) (call : Expr)
  | returning (span : Span) (results : List Expr)
  | branch (span : Span) (tok : String) (label : Option Ident)
  | block (block : BlockStmt)
  | ifElse (span : Span) (init : Option Stmt) (cond : Expr) (body : BlockStmt)
      (otherwise : Option Stmt)
  /-- The list is empty in the default clause. -/
  | caseClause (span : Span) (list : List Expr) (body : List Stmt)
  | switch (span : Span) (init : Option Stmt) (tag : Option Expr) (body : BlockStmt)
  | typeSwitch (span : Span) (init : Option Stmt) (assign : Stmt) (body : BlockStmt)
  /-- The communication is absent in the default clause. -/
  | commClause (span : Span) (comm : Option Stmt) (body : List Stmt)
  | select (span : Span) (body : BlockStmt)
  | forLoop (span : Span) (init : Option Stmt) (cond : Option Expr) (post : Option Stmt)
      (body : BlockStmt)
  | range (span : Span) (key value : Option Expr) (tok : Option String) (x : Expr)
      (body : BlockStmt)

/-- Statements, or the clauses of a switch or a select, with the braces around them. -/
structure BlockStmt where
  span : Span
  list : List Stmt

/-- One line of a general declaration. -/
inductive Spec where
  | importing (span : Span) (doc : Option CommentGroup) (name : Option Ident) (path : BasicLit)
      (comment : Option CommentGroup)
  /-- A constant or a variable. -/
  | value (span : Span) (doc : Option CommentGroup) (names : List Ident) (type : Option Expr)
      (values : List Expr) (comment : Option CommentGroup)
  | type (span : Span) (doc : Option CommentGroup) (name : Ident) (typeParams : Option FieldList)
      (isAlias : Bool) (type : Expr) (comment : Option CommentGroup)

/-- Declarations. -/
inductive Decl where
  | bad (span : Span)
  | gen (span : Span) (doc : Option CommentGroup) (tok : DeclToken) (specs : List Spec)
  /-- The receiver is absent in a plain function, the body in one that is defined elsewhere. -/
  | func (span : Span) (doc : Option CommentGroup) (recv : Option FieldList) (name : Ident)
      (type : FuncType) (body : Option BlockStmt)

end

/-- A file; `comments` holds the groups that nothing else in it owns. -/
structure File where
  span : Span
  doc : Option CommentGroup
  name : Ident
  decls : List Decl
  comments : List CommentGroup

/-- Files that share a package name, in the order of their names. -/
structure Package where
  span : Span
  name : String
  files : List File

instance : Inhabited Expr := ⟨.bad .none⟩
instance : Inhabited Stmt := ⟨.bad .none⟩
instance : Inhabited Decl := ⟨.bad .none⟩

/-! ## Spans -/

/-- Where an expression stands. -/
def Expr.span : Expr → Span
  | bad s => s
  | ident id => id.span
  | basicLit lit => lit.span
  | ellipsis s _ => s
  | funcLit s _ _ => s
  | compositeLit s _ _ => s
  | paren s _ => s
  | selector s _ _ => s
  | index s _ _ => s
  | indexList s _ _ => s
  | slice s _ _ _ _ => s
  | typeAssert s _ _ => s
  | call s _ _ _ => s
  | star s _ => s
  | unary s _ _ => s
  | binary s _ _ _ => s
  | keyValue s _ _ => s
  | arrayType s _ _ => s
  | structType s _ => s
  | funcType t => t.span
  | interfaceType s _ => s
  | mapType s _ _ => s
  | chanType s _ _ => s

/-- Where a statement stands. -/
def Stmt.span : Stmt → Span
  | bad s => s
  | decl s _ => s
  | empty s _ => s
  | labeled s _ _ => s
  | expr s _ => s
  | send s _ _ => s
  | incDec s _ _ => s
  | assign s _ _ _ => s
  | go s _ => s
  | defer s _ => s
  | returning s _ => s
  | branch s _ _ => s
  | block b => b.span
  | ifElse s _ _ _ _ => s
  | caseClause s _ _ => s
  | switch s _ _ _ => s
  | typeSwitch s _ _ _ => s
  | commClause s _ _ => s
  | select s _ => s
  | forLoop s _ _ _ _ => s
  | range s _ _ _ _ _ => s

/-- Where a spec stands. -/
def Spec.span : Spec → Span
  | importing s _ _ _ _ => s
  | value s _ _ _ _ _ => s
  | type s _ _ _ _ _ _ => s

/-- Where a declaration stands. -/
def Decl.span : Decl → Span
  | bad s => s
  | gen s _ _ _ => s
  | func s _ _ _ _ _ => s

end UniformTree
