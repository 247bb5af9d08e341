/-!
# Node kinds and list roles

The closed set of tags that a node of a source tree, and so of a uniform tree, can carry, and the
roles that a synthetic list can play. Their names are the ones written out.
-/

namespace UniformTree

/-- The tag of a node: one per form of the grammar, and `list` for a synthetic grouping. -/
inductive Kind where
  | comment | commentGroup | field | fieldList
  | badExpr | ident | basicLit | ellipsis | funcLit | compositeLit | parenExpr | selectorExpr
  | indexExpr | indexListExpr | sliceExpr | typeAssertExpr | callExpr | starExpr | unaryExpr
  | binaryExpr | keyValueExpr
  | arrayType | structType | funcType | interfaceType | mapType | chanType
  | badStmt | declStmt | emptyStmt | labeledStmt | exprStmt | sendStmt | incDecStmt | assignStmt
  | goStmt | deferStmt | returnStmt | branchStmt | blockStmt | ifStmt | caseClause | switchStmt
  | typeSwitchStmt | commClause | selectStmt | forStmt | rangeStmt
  | importSpec | valueSpec | typeSpec | badDecl | genDecl | funcDecl
  | file | package
  | list
deriving DecidableEq, Repr, Inhabited

namespace Kind

/-- The written name of a kind. -/
def name : Kind → String
  | comment => "Comment"
  | commentGroup => "CommentGroup"
  | field => "Field"
  | fieldList => "FieldList"
  | badExpr => "BadExpr"
  | ident => "Ident"
  | basicLit => "BasicLit"
  | ellipsis => "Ellipsis"
  | funcLit => "FuncLit"
  | compositeLit => "CompositeLit"
  | parenExpr => "ParenExpr"
  | selectorExpr => "SelectorExpr"
  | indexExpr => "IndexExpr"
  | indexListExpr => "IndexListExpr"
  | sliceExpr => "SliceExpr"
  | typeAssertExpr => "TypeAssertExpr"
  | callExpr => "CallExpr"
  | starExpr => "StarExpr"
  | unaryExpr => "UnaryExpr"
  | binaryExpr => "BinaryExpr"
  | keyValueExpr => "KeyValueExpr"
  | arrayType => "ArrayType"
  | structType => "StructType"
  | funcType => "FuncType"
  | interfaceType => "InterfaceType"
  | mapType => "MapType"
  | chanType => "ChanType"
  | badStmt => "BadStmt"
  | declStmt => "DeclStmt"
  | emptyStmt => "EmptyStmt"
  | labeledStmt => "LabeledStmt"
  | exprStmt => "ExprStmt"
  | sendStmt => "SendStmt"
  | incDecStmt => "IncDecStmt"
  | assignStmt => "AssignStmt"
  | goStmt => "GoStmt"
  | deferStmt => "DeferStmt"
  | returnStmt => "ReturnStmt"
  | branchStmt => "BranchStmt"
  | blockStmt => "BlockStmt"
  | ifStmt => "IfStmt"
  | caseClause => "CaseClause"
  | switchStmt => "SwitchStmt"
  | typeSwitchStmt => "TypeSwitchStmt"
  | commClause => "CommClause"
  | selectStmt => "SelectStmt"
  | forStmt => "ForStmt"
  | rangeStmt => "RangeStmt"
  | importSpec => "ImportSpec"
  | valueSpec => "ValueSpec"
  | typeSpec => "TypeSpec"
  | badDecl => "BadDecl"
  | genDecl => "GenDecl"
  | funcDecl => "FuncDecl"
  | file => "File"
  | package => "Package"
  | list => "List"

/-- Every kind, in order: comments and fields, expressions, types, statements, declarations,
files. -/
def all : List Kind :=
  [comment, commentGroup, field, fieldList,
    badExpr, ident, basicLit, ellipsis, funcLit, compositeLit, parenExpr, selectorExpr,
    indexExpr, indexListExpr, sliceExpr, typeAssertExpr, callExpr, starExpr, unaryExpr,
    binaryExpr, keyValueExpr,
    arrayType, structType, funcType, interfaceType, mapType, chanType,
    badStmt, declStmt, emptyStmt, labeledStmt, exprStmt, sendStmt, incDecStmt, assignStmt,
    goStmt, deferStmt, returnStmt, branchStmt, blockStmt, ifStmt, caseClause, switchStmt,
    typeSwitchStmt, commClause, selectStmt, forStmt, rangeStmt,
    importSpec, valueSpec, typeSpec, badDecl, genDecl, funcDecl,
    file, package, list]

/-- The kind with a written name, if there is one. -/
def ofName? (s : String) : Option Kind := all.find? fun k => k.name == s

/-- The place of a kind in `all`. -/
def rank (k : Kind) : Nat := all.idxOf k

/-- Kinds are ordered by their place in `all`. -/
def le (a b : Kind) : Bool := a.rank ≤ b.rank

/-- Comments and comment groups, which a tree may leave out. -/
def isComment : Kind → Bool
  | comment | commentGroup => true
  | _ => false

theorem ofName?_name (k : Kind) : ofName? k.name = some k := by cases k <;> decide

end Kind

/-- What the elements of a synthetic list are to its owner. -/
inductive ListRole where
  | names | elts | indices | args | lhs | rhs | results | cases | body | values | specs | decls
  | comments
deriving DecidableEq, Repr, Inhabited

namespace ListRole

/-- The written name of a role. -/
def name : ListRole → String
  | names => "Names"
  | elts => "Elts"
  | indices => "Indices"
  | args => "Args"
  | lhs => "Lhs"
  | rhs => "Rhs"
  | results => "Results"
  | cases => "Cases"
  | body => "Body"
  | values => "Values"
  | specs => "Specs"
  | decls => "Decls"
  | comments => "Comments"

/-- Every role. -/
def all : List ListRole :=
  [names, elts, indices, args, lhs, rhs, results, cases, body, values, specs, decls, comments]

/-- The role with a written name, if there is one. -/
def ofName? (s : String) : Option ListRole := all.find? fun r => r.name == s

end ListRole

end UniformTree
