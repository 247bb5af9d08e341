import UniformTree.Tree.Builder
/-!
# Uniform trees by recursion over the grammar

`Node.tree` reads a source tree form by form and says for each what its uniform node holds: the
kind, the span, the label, and the trees of the slots in the order of the grammar. It knows nothing
of walks and visitors. `Node.tree_eq` ties it to the list of children that a walk goes through.
-/

namespace UniformTree

variable (o : BuildOptions)

/-! ## Slots -/

/-- The trees of comments, which may be left out. -/
def commentary (ts : List Tree) : List Tree := if o.comments then ts else []

/-- The trees of a sequence, gathered in one list with a role unless there are none. -/
def gather (role : ListRole) : List Tree → List Tree
  | [] => []
  | t :: ts => [⟨.list, Span.coverAll ((t :: ts).map Tree.span), some role.name, t :: ts⟩]

theorem gather_map_cons {α : Type} (role : ListRole) (f : α → Tree) (x : α) (xs : List α) :
    gather role ((x :: xs).map f) =
      [⟨.list, Span.coverAll (((x :: xs).map f).map Tree.span), some role.name,
        (x :: xs).map f⟩] := rfl

/-! ## Leaves and comments -/

def Ident.tree (id : Ident) : Tree := ⟨.ident, id.span, some id.name, []⟩

def BasicLit.tree (lit : BasicLit) : Tree := ⟨.basicLit, lit.span, some lit.value, []⟩

def Comment.tree (c : Comment) : Tree := ⟨.comment, c.span, some c.text, []⟩

def CommentGroup.tree (g : CommentGroup) : Tree :=
  ⟨.commentGroup, g.span, none, commentary o (g.list.map Comment.tree)⟩

/-- The slot of a doc or of a line comment. -/
def groupTree (g : Option CommentGroup) : List Tree :=
  commentary o (g.map (CommentGroup.tree o)).toList

/-! ## Expressions, statements and declarations -/

mutual

def Expr.tree : Expr → Tree
  | .bad s => ⟨.badExpr, s, none, []⟩
  | .ident id => id.tree
  | .basicLit lit => lit.tree
  | .ellipsis s elt => ⟨.ellipsis, s, none, exprTree? elt⟩
  | .funcLit s t body => ⟨.funcLit, s, none, [t.tree, body.tree]⟩
  | .compositeLit s t elts =>
    ⟨.compositeLit, s, none, exprTree? t ++ gather .elts (exprTrees elts)⟩
  | .paren s x => ⟨.parenExpr, s, none, [x.tree]⟩
  | .selector s x sel => ⟨.selectorExpr, s, none, [x.tree, sel.tree]⟩
  | .index s x i => ⟨.indexExpr, s, none, [x.tree, i.tree]⟩
  | .indexList s x indices =>
    ⟨.indexListExpr, s, none, x.tree :: gather .indices (exprTrees indices)⟩
  | .slice s x low high max =>
    ⟨.sliceExpr, s, none, x.tree :: (exprTree? low ++ exprTree? high ++ exprTree? max)⟩
  | .typeAssert s x t => ⟨.typeAssertExpr, s, none, x.tree :: exprTree? t⟩
  | .call s fn args _ => ⟨.callExpr, s, none, fn.tree :: gather .args (exprTrees args)⟩
  | .star s x => ⟨.starExpr, s, none, [x.tree]⟩
  | .unary s op x => ⟨.unaryExpr, s, some op, [x.tree]⟩
  | .binary s x op y => ⟨.binaryExpr, s, some op, [x.tree, y.tree]⟩
  | .keyValue s k v => ⟨.keyValueExpr, s, none, [k.tree, v.tree]⟩
  | .arrayType s len elt => ⟨.arrayType, s, none, exprTree? len ++ [elt.tree]⟩
  | .structType s fields => ⟨.structType, s, none, [fields.tree]⟩
  | .funcType t => t.tree
  | .interfaceType s methods => ⟨.interfaceType, s, none, [methods.tree]⟩
  | .mapType s k v => ⟨.mapType, s, none, [k.tree, v.tree]⟩
  | .chanType s dir v => ⟨.chanType, s, some dir.text, [v.tree]⟩

def exprTree? : Option Expr → List Tree
  | none => []
  | some e => [e.tree]

def exprTrees : List Expr → List Tree
  | [] => []
  | e :: es => e.tree :: exprTrees es

def FuncType.tree : FuncType → Tree
  | ⟨s, typeParams, params, results⟩ =>
    ⟨.funcType, s, none, fieldsTree? typeParams ++ params.tree :: fieldsTree? results⟩

def Field.tree : Field → Tree
  | ⟨s, doc, names, t, tag, line⟩ =>
    ⟨.field, s, none, groupTree o doc ++ gather .names (names.map Ident.tree) ++
      t.tree :: ((tag.map BasicLit.tree).toList ++ groupTree o line)⟩

def FieldList.tree : FieldList → Tree
  | ⟨s, list⟩ => ⟨.fieldList, s, none, fieldTrees list⟩

def fieldsTree? : Option FieldList → List Tree
  | none => []
  | some l => [l.tree]

def fieldTrees : List Field → List Tree
  | [] => []
  | f :: fs => f.tree :: fieldTrees fs

def Stmt.tree : Stmt → Tree
  | .bad s => ⟨.badStmt, s, none, []⟩
  | .decl s d => ⟨.declStmt, s, none, [d.tree]⟩
  | .empty s _ => ⟨.emptyStmt, s, none, []⟩
  | .labeled s label stmt => ⟨.labeledStmt, s, none, [label.tree, stmt.tree]⟩
  | .expr s x => ⟨.exprStmt, s, none, [x.tree]⟩
  | .send s chan v => ⟨.sendStmt, s, none, [chan.tree, v.tree]⟩
  | .incDec s x tok => ⟨.incDecStmt, s, some tok, [x.tree]⟩
  | .assign s lhs tok rhs =>
    ⟨.assignStmt, s, some tok, gather .lhs (exprTrees lhs) ++ gather .rhs (exprTrees rhs)⟩
  | .go s call => ⟨.goStmt, s, none, [call.tree]⟩
  | .defer s call => ⟨.deferStmt, s, none, [call.tree]⟩
  | .returning s results => ⟨.returnStmt, s, none, gather .results (exprTrees results)⟩
  | .branch s tok label => ⟨.branchStmt, s, some tok, (label.map Ident.tree).toList⟩
  | .block b => b.tree
  | .ifElse s init cond body otherwise =>
    ⟨.ifStmt, s, none, stmtTree? init ++ cond.tree :: body.tree :: stmtTree? otherwise⟩
  | .caseClause s list body =>
    ⟨.caseClause, s, none, gather .cases (exprTrees list) ++ gather .body (stmtTrees body)⟩
  | .switch s init tag body =>
    ⟨.switchStmt, s, none, stmtTree? init ++ exprTree? tag ++ [body.tree]⟩
  | .typeSwitch s init assign body =>
    ⟨.typeSwitchStmt, s, none, stmtTree? init ++ [assign.tree, body.tree]⟩
  | .commClause s comm body =>
    ⟨.commClause, s, none, stmtTree? comm ++ gather .body (stmtTrees body)⟩
  | .select s body => ⟨.selectStmt, s, none, [body.tree]⟩
  | .forLoop s init cond post body =>
    ⟨.forStmt, s, none, stmtTree? init ++ exprTree? cond ++ stmtTree? post ++ [body.tree]⟩
  | .range s k v tok x body =>
    ⟨.rangeStmt, s, tok, exprTree? k ++ exprTree? v ++ [x.tree, body.tree]⟩

def stmtTree? : Option Stmt → List Tree
  | none => []
  | some s => [s.tree]

def stmtTrees : List Stmt → List Tree
  | [] => []
  | s :: ss => s.tree :: stmtTrees ss

def BlockStmt.tree : BlockStmt → Tree
  | ⟨s, list⟩ => ⟨.blockStmt, s, none, stmtTrees list⟩

def blockTree? : Option BlockStmt → List Tree
  | none => []
  | some b => [b.tree]

def Spec.tree : Spec → Tree
  | .importing s doc name path line =>
    ⟨.importSpec, s, none,
      groupTree o doc ++ (name.map Ident.tree).toList ++ path.tree :: groupTree o line⟩
  | .value s doc names t values line =>
    ⟨.valueSpec, s, none, groupTree o doc ++ gather .names (names.map Ident.tree) ++
      exprTree? t ++ gather .values (exprTrees values) ++ groupTree o line⟩
  | .type s doc name typeParams isAlias t line =>
    ⟨.typeSpec, s, if isAlias then some "=" else none,
      groupTree o doc ++ name.tree :: (fieldsTree? typeParams ++ t.tree :: groupTree o line)⟩

def specTrees : List Spec → List Tree
  | [] => []
  | s :: ss => s.tree :: specTrees ss

def Decl.tree : Decl → Tree
  | .bad s => ⟨.badDecl, s, none, []⟩
  | .gen s doc tok specs =>
    ⟨.genDecl, s, some tok.text, groupTree o doc ++ gather .specs (specTrees specs)⟩
  | .func s doc recv name t body =>
    ⟨.funcDecl, s, none, groupTree o doc ++ fieldsTree? recv ++
      name.tree :: t.tree :: blockTree? body⟩

end

/-! ## Files, packages and synthetic lists -/

def File.tree : File → Tree
  | ⟨s, doc, name, decls, comments⟩ =>
    ⟨.file, s, none, groupTree o doc ++ name.tree :: (gather .decls (decls.map (Decl.tree o)) ++
      commentary o (gather .comments (comments.map (CommentGroup.tree o))))⟩

def Package.tree (p : Package) : Tree :=
  ⟨.package, p.span, some p.name, p.files.map (File.tree o)⟩

mutual

/-- The uniform tree of a node, by recursion over the grammar. -/
def Node.tree : Node → Tree
  | .comment c => c.tree
  | .commentGroup g => g.tree o
  | .field f => f.tree o
  | .fieldList l => l.tree o
  | .expr e => e.tree o
  | .stmt s => s.tree o
  | .spec s => s.tree o
  | .decl d => d.tree o
  | .file f => f.tree o
  | .package p => p.tree o
  | .list role s items => ⟨.list, s, some role.name, Node.itemTrees items⟩

/-- The trees of the items of a list, without the comments that are left out. -/
def Node.itemTrees : List Node → List Tree
  | [] => []
  | n :: ns => if n.isKept o then n.tree :: Node.itemTrees ns else Node.itemTrees ns

end

namespace Node

/-! ## Sequences as maps -/

theorem exprTree?_eq (e : Option Expr) : exprTree? o e = (e.map (Expr.tree o)).toList := by
  cases e <;> rfl

theorem fieldsTree?_eq (l : Option FieldList) :
    fieldsTree? o l = (l.map (FieldList.tree o)).toList := by
  cases l <;> rfl

theorem stmtTree?_eq (s : Option Stmt) : stmtTree? o s = (s.map (Stmt.tree o)).toList := by
  cases s <;> rfl

theorem blockTree?_eq (b : Option BlockStmt) :
    blockTree? o b = (b.map (BlockStmt.tree o)).toList := by
  cases b <;> rfl

theorem exprTrees_eq (es : List Expr) : exprTrees o es = es.map (Expr.tree o) := by
  induction es with
  | nil => rfl
  | cons e es ih => rw [exprTrees, ih, List.map_cons]

theorem fieldTrees_eq (fs : List Field) : fieldTrees o fs = fs.map (Field.tree o) := by
  induction fs with
  | nil => rfl
  | cons f fs ih => rw [fieldTrees, ih, List.map_cons]

theorem stmtTrees_eq (ss : List Stmt) : stmtTrees o ss = ss.map (Stmt.tree o) := by
  induction ss with
  | nil => rfl
  | cons s ss ih => rw [stmtTrees, ih, List.map_cons]

theorem specTrees_eq (ss : List Spec) : specTrees o ss = ss.map (Spec.tree o) := by
  induction ss with
  | nil => rfl
  | cons s ss ih => rw [specTrees, ih, List.map_cons]

theorem itemTrees_eq (ns : List Node) :
    itemTrees o ns = (ns.filter (isKept o)).map (tree o) := by
  induction ns with
  | nil => rfl
  | cons n ns ih =>
    rw [itemTrees, ih, List.filter_cons]
    split <;> rfl

/-! ## What is kept -/

variable {o}

@[simp] theorem isKept_field (f : Field) : (field f).isKept o = true := Bool.or_true _

@[simp] theorem isKept_fieldList (l : FieldList) : (fieldList l).isKept o = true := Bool.or_true _

@[simp] theorem isKept_file (f : File) : (file f).isKept o = true := Bool.or_true _

@[simp] theorem isKept_expr (e : Expr) : (expr e).isKept o = true := by
  cases e <;> exact Bool.or_true _

@[simp] theorem isKept_stmt (s : Stmt) : (stmt s).isKept o = true := by
  cases s <;> exact Bool.or_true _

@[simp] theorem isKept_spec (s : Spec) : (spec s).isKept o = true := by
  cases s <;> exact Bool.or_true _

@[simp] theorem isKept_decl (d : Decl) : (decl d).isKept o = true := by
  cases d <;> exact Bool.or_true _

@[simp] theorem isKept_comment (c : Comment) : (comment c).isKept o = o.comments := Bool.or_false _

@[simp] theorem isKept_commentGroup (g : CommentGroup) : (commentGroup g).isKept o = o.comments :=
  Bool.or_false _

theorem isKept_list {role : ListRole} (h : role ≠ .comments) (s : Span) (items : List Node) :
    (list role s items).isKept o = true := by
  have : (role == ListRole.comments) = false := beq_false_of_ne h
  simp [isKept, isCommentary, this]

@[simp] theorem isKept_comments (s : Span) (items : List Node) :
    (list .comments s items).isKept o = o.comments := Bool.or_false _

/-! ## The tree of a node and the trees of its children -/

variable (o)

theorem tree_span (n : Node) : (n.tree o).span = n.span := by
  cases n with
  | field f => cases f; rfl
  | fieldList l => cases l; rfl
  | expr e =>
    cases e with
    | funcType t => cases t; rfl
    | _ => rfl
  | stmt s =>
    cases s with
    | block b => cases b; rfl
    | _ => rfl
  | spec s => cases s <;> rfl
  | decl d => cases d <;> rfl
  | _ => rfl

theorem itemTrees_append (ms ns : List Node) :
    itemTrees o (ms ++ ns) = itemTrees o ms ++ itemTrees o ns := by
  simp only [itemTrees_eq, List.filter_append, List.map_append]

theorem itemTrees_cons {n : Node} (h : n.isKept o = true) (ns : List Node) :
    itemTrees o (n :: ns) = n.tree o :: itemTrees o ns := by
  rw [itemTrees, if_pos h]

theorem itemTrees_map {α : Type} {f : α → Node} (h : ∀ x, (f x).isKept o = true) (xs : List α) :
    itemTrees o (xs.map f) = xs.map fun x => (f x).tree o := by
  induction xs with
  | nil => rfl
  | cons x xs ih => rw [List.map_cons, itemTrees_cons o (h x), ih, List.map_cons]

theorem itemTrees_slot {α : Type} {f : α → Node} (h : ∀ x, (f x).isKept o = true)
    (x : Option α) : itemTrees o (slot f x) = (x.map fun x => (f x).tree o).toList := by
  cases x with
  | none => rfl
  | some x => exact itemTrees_cons o (h x) []

/-- A list over a sequence has the trees of its elements below it. -/
theorem tree_listOf {α : Type} {f : α → Node} (h : ∀ x, (f x).isKept o = true)
    (role : ListRole) (x : α) (xs : List α) :
    (listOf role f (x :: xs)).map (tree o) = gather role ((x :: xs).map fun x => (f x).tree o) := by
  have hs : ((x :: xs).map fun x => (f x).tree o).map Tree.span =
      (x :: xs).map fun x => (f x).span := by
    simp only [List.map_map, Function.comp_def, tree_span]
  rw [gather_map_cons, hs, ← itemTrees_map o h]
  rfl

theorem itemTrees_listOf {α : Type} {f : α → Node} (h : ∀ x, (f x).isKept o = true)
    {role : ListRole} (hr : role ≠ .comments) (xs : List α) :
    itemTrees o (listOf role f xs) = gather role (xs.map fun x => (f x).tree o) := by
  cases xs with
  | nil => rfl
  | cons x xs =>
    rw [← tree_listOf o h]
    exact itemTrees_cons o (isKept_list hr _ _) []

theorem itemTrees_comments (cs : List Comment) :
    itemTrees o (cs.map comment) = commentary o (cs.map Comment.tree) := by
  by_cases hc : o.comments = true
  · rw [commentary, if_pos hc]
    exact itemTrees_map o (fun c => by simp [hc]) cs
  · simp [itemTrees_eq, commentary, hc]

/-- The slot of a doc or of a line comment is empty when comments are left out. -/
theorem itemTrees_group (g : Option CommentGroup) :
    itemTrees o (slot commentGroup g) = groupTree o g := by
  cases g with
  | none => simp [slot, itemTrees, groupTree, commentary]
  | some g => simp [slot, itemTrees, groupTree, commentary, tree]

/-- The comments of a file are left out together with their list. -/
theorem itemTrees_commentList (gs : List CommentGroup) :
    itemTrees o (listOf .comments commentGroup gs) =
      commentary o (gather .comments (gs.map (CommentGroup.tree o))) := by
  cases gs with
  | nil => simp [listOf, itemTrees, commentary, gather]
  | cons g gs =>
    by_cases hc : o.comments = true
    · have h (g : CommentGroup) : (commentGroup g).isKept o = true := by simp [hc]
      rw [commentary, if_pos hc]
      exact (itemTrees_cons o (by simp [hc]) []).trans (tree_listOf o h .comments g gs)
    · simp [listOf, itemTrees, commentary, hc]

theorem tree_expr (e : Expr) :
    (expr e).tree o = ⟨e.kind, e.span, e.label, itemTrees o (ofExpr e)⟩ := by
  have hx := isKept_expr (o := o)
  cases e with
  | funcType t =>
    cases t
    simp [tree, Expr.tree, FuncType.tree, ofExpr, Expr.kind, Expr.span, Expr.label,
      itemTrees_append, itemTrees_slot, fieldsTree?_eq, itemTrees]
  | _ =>
    simp [tree, Expr.tree, Stmt.tree, Ident.tree, BasicLit.tree, ofExpr, Expr.kind, Expr.span,
      Expr.label, itemTrees_append, itemTrees_slot, itemTrees_listOf o hx, exprTree?_eq,
      exprTrees_eq, itemTrees]

theorem tree_stmt (s : Stmt) :
    (stmt s).tree o = ⟨s.kind, s.span, s.label, itemTrees o (ofStmt s)⟩ := by
  have hx := isKept_expr (o := o)
  have hs := isKept_stmt (o := o)
  cases s with
  | block b =>
    cases b
    simp [tree, Stmt.tree, BlockStmt.tree, ofStmt, Stmt.kind, Stmt.span, Stmt.label,
      itemTrees_map o hs, stmtTrees_eq]
  | _ =>
    simp [tree, Expr.tree, Stmt.tree, ofStmt, Stmt.kind, Stmt.span, Stmt.label, itemTrees_append,
      itemTrees_slot, itemTrees_listOf o hx, itemTrees_listOf o hs, exprTree?_eq, exprTrees_eq,
      stmtTree?_eq, stmtTrees_eq, itemTrees]

theorem tree_spec (s : Spec) :
    (spec s).tree o = ⟨s.kind, s.span, s.label, itemTrees o (ofSpec s)⟩ := by
  have hx := isKept_expr (o := o)
  have hi (id : Ident) : (ident id).isKept o = true := hx (.ident id)
  cases s with
  | type s doc name typeParams isAlias t line =>
    cases isAlias <;>
      simp [tree, Spec.tree, Expr.tree, ofSpec, Spec.kind, Spec.span, Spec.label,
        itemTrees_append, itemTrees_slot, itemTrees_group, fieldsTree?_eq, itemTrees]
  | _ =>
    simp [tree, Spec.tree, Expr.tree, ofSpec, Spec.kind, Spec.span, Spec.label, itemTrees_append,
      itemTrees_slot, itemTrees_group, itemTrees_listOf o hx, itemTrees_listOf o hi,
      exprTree?_eq, exprTrees_eq, itemTrees]

theorem tree_decl (d : Decl) :
    (decl d).tree o = ⟨d.kind, d.span, d.label, itemTrees o (ofDecl d)⟩ := by
  cases d <;>
    simp [tree, Decl.tree, Expr.tree, Stmt.tree, ofDecl, Decl.kind, Decl.span, Decl.label,
      itemTrees_append, itemTrees_slot, itemTrees_group,
      itemTrees_listOf o (isKept_spec (o := o)), fieldsTree?_eq, blockTree?_eq, specTrees_eq,
      itemTrees]

/-- A node's tree has the node's kind, span and label and the trees of its children. -/
theorem tree_eq (n : Node) : n.tree o = ⟨n.kind, n.span, n.label, itemTrees o n.children⟩ := by
  cases n with
  | comment c => rfl
  | commentGroup g =>
    simp [tree, CommentGroup.tree, kind, span, label, children, itemTrees_comments]
  | field f =>
    have hi (id : Ident) : (ident id).isKept o = true := isKept_expr _
    rcases f with ⟨s, doc, names, t, tag, line⟩
    simp [tree, Field.tree, Expr.tree, kind, span, label, children, itemTrees_append,
      itemTrees_slot, itemTrees_group, itemTrees_listOf o hi, itemTrees]
  | fieldList l =>
    cases l
    simp [tree, FieldList.tree, kind, span, label, children, itemTrees_map, fieldTrees_eq]
  | expr e => exact tree_expr o e
  | stmt s => exact tree_stmt o s
  | spec s => exact tree_spec o s
  | decl d => exact tree_decl o d
  | file f =>
    simp [tree, File.tree, Expr.tree, kind, span, label, children, itemTrees_append,
      itemTrees_group, itemTrees_listOf o (isKept_decl (o := o)), itemTrees_commentList, itemTrees]
  | package p => simp [tree, Package.tree, kind, span, label, children, itemTrees_map]
  | list role s items => rfl

end Node

end UniformTree
