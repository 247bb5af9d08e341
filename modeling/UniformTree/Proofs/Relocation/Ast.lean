import Mathlib.Data.List.Basic
import UniformTree.Proofs.Walk.Visited
/-!
# Relocation

A relocation says where positions go and what becomes of the texts of names, literals and comments.
Applied to a source tree it changes these and nothing else: the relocated tree has the same forms in
the same places. So a walk of it visits the relocated nodes, one for one (`Node.visited_relocate`),
and a tree that a relocation leaves as it is consists of nodes that it leaves as they are
(`Node.relocate_eq_of_mem_visited`).
-/

namespace UniformTree

/-- Where positions go, and what becomes of the texts of names, literals and comments. -/
structure Relocation where
  pos : UInt32 → UInt32
  /-- The new text of a leaf, from its old span and text. -/
  text : Span → String → String

variable (ρ : Relocation)

/-! ## Leaves and comments -/

def Span.relocate (s : Span) : Span := ⟨ρ.pos s.start, ρ.pos s.stop⟩

def Ident.relocate (id : Ident) : Ident := ⟨id.span.relocate ρ, ρ.text id.span id.name⟩

def BasicLit.relocate (lit : BasicLit) : BasicLit :=
  ⟨lit.span.relocate ρ, lit.kind, ρ.text lit.span lit.value⟩

def Comment.relocate (c : Comment) : Comment := ⟨c.span.relocate ρ, ρ.text c.span c.text⟩

def CommentGroup.relocate (g : CommentGroup) : CommentGroup :=
  ⟨g.span.relocate ρ, g.list.map (Comment.relocate ρ)⟩

/-! ## Expressions, statements and declarations -/

mutual

def Expr.relocate : Expr → Expr
  | .bad s => .bad (s.relocate ρ)
  | .ident id => .ident (id.relocate ρ)
  | .basicLit lit => .basicLit (lit.relocate ρ)
  | .ellipsis s elt => .ellipsis (s.relocate ρ) (relocateExpr? elt)
  | .funcLit s t body => .funcLit (s.relocate ρ) t.relocate body.relocate
  | .compositeLit s t elts => .compositeLit (s.relocate ρ) (relocateExpr? t) (relocateExprs elts)
  | .paren s x => .paren (s.relocate ρ) x.relocate
  | .selector s x sel => .selector (s.relocate ρ) x.relocate (sel.relocate ρ)
  | .index s x i => .index (s.relocate ρ) x.relocate i.relocate
  | .indexList s x indices => .indexList (s.relocate ρ) x.relocate (relocateExprs indices)
  | .slice s x low high max =>
    .slice (s.relocate ρ) x.relocate (relocateExpr? low) (relocateExpr? high) (relocateExpr? max)
  | .typeAssert s x t => .typeAssert (s.relocate ρ) x.relocate (relocateExpr? t)
  | .call s fn args spread => .call (s.relocate ρ) fn.relocate (relocateExprs args) spread
  | .star s x => .star (s.relocate ρ) x.relocate
  | .unary s op x => .unary (s.relocate ρ) op x.relocate
  | .binary s x op y => .binary (s.relocate ρ) x.relocate op y.relocate
  | .keyValue s k v => .keyValue (s.relocate ρ) k.relocate v.relocate
  | .arrayType s len elt => .arrayType (s.relocate ρ) (relocateExpr? len) elt.relocate
  | .structType s fields => .structType (s.relocate ρ) fields.relocate
  | .funcType t => .funcType t.relocate
  | .interfaceType s methods => .interfaceType (s.relocate ρ) methods.relocate
  | .mapType s k v => .mapType (s.relocate ρ) k.relocate v.relocate
  | .chanType s dir v => .chanType (s.relocate ρ) dir v.relocate

def relocateExpr? : Option Expr → Option Expr
  | none => none
  | some e => some e.relocate

def relocateExprs : List Expr → List Expr
  | [] => []
  | e :: es => e.relocate :: relocateExprs es

def FuncType.relocate : FuncType → FuncType
  | ⟨s, typeParams, params, results⟩ =>
    ⟨s.relocate ρ, relocateFieldList? typeParams, params.relocate, relocateFieldList? results⟩

def Field.relocate : Field → Field
  | ⟨s, doc, names, t, tag, line⟩ =>
    ⟨s.relocate ρ, doc.map (CommentGroup.relocate ρ), names.map (Ident.relocate ρ), t.relocate,
      tag.map (BasicLit.relocate ρ), line.map (CommentGroup.relocate ρ)⟩

def FieldList.relocate : FieldList → FieldList
  | ⟨s, list⟩ => ⟨s.relocate ρ, relocateFields list⟩

def relocateFieldList? : Option FieldList → Option FieldList
  | none => none
  | some l => some l.relocate

def relocateFields : List Field → List Field
  | [] => []
  | f :: fs => f.relocate :: relocateFields fs

def Stmt.relocate : Stmt → Stmt
  | .bad s => .bad (s.relocate ρ)
  | .decl s d => .decl (s.relocate ρ) d.relocate
  | .empty s implicit => .empty (s.relocate ρ) implicit
  | .labeled s label stmt => .labeled (s.relocate ρ) (label.relocate ρ) stmt.relocate
  | .expr s x => .expr (s.relocate ρ) x.relocate
  | .send s chan v => .send (s.relocate ρ) chan.relocate v.relocate
  | .incDec s x tok => .incDec (s.relocate ρ) x.relocate tok
  | .assign s lhs tok rhs => .assign (s.relocate ρ) (relocateExprs lhs) tok (relocateExprs rhs)
  | .go s call => .go (s.relocate ρ) call.relocate
  | .defer s call => .defer (s.relocate ρ) call.relocate
  | .returning s results => .returning (s.relocate ρ) (relocateExprs results)
  | .branch s tok label => .branch (s.relocate ρ) tok (label.map (Ident.relocate ρ))
  | .block b => .block b.relocate
  | .ifElse s init cond body otherwise =>
    .ifElse (s.relocate ρ) (relocateStmt? init) cond.relocate body.relocate
      (relocateStmt? otherwise)
  | .caseClause s list body =>
    .caseClause (s.relocate ρ) (relocateExprs list) (relocateStmts body)
  | .switch s init tag body =>
    .switch (s.relocate ρ) (relocateStmt? init) (relocateExpr? tag) body.relocate
  | .typeSwitch s init assign body =>
    .typeSwitch (s.relocate ρ) (relocateStmt? init) assign.relocate body.relocate
  | .commClause s comm body =>
    .commClause (s.relocate ρ) (relocateStmt? comm) (relocateStmts body)
  | .select s body => .select (s.relocate ρ) body.relocate
  | .forLoop s init cond post body =>
    .forLoop (s.relocate ρ) (relocateStmt? init) (relocateExpr? cond) (relocateStmt? post)
      body.relocate
  | .range s k v tok x body =>
    .range (s.relocate ρ) (relocateExpr? k) (relocateExpr? v) tok x.relocate body.relocate

def relocateStmt? : Option Stmt → Option Stmt
  | none => none
  | some s => some s.relocate

def relocateStmts : List Stmt → List Stmt
  | [] => []
  | s :: ss => s.relocate :: relocateStmts ss

def BlockStmt.relocate : BlockStmt → BlockStmt
  | ⟨s, list⟩ => ⟨s.relocate ρ, relocateStmts list⟩

def relocateBlock? : Option BlockStmt → Option BlockStmt
  | none => none
  | some b => some b.relocate

def Spec.relocate : Spec → Spec
  | .importing s doc name path line =>
    .importing (s.relocate ρ) (doc.map (CommentGroup.relocate ρ)) (name.map (Ident.relocate ρ))
      (path.relocate ρ) (line.map (CommentGroup.relocate ρ))
  | .value s doc names t values line =>
    .value (s.relocate ρ) (doc.map (CommentGroup.relocate ρ)) (names.map (Ident.relocate ρ))
      (relocateExpr? t) (relocateExprs values) (line.map (CommentGroup.relocate ρ))
  | .type s doc name typeParams isAlias t line =>
    .type (s.relocate ρ) (doc.map (CommentGroup.relocate ρ)) (name.relocate ρ)
      (relocateFieldList? typeParams) isAlias t.relocate (line.map (CommentGroup.relocate ρ))

def relocateSpecs : List Spec → List Spec
  | [] => []
  | s :: ss => s.relocate :: relocateSpecs ss

def Decl.relocate : Decl → Decl
  | .bad s => .bad (s.relocate ρ)
  | .gen s doc tok specs =>
    .gen (s.relocate ρ) (doc.map (CommentGroup.relocate ρ)) tok (relocateSpecs specs)
  | .func s doc recv name t body =>
    .func (s.relocate ρ) (doc.map (CommentGroup.relocate ρ)) (relocateFieldList? recv)
      (name.relocate ρ) t.relocate (relocateBlock? body)

end

/-! ## Files, packages and nodes -/

def File.relocate (f : File) : File :=
  ⟨f.span.relocate ρ, f.doc.map (CommentGroup.relocate ρ), f.name.relocate ρ,
    f.decls.map (Decl.relocate ρ), f.comments.map (CommentGroup.relocate ρ)⟩

def Package.relocate (p : Package) : Package :=
  ⟨p.span.relocate ρ, p.name, p.files.map (File.relocate ρ)⟩

mutual

def Node.relocate : Node → Node
  | .comment c => .comment (c.relocate ρ)
  | .commentGroup g => .commentGroup (g.relocate ρ)
  | .field f => .field (f.relocate ρ)
  | .fieldList l => .fieldList (l.relocate ρ)
  | .expr e => .expr (e.relocate ρ)
  | .stmt s => .stmt (s.relocate ρ)
  | .spec s => .spec (s.relocate ρ)
  | .decl d => .decl (d.relocate ρ)
  | .file f => .file (f.relocate ρ)
  | .package p => .package (p.relocate ρ)
  | .list role s items => .list role (s.relocate ρ) (Node.relocateAll items)

def Node.relocateAll : List Node → List Node
  | [] => []
  | n :: ns => n.relocate :: Node.relocateAll ns

end

variable {ρ}

/-! ## Sequences as maps -/

@[simp] theorem relocateExpr?_eq (e : Option Expr) :
    relocateExpr? ρ e = e.map (Expr.relocate ρ) := by
  cases e <;> rfl

@[simp] theorem relocateFieldList?_eq (l : Option FieldList) :
    relocateFieldList? ρ l = l.map (FieldList.relocate ρ) := by
  cases l <;> rfl

@[simp] theorem relocateStmt?_eq (s : Option Stmt) :
    relocateStmt? ρ s = s.map (Stmt.relocate ρ) := by
  cases s <;> rfl

@[simp] theorem relocateBlock?_eq (b : Option BlockStmt) :
    relocateBlock? ρ b = b.map (BlockStmt.relocate ρ) := by
  cases b <;> rfl

@[simp] theorem relocateExprs_eq (es : List Expr) :
    relocateExprs ρ es = es.map (Expr.relocate ρ) := by
  induction es with
  | nil => rfl
  | cons e es ih => rw [relocateExprs, ih, List.map_cons]

@[simp] theorem relocateFields_eq (fs : List Field) :
    relocateFields ρ fs = fs.map (Field.relocate ρ) := by
  induction fs with
  | nil => rfl
  | cons f fs ih => rw [relocateFields, ih, List.map_cons]

@[simp] theorem relocateStmts_eq (ss : List Stmt) :
    relocateStmts ρ ss = ss.map (Stmt.relocate ρ) := by
  induction ss with
  | nil => rfl
  | cons s ss ih => rw [relocateStmts, ih, List.map_cons]

@[simp] theorem relocateSpecs_eq (ss : List Spec) :
    relocateSpecs ρ ss = ss.map (Spec.relocate ρ) := by
  induction ss with
  | nil => rfl
  | cons s ss ih => rw [relocateSpecs, ih, List.map_cons]

@[simp] theorem Node.relocateAll_eq (ns : List Node) :
    Node.relocateAll ρ ns = ns.map (Node.relocate ρ) := by
  induction ns with
  | nil => rfl
  | cons n ns ih => rw [Node.relocateAll, ih, List.map_cons]

/-! ## Spans -/

theorem Span.relocate_cover (a b : Span) :
    (cover a b).relocate ρ = cover (a.relocate ρ) (b.relocate ρ) := rfl

/-- The span of a sequence goes where its first and its last span go. -/
theorem Span.relocate_coverAll {spans : List Span} (h : spans ≠ []) :
    (coverAll spans).relocate ρ = coverAll (spans.map (relocate ρ)) := by
  have hfirst : spans.head? = some (spans.head h) := List.head?_eq_some_head h
  have hlast : spans.getLast? = some (spans.getLast h) := List.getLast?_eq_some_getLast h
  rw [coverAll, coverAll, List.head?_map, List.getLast?_map, hfirst, hlast]
  rfl

@[simp] theorem FuncType.span_relocate (t : FuncType) :
    (t.relocate ρ).span = t.span.relocate ρ := by
  cases t; rfl

@[simp] theorem FieldList.span_relocate (l : FieldList) :
    (l.relocate ρ).span = l.span.relocate ρ := by
  cases l; rfl

@[simp] theorem BlockStmt.span_relocate (b : BlockStmt) :
    (b.relocate ρ).span = b.span.relocate ρ := by
  cases b; rfl

@[simp] theorem Expr.span_relocate (e : Expr) : (e.relocate ρ).span = e.span.relocate ρ := by
  cases e with
  | funcType t => exact t.span_relocate
  | _ => rfl

@[simp] theorem Stmt.span_relocate (s : Stmt) : (s.relocate ρ).span = s.span.relocate ρ := by
  cases s with
  | block b => exact b.span_relocate
  | _ => rfl

namespace Node

theorem span_relocate (n : Node) : (n.relocate ρ).span = n.span.relocate ρ := by
  cases n with
  | field f => cases f; rfl
  | fieldList l => exact l.span_relocate
  | expr e => exact e.span_relocate
  | stmt s => exact s.span_relocate
  | spec s => cases s <;> rfl
  | decl d => cases d <;> rfl
  | _ => rfl

/-! ## The children of a relocated node -/

section Slots

variable {α : Type} {f : α → Node} {g : α → α}

theorem map_relocate_slot (h : ∀ a, (f a).relocate ρ = f (g a)) (x : Option α) :
    (slot f x).map (relocate ρ) = slot f (x.map g) := by
  cases x with
  | none => rfl
  | some a => simp [slot, h]

/-- The list over a sequence goes where the sequence goes, and its span with it. -/
theorem map_relocate_listOf (h : ∀ a, (f a).relocate ρ = f (g a)) (role : ListRole)
    (xs : List α) : (listOf role f xs).map (relocate ρ) = listOf role f (xs.map g) := by
  cases xs with
  | nil => rfl
  | cons a as =>
    have hspan (b : α) : (f b).span.relocate ρ = (f (g b)).span := by rw [← h, span_relocate]
    simp [listOf, relocate, Span.relocate_coverAll, h, hspan, Function.comp_def]

end Slots

@[simp] theorem relocate_expr (e : Expr) : (expr e).relocate ρ = expr (e.relocate ρ) := rfl

@[simp] theorem relocate_stmt (s : Stmt) : (stmt s).relocate ρ = stmt (s.relocate ρ) := rfl

@[simp] theorem relocate_spec (s : Spec) : (spec s).relocate ρ = spec (s.relocate ρ) := rfl

@[simp] theorem relocate_decl (d : Decl) : (decl d).relocate ρ = decl (d.relocate ρ) := rfl

@[simp] theorem relocate_file (f : File) : (file f).relocate ρ = file (f.relocate ρ) := rfl

@[simp] theorem relocate_comment (c : Comment) :
    (comment c).relocate ρ = comment (c.relocate ρ) := rfl

@[simp] theorem relocate_fieldList (l : FieldList) :
    (fieldList l).relocate ρ = fieldList (l.relocate ρ) := rfl

@[simp] theorem relocate_field (f : Field) : (field f).relocate ρ = field (f.relocate ρ) := rfl

theorem relocate_ident (id : Ident) : (ident id).relocate ρ = ident (id.relocate ρ) := rfl

theorem relocate_basicLit (lit : BasicLit) :
    (basicLit lit).relocate ρ = basicLit (lit.relocate ρ) := rfl

theorem relocate_block (b : BlockStmt) : (block b).relocate ρ = block (b.relocate ρ) := rfl

theorem relocate_commentGroup (g : CommentGroup) :
    (commentGroup g).relocate ρ = commentGroup (g.relocate ρ) := rfl

theorem ofExpr_relocate (e : Expr) : ofExpr (e.relocate ρ) = (ofExpr e).map (relocate ρ) := by
  cases e with
  | funcType t =>
    cases t
    simp [Expr.relocate, FuncType.relocate, ofExpr, map_relocate_slot relocate_fieldList]
  | _ =>
    simp [Expr.relocate, Stmt.relocate, ofExpr, map_relocate_slot relocate_expr,
      map_relocate_listOf relocate_expr]

theorem ofStmt_relocate (s : Stmt) : ofStmt (s.relocate ρ) = (ofStmt s).map (relocate ρ) := by
  cases s with
  | block b =>
    cases b
    simp [Stmt.relocate, BlockStmt.relocate, ofStmt]
  | _ =>
    simp [Stmt.relocate, Expr.relocate, ofStmt, map_relocate_slot relocate_expr,
      map_relocate_slot relocate_stmt, map_relocate_slot relocate_ident,
      map_relocate_listOf relocate_expr, map_relocate_listOf relocate_stmt]

theorem ofSpec_relocate (s : Spec) : ofSpec (s.relocate ρ) = (ofSpec s).map (relocate ρ) := by
  cases s <;>
    simp [Spec.relocate, Expr.relocate, ofSpec, map_relocate_slot relocate_commentGroup,
      map_relocate_slot relocate_ident, map_relocate_slot relocate_expr,
      map_relocate_slot relocate_fieldList, map_relocate_listOf relocate_ident,
      map_relocate_listOf relocate_expr]

theorem ofDecl_relocate (d : Decl) : ofDecl (d.relocate ρ) = (ofDecl d).map (relocate ρ) := by
  cases d <;>
    simp [Decl.relocate, Expr.relocate, ofDecl, map_relocate_slot relocate_commentGroup,
      map_relocate_slot relocate_block, map_relocate_slot relocate_fieldList,
      map_relocate_listOf relocate_spec]

/-- The children of a relocated node are its relocated children. -/
theorem children_relocate (n : Node) :
    (n.relocate ρ).children = n.children.map (relocate ρ) := by
  cases n with
  | comment c => rfl
  | commentGroup g => simp [relocate, CommentGroup.relocate, children]
  | field f =>
    cases f
    simp [Field.relocate, children, map_relocate_slot relocate_commentGroup,
      map_relocate_slot relocate_basicLit, map_relocate_listOf relocate_ident]
  | fieldList l =>
    cases l
    simp [FieldList.relocate, children]
  | expr e => exact ofExpr_relocate e
  | stmt s => exact ofStmt_relocate s
  | spec s => exact ofSpec_relocate s
  | decl d => exact ofDecl_relocate d
  | file f =>
    simp [File.relocate, Expr.relocate, children, map_relocate_slot relocate_commentGroup,
      map_relocate_listOf relocate_decl, map_relocate_listOf relocate_commentGroup]
  | package p => simp [relocate, Package.relocate, children]
  | list role s items => exact relocateAll_eq items

/-! ## Walks -/

/-- A walk of a relocated node visits the relocated nodes. -/
theorem visited_relocate (n : Node) :
    (n.relocate ρ).visited = n.visited.map (relocate ρ) := by
  induction n using Node.induction with
  | step n ih =>
    rw [visited_eq, visited_eq n, children_relocate, List.flatMap_map, List.map_cons,
      List.map_flatMap]
    congr 1
    exact List.flatMap_congr ih

/-- A relocation that leaves a node as it is leaves every node below it as it is. -/
theorem relocate_eq_of_mem_visited {n m : Node} (h : n.relocate ρ = n) (hm : m ∈ n.visited) :
    m.relocate ρ = m := by
  have hmap : n.visited.map (relocate ρ) = n.visited.map id := by
    rw [← visited_relocate, h, List.map_id]
  exact List.map_inj_left.1 hmap m hm

end Node

end UniformTree
