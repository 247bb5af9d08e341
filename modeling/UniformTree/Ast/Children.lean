import UniformTree.Ast.Node
/-!
# Children

The children of a node are those that are present, in the order of the grammar. A sequence that has
other slots beside it is gathered in one synthetic list with a role, or left out when it is empty;
the containers whose sequence is all they have hold their elements directly. Every child is smaller
than its node, so whatever goes from nodes to their children comes to an end.
-/

namespace UniformTree

namespace Node

/-! ## Slots -/

/-- A slot that may be empty. -/
def slot {α : Type} (f : α → Node) (x : Option α) : List Node := (x.map f).toList

/-- A sequence slot: one list over all of its elements, or nothing if there are none. -/
def listOf {α : Type} (role : ListRole) (f : α → Node) (xs : List α) : List Node :=
  match xs with
  | [] => []
  | _ => [list role (Span.coverAll (xs.map fun x => (f x).span)) (xs.map f)]

/-- The children of an expression. -/
def ofExpr : Expr → List Node
  | .bad _ | .ident _ | .basicLit _ => []
  | .ellipsis _ elt => slot expr elt
  | .funcLit _ t body => [funcType t, block body]
  | .compositeLit _ t elts => slot expr t ++ listOf .elts expr elts
  | .paren _ x => [expr x]
  | .selector _ x sel => [expr x, ident sel]
  | .index _ x i => [expr x, expr i]
  | .indexList _ x indices => expr x :: listOf .indices expr indices
  | .slice _ x low high max => expr x :: (slot expr low ++ slot expr high ++ slot expr max)
  | .typeAssert _ x t => expr x :: slot expr t
  | .call _ fn args _ => expr fn :: listOf .args expr args
  | .star _ x => [expr x]
  | .unary _ _ x => [expr x]
  | .binary _ x _ y => [expr x, expr y]
  | .keyValue _ k v => [expr k, expr v]
  | .arrayType _ len elt => slot expr len ++ [expr elt]
  | .structType _ fields => [fieldList fields]
  | .funcType t => slot fieldList t.typeParams ++ fieldList t.params :: slot fieldList t.results
  | .interfaceType _ methods => [fieldList methods]
  | .mapType _ k v => [expr k, expr v]
  | .chanType _ _ v => [expr v]

/-- The children of a statement. -/
def ofStmt : Stmt → List Node
  | .bad _ | .empty _ _ => []
  | .decl _ d => [decl d]
  | .labeled _ l s => [ident l, stmt s]
  | .expr _ x => [expr x]
  | .send _ c v => [expr c, expr v]
  | .incDec _ x _ => [expr x]
  | .assign _ lhs _ rhs => listOf .lhs expr lhs ++ listOf .rhs expr rhs
  | .go _ c => [expr c]
  | .defer _ c => [expr c]
  | .returning _ results => listOf .results expr results
  | .branch _ _ l => slot ident l
  | .block b => b.list.map stmt
  | .ifElse _ init cond body otherwise =>
    slot stmt init ++ expr cond :: block body :: slot stmt otherwise
  | .caseClause _ cases body => listOf .cases expr cases ++ listOf .body stmt body
  | .switch _ init tag body => slot stmt init ++ slot expr tag ++ [block body]
  | .typeSwitch _ init assign body => slot stmt init ++ [stmt assign, block body]
  | .commClause _ comm body => slot stmt comm ++ listOf .body stmt body
  | .select _ body => [block body]
  | .forLoop _ init cond post body =>
    slot stmt init ++ slot expr cond ++ slot stmt post ++ [block body]
  | .range _ k v _ x body => slot expr k ++ slot expr v ++ [expr x, block body]

/-- The children of a spec. -/
def ofSpec : Spec → List Node
  | .importing _ doc name path line =>
    slot commentGroup doc ++ slot ident name ++ basicLit path :: slot commentGroup line
  | .value _ doc names t values line =>
    slot commentGroup doc ++ listOf .names ident names ++ slot expr t ++
      listOf .values expr values ++ slot commentGroup line
  | .type _ doc name params _ t line =>
    slot commentGroup doc ++ ident name :: (slot fieldList params ++
      expr t :: slot commentGroup line)

/-- The children of a declaration. -/
def ofDecl : Decl → List Node
  | .bad _ => []
  | .gen _ doc _ specs => slot commentGroup doc ++ listOf .specs spec specs
  | .func _ doc recv name t body =>
    slot commentGroup doc ++ slot fieldList recv ++ ident name :: funcType t :: slot block body

/-- The children of a node, in the order of the grammar. -/
def children : Node → List Node
  | comment _ => []
  | commentGroup g => g.list.map comment
  | field f =>
    slot commentGroup f.doc ++ listOf .names ident f.names ++
      expr f.type :: (slot basicLit f.tag ++ slot commentGroup f.comment)
  | fieldList l => l.list.map field
  | expr e => ofExpr e
  | stmt s => ofStmt s
  | spec s => ofSpec s
  | decl d => ofDecl d
  | file f =>
    slot commentGroup f.doc ++ ident f.name :: (listOf .decls decl f.decls ++
      listOf .comments commentGroup f.comments)
  | package p => p.files.map file
  | list _ _ items => items

/-! ## Children are smaller -/

mutual

/-- A measure that every child of a node has less of. -/
noncomputable def weight : Node → Nat
  | comment c => 2 * sizeOf c
  | commentGroup g => 2 * sizeOf g
  | field f => 2 * sizeOf f
  | fieldList l => 2 * sizeOf l
  | expr e => 2 * sizeOf e
  | stmt s => 2 * sizeOf s
  | spec s => 2 * sizeOf s
  | decl d => 2 * sizeOf d
  | file f => 2 * sizeOf f
  | package p => 2 * sizeOf p
  | list _ _ items => 1 + weightAll items

/-- The measure of a row of nodes. -/
noncomputable def weightAll : List Node → Nat
  | [] => 0
  | n :: ns => weight n + weightAll ns

end

theorem weight_le_weightAll {n : Node} {ns : List Node} (h : n ∈ ns) :
    n.weight ≤ weightAll ns := by
  induction ns with
  | nil => cases h
  | cons m ms ih =>
    rw [weightAll]
    rcases List.mem_cons.1 h with rfl | h
    · omega
    · have := ih h
      omega

/-- The elements of a row weigh no more than the row, if each weighs at most two over its size. -/
theorem weightAll_map_le {α : Type} [SizeOf α] (f : α → Node) (xs : List α)
    (h : ∀ x, (f x).weight ≤ 2 * (1 + sizeOf x)) : weightAll (xs.map f) + 2 ≤ 2 * sizeOf xs := by
  induction xs with
  | nil => simp [weightAll]
  | cons x xs ih =>
    have := h x
    simp only [List.map_cons, weightAll, List.cons.sizeOf_spec]
    omega

theorem weight_lt_of_mem_slot {α : Type} [SizeOf α] {f : α → Node} {x : Option α} {n : Node}
    (h : ∀ x, (f x).weight ≤ 2 * (1 + sizeOf x)) (hn : n ∈ slot f x) :
    n.weight ≤ 2 * sizeOf x := by
  cases x with
  | none => simp [slot] at hn
  | some x =>
    simp only [slot, Option.map_some, Option.toList_some, List.mem_singleton] at hn
    subst hn
    exact h x

theorem weight_lt_of_mem_listOf {α : Type} [SizeOf α] {role : ListRole} {f : α → Node}
    {xs : List α} {n : Node} (h : ∀ x, (f x).weight ≤ 2 * (1 + sizeOf x))
    (hn : n ∈ listOf role f xs) : n.weight < 2 * sizeOf xs := by
  cases xs with
  | nil => simp [listOf] at hn
  | cons x xs =>
    simp only [listOf, List.mem_singleton] at hn
    subst hn
    have := weightAll_map_le f (x :: xs) h
    rw [weight]
    omega

theorem weight_lt_of_mem_map {α : Type} [SizeOf α] {f : α → Node} {xs : List α} {n : Node}
    (h : ∀ x, (f x).weight ≤ 2 * (1 + sizeOf x)) (hn : n ∈ xs.map f) :
    n.weight < 2 * sizeOf xs := by
  have := weightAll_map_le f xs h
  have := weight_le_weightAll hn
  omega

theorem sizeOf_span_pos (s : Span) : 0 < sizeOf s := by
  cases s
  simp only [Span.mk.sizeOf_spec]
  omega

/-- The forms of a node under which its weight is at most two over the size of what it holds. -/
theorem weight_forms :
    (∀ g, (commentGroup g).weight ≤ 2 * (1 + sizeOf g)) ∧
    (∀ id, (ident id).weight ≤ 2 * (1 + sizeOf id)) ∧
    (∀ lit, (basicLit lit).weight ≤ 2 * (1 + sizeOf lit)) ∧
    (∀ b, (block b).weight ≤ 2 * (1 + sizeOf b)) ∧
    (∀ l, (fieldList l).weight ≤ 2 * (1 + sizeOf l)) ∧
    (∀ e, (expr e).weight ≤ 2 * (1 + sizeOf e)) ∧
    (∀ s, (stmt s).weight ≤ 2 * (1 + sizeOf s)) ∧
    (∀ s, (spec s).weight ≤ 2 * (1 + sizeOf s)) ∧
    (∀ d, (decl d).weight ≤ 2 * (1 + sizeOf d)) := by
  refine ⟨?_, ?_, ?_, ?_, ?_, ?_, ?_, ?_, ?_⟩ <;> intro x <;>
    simp only [weight, Expr.ident.sizeOf_spec, Expr.basicLit.sizeOf_spec,
      Stmt.block.sizeOf_spec] <;>
    omega

theorem weight_lt_of_mem_ofExpr {e : Expr} {n : Node} (h : n ∈ ofExpr e) :
    n.weight < 2 * sizeOf e := by
  obtain ⟨hg, hi, hb, hk, hl, hx, hs, hp, hd⟩ := weight_forms
  have hpos := sizeOf_span_pos e.span
  cases e <;>
    simp only [ofExpr, List.mem_append, List.mem_cons, List.not_mem_nil, or_false, Expr.span]
      at h hpos
  case funcType t =>
    rcases t with ⟨s, tp, ps, rs⟩
    have := sizeOf_span_pos s
    simp only at h
    rcases h with h | rfl | h
    · have := weight_lt_of_mem_slot hl h; simp; omega
    · simp [weight]; omega
    · have := weight_lt_of_mem_slot hl h; simp; omega
  all_goals
    repeat' rcases h with h | h
  all_goals first
    | simp [weight]; done
    | simp [weight]; omega
    | have := weight_lt_of_mem_slot hx h; simp; omega
    | have := weight_lt_of_mem_listOf hx h; simp; omega

theorem weight_lt_of_mem_ofStmt {s : Stmt} {n : Node} (h : n ∈ ofStmt s) :
    n.weight < 2 * sizeOf s := by
  obtain ⟨hg, hi, hb, hk, hl, hx, hs, hp, hd⟩ := weight_forms
  have hpos := sizeOf_span_pos s.span
  cases s <;>
    simp only [ofStmt, List.mem_append, List.mem_cons, List.not_mem_nil, or_false, Stmt.span]
      at h hpos
  case block b =>
    rcases b with ⟨sp, list⟩
    simp only at h
    have := weight_lt_of_mem_map hs h
    simp; omega
  all_goals
    repeat' rcases h with h | h
  all_goals first
    | simp [weight]; done
    | simp [weight]; omega
    | have := weight_lt_of_mem_slot hx h; simp; omega
    | have := weight_lt_of_mem_slot hs h; simp; omega
    | have := weight_lt_of_mem_slot hi h; simp; omega
    | have := weight_lt_of_mem_listOf hx h; simp; omega
    | have := weight_lt_of_mem_listOf hs h; simp; omega

theorem weight_lt_of_mem_ofSpec {s : Spec} {n : Node} (h : n ∈ ofSpec s) :
    n.weight < 2 * sizeOf s := by
  obtain ⟨hg, hi, hb, hk, hl, hx, hs, hp, hd⟩ := weight_forms
  have hpos := sizeOf_span_pos s.span
  cases s <;>
    simp only [ofSpec, List.mem_append, List.mem_cons, Spec.span] at h hpos
  all_goals
    repeat' rcases h with h | h
  all_goals first
    | simp [weight]; done
    | simp [weight]; omega
    | have := weight_lt_of_mem_slot hg h; simp; omega
    | have := weight_lt_of_mem_slot hx h; simp; omega
    | have := weight_lt_of_mem_slot hi h; simp; omega
    | have := weight_lt_of_mem_slot hl h; simp; omega
    | have := weight_lt_of_mem_listOf hx h; simp; omega
    | have := weight_lt_of_mem_listOf hi h; simp; omega

theorem weight_lt_of_mem_ofDecl {d : Decl} {n : Node} (h : n ∈ ofDecl d) :
    n.weight < 2 * sizeOf d := by
  obtain ⟨hg, hi, hb, hk, hl, hx, hs, hp, hd⟩ := weight_forms
  have hpos := sizeOf_span_pos d.span
  cases d <;>
    simp only [ofDecl, List.mem_append, List.mem_cons, List.not_mem_nil, Decl.span] at h hpos
  all_goals
    repeat' rcases h with h | h
  all_goals first
    | simp [weight]; done
    | simp [weight]; omega
    | have := weight_lt_of_mem_slot hg h; simp; omega
    | have := weight_lt_of_mem_slot hl h; simp; omega
    | have := weight_lt_of_mem_slot hk h; simp; omega
    | have := weight_lt_of_mem_listOf hp h; simp; omega

/-- Every child of a node weighs less than the node. -/
theorem weight_lt_of_mem_children {n c : Node} (h : c ∈ n.children) : c.weight < n.weight := by
  obtain ⟨hg, hi, hb, hk, hl, hx, hs, hp, hd⟩ := weight_forms
  have hc (c : Comment) : (comment c).weight ≤ 2 * (1 + sizeOf c) := by simp only [weight]; omega
  have hf (f : Field) : (field f).weight ≤ 2 * (1 + sizeOf f) := by simp only [weight]; omega
  have hF (f : File) : (file f).weight ≤ 2 * (1 + sizeOf f) := by simp only [weight]; omega
  cases n with
  | comment => simp [children] at h
  | commentGroup g =>
    rcases g with ⟨s, list⟩
    simp only [children] at h
    have := weight_lt_of_mem_map hc h
    simp [weight]; omega
  | field f =>
    rcases f with ⟨s, doc, names, t, tag, line⟩
    have := sizeOf_span_pos s
    simp only [children, List.mem_append, List.mem_cons] at h
    rcases h with (h | h) | rfl | h | h
    · have := weight_lt_of_mem_slot hg h; simp [weight]; omega
    · have := weight_lt_of_mem_listOf hi h; simp [weight]; omega
    · simp [weight]; omega
    · have := weight_lt_of_mem_slot hb h; simp [weight]; omega
    · have := weight_lt_of_mem_slot hg h; simp [weight]; omega
  | fieldList l =>
    rcases l with ⟨s, list⟩
    simp only [children] at h
    have := weight_lt_of_mem_map hf h
    simp [weight]; omega
  | expr e => exact weight_lt_of_mem_ofExpr h
  | stmt s => exact weight_lt_of_mem_ofStmt h
  | spec s => exact weight_lt_of_mem_ofSpec h
  | decl d => exact weight_lt_of_mem_ofDecl h
  | file f =>
    rcases f with ⟨s, doc, name, decls, comments⟩
    have := sizeOf_span_pos s
    simp only [children, List.mem_append, List.mem_cons] at h
    rcases h with h | rfl | h | h
    · have := weight_lt_of_mem_slot hg h; simp [weight]; omega
    · simp [weight]; omega
    · have := weight_lt_of_mem_listOf hd h; simp [weight]; omega
    · have := weight_lt_of_mem_listOf hg h; simp [weight]; omega
  | package p =>
    rcases p with ⟨s, name, files⟩
    simp only [children] at h
    have := weight_lt_of_mem_map hF h
    simp [weight]; omega
  | list role s items =>
    simp only [children] at h
    have := weight_le_weightAll h
    simp only [weight]
    omega

/-- What holds of a node once it holds of its children holds of every node. -/
theorem induction {P : Node → Prop} (step : ∀ n, (∀ c ∈ n.children, P c) → P n) (n : Node) :
    P n :=
  step n fun c _ => induction step c
termination_by n.weight
decreasing_by exact weight_lt_of_mem_children ‹_›

end Node

end UniformTree
