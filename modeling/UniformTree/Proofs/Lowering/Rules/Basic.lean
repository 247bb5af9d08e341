import UniformTree.Proofs.Walk.Places
/-!
# What the grammar asks beyond the types

Clauses are statements like any other, and a declaration may say one thing and hold another: the
types leave room for trees that no source has. `Node.Obeys` is what is asked of a node in its place,
and a node is proper in a place if a walk from there comes only to nodes that obey. A node is proper
once it obeys and its children are proper in their places: `Node.proper_of`.
-/

namespace UniformTree

/-! ## Rules -/

/-- A guard of a type switch: an assertion without a type, or a definition by nothing but one. -/
def Stmt.IsGuard (s : Stmt) : Prop :=
  (∃ span t x, s = .expr span (.typeAssert t x none)) ∨
    ∃ span lhs t x, s = .assign span lhs ":=" [.typeAssert t x none]

/-- A spec may stand in a declaration with that word. -/
def Spec.follows : DeclToken → Spec → Bool
  | .importing, .importing .. => true
  | .constant, .value .. => true
  | .variable, .value .. => true
  | .type, .type .. => true
  | _, _ => false

/-- The specs of a declaration follow from its word. -/
def Decl.Obeys : Decl → Prop
  | .gen _ _ tok specs => ∀ s ∈ specs, s.follows tok = true
  | _ => True

/-- A declaration that may stand among statements: a general one that imports nothing. -/
def Decl.isLocal : Decl → Bool
  | .gen _ _ tok _ => tok != .importing
  | _ => false

/-- The body of a switch or a select, with the kind of its clauses. -/
def Stmt.clauses? : Stmt → Option (Kind × BlockStmt)
  | .switch _ _ _ body => some (.caseClause, body)
  | .typeSwitch _ _ _ body => some (.caseClause, body)
  | .select _ body => some (.commClause, body)
  | _ => none

/-- A list of indices does not hold just one, a star is no unary operator, an ellipsis over a type
stands for the type of a parameter and one over nothing for the length of an array. -/
def Expr.Obeys (p : Place) : Expr → Prop
  | .indexList _ _ indices => indices.length ≠ 1
  | .unary _ op _ => op ≠ "*"
  | .ellipsis _ (some _) => p = .parameterType
  | .ellipsis _ none => p = .arrayLength
  | _ => True

/-- A type switch has a guard, a declaration among statements is local, a range with a value has a
key, and an implicit empty statement stands after a label. -/
def Stmt.Obeys (p : Place) : Stmt → Prop
  | .typeSwitch _ _ guard _ => guard.IsGuard
  | .decl _ d => d.isLocal = true
  | .range _ key value _ _ _ => value.isSome → key.isSome
  | .empty _ true => p = .afterLabel
  | _ => True

/-- The rule for the form of a node in a place. -/
def Node.Rule (p : Place) : Node → Prop
  | expr e => e.Obeys p
  | stmt s => s.Obeys p
  | decl d => d.Obeys
  | _ => True

/-- What is asked of a node in a place. Clauses of either sort stand where such clauses are expected
and nowhere else, and nothing else stands there. -/
structure Node.Obeys (p : Place) (n : Node) : Prop where
  caseClause : n.kind = .caseClause ↔ p = .switchClause
  commClause : n.kind = .commClause ↔ p = .selectClause
  rule : n.Rule p

namespace Node

variable {p : Place} {n : Node}

/-- Every node of a walk that begins in a place obeys. -/
def Proper (p : Place) (n : Node) : Prop := ∀ c ∈ n.visitedIn p, c.2.Obeys c.1

theorem Proper.obeys (h : n.Proper p) : n.Obeys p :=
  h (p, n) (visitedIn_eq p n ▸ List.mem_cons_self)

theorem proper_of (h : n.Obeys p) (hc : ∀ c ∈ n.childrenIn p, c.2.Proper c.1) : n.Proper p := by
  intro m hm
  rw [visitedIn_eq, List.mem_cons] at hm
  rcases hm with rfl | hm
  · exact h
  · obtain ⟨c, hcn, hm⟩ := List.mem_flatMap.1 hm
    exact hc c hcn m hm

theorem Proper.of_child (h : n.Proper p) {c : Place × Node} (hc : c ∈ n.childrenIn p) :
    c.2.Proper c.1 := by
  intro m hm
  refine h m ?_
  rw [visitedIn_eq]
  exact List.mem_cons_of_mem _ (List.mem_flatMap.2 ⟨c, hc, hm⟩)

/-- Every node of a walk is proper in its own place. -/
theorem Proper.of_mem_visitedIn (h : n.Proper p) {c : Place × Node} (hc : c ∈ n.visitedIn p) :
    c.2.Proper c.1 := by
  induction n using Node.induction generalizing p with
  | step n ih =>
    rw [visitedIn_eq, List.mem_cons] at hc
    rcases hc with rfl | hc
    · exact h
    · obtain ⟨d, hd, hc⟩ := List.mem_flatMap.1 hc
      exact ih d.2 (mem_children_of_mem_childrenIn hd) (h.of_child hd) hc

theorem forall_mem_allIn {ns : List Node} :
    (∀ c ∈ allIn p ns, c.2.Proper c.1) ↔ ∀ c ∈ ns, c.Proper p := List.forall_mem_map

end Node

/-! ## Places and forms without clauses -/

/-- A clause of a switch or of a select. -/
def Kind.isClause (k : Kind) : Bool := k == .caseClause || k == .commClause

/-- A place for clauses. -/
def Place.isClause (p : Place) : Bool := p == .switchClause || p == .selectClause

namespace Node

variable {p : Place} {n : Node}

/-- Where no clause is and none is expected, a node is proper if it keeps the rule for its form and
its children are proper in their places. -/
theorem proper_node (hkind : n.kind.isClause = false) (hp : p.isClause = false)
    (hrule : n.Rule p) (hc : ∀ c ∈ n.childrenIn p, c.2.Proper c.1) : n.Proper p := by
  rw [Kind.isClause, Bool.or_eq_false_iff, beq_eq_false_iff_ne, beq_eq_false_iff_ne] at hkind
  rw [Place.isClause, Bool.or_eq_false_iff, beq_eq_false_iff_ne, beq_eq_false_iff_ne] at hp
  exact proper_of ⟨iff_of_false hkind.1 hp.1, iff_of_false hkind.2 hp.2, hrule⟩ hc

/-- A form all of whose children are in plain places. -/
theorem proper_form (hkind : n.kind.isClause = false) (hp : p.isClause = false)
    (hrule : n.Rule p) (hplaces : n.childrenIn p = allIn .plain n.children)
    (hc : ∀ c ∈ n.children, c.Proper .plain) : n.Proper p :=
  proper_node hkind hp hrule (hplaces ▸ forall_mem_allIn.2 hc)

end Node

/-! ## Open places -/

/-- A place of an expression or a statement in which more is allowed than in a plain one. -/
def Place.isOpen : Place → Bool
  | parameterType | arrayLength | afterLabel => true
  | _ => false

theorem Expr.Obeys.of_plain {p : Place} {e : Expr} (h : e.Obeys .plain) : e.Obeys p := by
  cases e with
  | ellipsis s elt => cases elt <;> cases h
  | _ => exact h

theorem Stmt.Obeys.of_plain {p : Place} {s : Stmt} (h : s.Obeys .plain) : s.Obeys p := by
  cases s with
  | empty s implicit =>
    cases implicit with
    | true => cases h
    | false => trivial
  | _ => exact h

namespace Node

variable {p : Place} {n : Node}

theorem childrenIn_of_isOpen (hp : p.isOpen = true) (n : Node) :
    n.childrenIn p = n.childrenIn .plain := by
  have hblock : p.inBlock = .plain := by cases p <;> first | rfl | cases hp
  have hfields : p.inFieldList = .plain := by cases p <;> first | rfl | cases hp
  have hfield : p.inField = .plain := by cases p <;> first | rfl | cases hp
  cases n with
  | field f => rw [childrenIn, childrenIn, hfield]; rfl
  | fieldList l => rw [childrenIn, childrenIn, hfields]; rfl
  | expr e => cases e <;> rfl
  | stmt s =>
    cases s with
    | block b => rw [childrenIn, childrenIn, hblock]; rfl
    | _ => rfl
  | spec s => cases s <;> rfl
  | decl d => cases d <;> rfl
  | _ => rfl

/-- What is proper in a plain place is so in an open one. -/
theorem Proper.of_plain (h : n.Proper .plain) (hp : p.isOpen = true) : n.Proper p := by
  obtain ⟨hcase, hcomm, hrule⟩ := h.obeys
  have hswitch : p ≠ .switchClause := by rintro rfl; cases hp
  have hselect : p ≠ .selectClause := by rintro rfl; cases hp
  refine proper_of ⟨?_, ?_, ?_⟩ ?_
  · exact iff_of_false (fun hk => by cases hcase.1 hk) hswitch
  · exact iff_of_false (fun hk => by cases hcomm.1 hk) hselect
  · -- a rule that asks for a certain place fails in a plain one, so it is not that of the node
    cases n with
    | expr e => exact hrule.of_plain
    | stmt s => exact hrule.of_plain
    | _ => exact hrule
  · rw [childrenIn_of_isOpen hp]
    exact fun c hc => h.of_child hc

/-! ## Bodies of clauses -/

/-- In a switch that is proper the body holds clauses only, and so in a select. -/
theorem Proper.clauses {s : Stmt} (h : (stmt s).Proper p) {k : Kind} {body : BlockStmt}
    (hs : s.clauses? = some (k, body)) : ∀ c ∈ body.list, c.kind = k := by
  have hin (place : Place) (hbody : (place, block body) ∈ (stmt s).childrenIn p) :
      ∀ c ∈ body.list, (stmt c).Obeys place.inBlock := fun c hc =>
    ((h.of_child hbody).of_child (c := (place.inBlock, stmt c)) (List.mem_map_of_mem hc)).obeys
  cases s with
  | switch | typeSwitch =>
    cases hs
    exact fun c hc => (hin .switchBody (by simp [childrenIn]) c hc).caseClause.2 rfl
  | select =>
    cases hs
    exact fun c hc => (hin .selectBody (by simp [childrenIn]) c hc).commClause.2 rfl
  | _ => cases hs

/-! ## Slots -/

section Slots

variable {α : Type} {f : α → Node} {xs : List α}

@[simp] theorem proper_ident (id : Ident) : (ident id).Proper .plain :=
  proper_form rfl rfl True.intro rfl (by simp [children, ofExpr])

@[simp] theorem proper_basicLit (lit : BasicLit) : (basicLit lit).Proper .plain :=
  proper_form rfl rfl True.intro rfl (by simp [children, ofExpr])

@[simp] theorem proper_badExpr (s : Span) : (expr (.bad s)).Proper .plain :=
  proper_form rfl rfl True.intro rfl (by simp [children, ofExpr])

@[simp] theorem proper_badStmt (s : Span) : (stmt (.bad s)).Proper .plain :=
  proper_form rfl rfl True.intro rfl (by simp [children, ofStmt])

@[simp] theorem proper_comment (c : Comment) : (comment c).Proper .plain :=
  proper_form rfl rfl True.intro rfl (by simp [children])

@[simp] theorem proper_commentGroup (g : CommentGroup) : (commentGroup g).Proper .plain :=
  proper_form rfl rfl True.intro rfl (by simp [children])

/-- A list is proper if its elements are. -/
@[simp] theorem proper_listOf {role : ListRole} :
    (∀ c ∈ listOf role f xs, c.Proper .plain) ↔ ∀ a ∈ xs, (f a).Proper .plain := by
  cases xs with
  | nil => simp [listOf]
  | cons x xs =>
    rw [listOf, List.forall_mem_singleton]
    · constructor
      · intro h a ha
        exact h.of_child (c := (.plain, f a)) (List.mem_map_of_mem (List.mem_map_of_mem ha))
      · intro h
        exact proper_form rfl rfl True.intro rfl (List.forall_mem_map.2 h)
    · exact List.cons_ne_nil x xs

end Slots

end Node

end UniformTree
