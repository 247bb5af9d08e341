import UniformTree.Proofs.Lowering.Readings.Basic
/-!
# Rows are kept

The rows that a node holds match those that the source wrote, for each reading and each form:
`rows_lowered`. The exception is a loop over a range, which keeps two of its targets.
-/

namespace UniformTree

namespace Concrete

variable {n c : Concrete}

theorem height_pos (n : Concrete) : 0 < n.height := by
  rw [height_eq]
  omega

/-- A node below another one has fewer levels. -/
theorem height_lt_of_mem_descendants (h : c ∈ n.descendants) : c.height < n.height := by
  induction n using induction with
  | step n ih =>
    obtain ⟨d, hd, hc⟩ := mem_descendants.1 h
    have hlt := height_lt_of_mem hd
    rcases mem_preorder.1 hc with rfl | hc
    · exact hlt
    · exact Nat.lt_trans (ih d hd hc) hlt

theorem pred_height_le {levels : Nat} (hn : n.height - 1 ≤ levels) (h : c ∈ n.children) :
    c.height - 1 ≤ levels := by
  have hlt := height_lt_of_mem h
  omega

theorem height_le_of_mem_descendants {levels : Nat} (hn : n.height - 1 ≤ levels)
    (h : c ∈ n.descendants) : c.height ≤ levels :=
  Nat.le_trans (Nat.le_pred_of_lt (height_lt_of_mem_descendants h)) hn

/-- Expressions of a child lie below its parent. -/
theorem mem_descendants_of_exprNodes {d : Concrete} (hc : c ∈ n.children) (hd : d ∈ c.exprNodes) :
    d ∈ n.descendants := by
  unfold exprNodes at hd
  split at hd
  · exact mem_descendants.2 ⟨c, hc, mem_preorder_of_child (mem_children_of_part hd)⟩
  · rw [List.mem_singleton.1 hd]
    exact mem_descendants_of_child hc

/-- The statements of some children lie below their parent. -/
theorem mem_descendants_of_flattened {cs : List Concrete} (hcs : ∀ d ∈ cs, d ∈ n.children)
    (h : c ∈ Lowering.flattened cs) : c ∈ n.descendants := by
  obtain ⟨d, hd, hc⟩ := Lowering.mem_preorder_of_flattened h
  exact mem_descendants.2 ⟨d, hcs d hd, hc⟩

end Concrete

theorem Reading.levelsBelow_le (r : Reading) (c : Concrete) : r.levelsBelow c ≤ c.height := by
  cases r <;> first | exact Nat.sub_le _ _ | exact Nat.le_refl _

namespace Lowering

open Concrete Lower

variable {src : Placed} {r : Reading} {n c : Concrete} {levels : Nat} {f : String}

/-! ## Single nodes -/

/-- What a reading comes to is lowered, if there are levels enough. -/
theorem yields_lowered (h : r.levelsBelow n ≤ levels) :
    (r.lower src (upTo src levels) n).Yields (Lowered src r n) :=
  fun pool => ⟨levels, h, pool, rfl⟩

/-- The same for a reading that makes nodes of one sort. -/
theorem yields_made {α : Type} {node : α → Node} {m : Lower α}
    (hr : r.lower src (upTo src levels) n = node <$> m) (h : r.levelsBelow n ≤ levels) :
    m.Yields fun a => Lowered src r n (node a) := by
  intro pool
  have hm : Lowered src r n (r.lower src (upTo src levels) n pool).1 := yields_lowered h pool
  rw [hr] at hm
  exact hm

theorem yields_expr (h : n.height ≤ levels) :
    ((upTo src levels).expr n).Yields fun x => Lowered src .expr n (.expr x) := by
  cases levels with
  | zero => exact absurd h (Nat.not_le_of_lt n.height_pos)
  | succ levels => exact yields_made (r := .expr) rfl (Nat.sub_le_of_le_add h)

theorem yields_stmt (h : n.height ≤ levels) :
    ((upTo src levels).stmt n).Yields fun s => Lowered src .stmt n (.stmt s) := by
  cases levels with
  | zero => exact absurd h (Nat.not_le_of_lt n.height_pos)
  | succ levels => exact yields_made (r := .stmt) rfl (Nat.sub_le_of_le_add h)

/-! ## Rows of nodes -/

/-- Nodes that are lowered one by one, as nodes of one sort. -/
def Each {α : Type} (src : Placed) (r : Reading) (node : α → Node) (cs : List Concrete)
    (as : List α) : Prop := List.Forall₂ (fun c a => Lowered src r c (node a)) cs as

theorem Each.row_cons {α : Type} {node : α → Node} {cs : List Concrete} {as : List α}
    {rows : List Reading.Row} {outs : List (List Node)} (h : Each src r node cs as)
    (hrows : Match src rows outs) : Match src ((r, cs) :: rows) (as.map node :: outs) :=
  .cons (List.forall₂_map_right_iff.2 h) hrows

theorem Each.row {α : Type} {node : α → Node} {cs : List Concrete} {as : List α}
    (h : Each src r node cs as) : Match src [(r, cs)] [as.map node] := h.row_cons .nil

section Parts

variable (hn : n.height - 1 ≤ levels)

include hn

theorem yields_each {ns : List Concrete} (h : ∀ c ∈ ns, c ∈ n.descendants) :
    (exprEach (upTo src levels) ns).Yields (Each src .expr .expr ns) :=
  .forall₂ fun c hc => yields_expr (height_le_of_mem_descendants hn (h c hc))

theorem yields_row (hc : c ∈ n.children) :
    (exprs (upTo src levels) c).Yields (Each src .expr .expr c.exprNodes) := by
  have hnodes : ∀ d ∈ c.exprNodes, d ∈ n.descendants := fun d hd =>
    mem_descendants_of_exprNodes hc hd
  unfold exprs
  unfold exprNodes at hnodes ⊢
  by_cases hlist : (c.kind == "expression_list") = true
  · simp only [hlist, if_true] at hnodes ⊢
    exact yields_each hn hnodes
  · simp only [hlist] at hnodes ⊢
    have hheight := height_le_of_mem_descendants hn (mem_descendants_of_child hc)
    refine (yields_expr hheight).bind fun x hx => ?_
    exact .pure (.cons hx .nil)

theorem yields_rowIn : (exprsIn (upTo src levels) n f).Yields
    (Each src .expr .expr (n.exprNodesIn f)) := by
  unfold exprsIn exprNodesIn
  cases hc : n.child? f with
  | some c => exact yields_row hn (mem_children_of_child? hc)
  | none => exact .pure .nil

/-- Lists of expressions, one after the other. -/
theorem yields_flatten {ns : List Concrete} (h : ∀ c ∈ ns, c ∈ n.children) :
    (ns.mapM (exprs (upTo src levels))).Yields fun xss =>
      Each src .expr .expr (ns.flatMap exprNodes) xss.flatten := by
  have hrows : (ns.mapM (exprs (upTo src levels))).Yields
      (List.Forall₂ (fun c => Each src .expr .expr c.exprNodes) ns) :=
    .forall₂ fun c hc => yields_row hn (h c hc)
  refine hrows.imp fun xss hxss => ?_
  clear h hrows
  induction hxss with
  | nil => exact .nil
  | cons hx _ ih => exact List.rel_append hx ih

theorem yields_statements {ns : List Concrete} (h : ∀ c ∈ ns, c ∈ n.children) :
    (stmtEach (upTo src levels) (flattened ns)).Yields (Each src .stmt .stmt (flattened ns)) :=
  .forall₂ fun _ hc =>
    yields_stmt (height_le_of_mem_descendants hn (mem_descendants_of_flattened h hc))

/-- The parts of a child are lowered one by one. -/
theorem yields_under (hc : n.child? f = some c) : (exprEach (upTo src levels) c.parts).Yields
    (Each src .expr .expr (n.partsUnder f)) := by
  unfold partsUnder
  rw [hc]
  exact yields_each hn fun d hd => mem_descendants_of_part_in hc hd

/-! ## Expressions -/

omit hn in
theorem rows_instantiate {cs : List Concrete} {indices : List Expr} {s : Span} {x : Expr}
    (h : Each src .expr .expr cs indices) :
    Match src [(.expr, cs)] (Node.expr (instantiate s x indices)).rows := by
  unfold instantiate
  split <;> exact h.row

theorem rows_callee : (callee src (upTo src levels) n).Yields fun x =>
    (n.child? "type_arguments").isSome = true →
      Match src [(.expr, n.partsUnder "type_arguments")] (Node.expr x).rows := by
  apply Yields.skip
  intro fn
  cases hc : n.child? "type_arguments" with
  | some targs => exact (yields_under hn hc).bind fun is his => .pure fun _ => rows_instantiate his
  | none => exact .pure (by simp)

theorem rows_call : (call src (upTo src levels) n).Yields fun x =>
    Match src [(.expr, n.partsUnder "arguments")] (Node.expr x).rows := by
  apply Yields.skip
  intro fn
  cases hc : n.child? "arguments" with
  | some list => exact (yields_under hn hc).bind fun args hargs => .pure hargs.row
  | none =>
    unfold partsUnder
    rw [hc]
    exact .pure (.cons .nil .nil)

theorem rows_compositeLit : (compositeLit src (upTo src levels) n).Yields fun x =>
    Match src [(.expr, n.partsUnder "body")] (Node.expr x).rows := by
  apply Yields.skip
  intro type
  cases hc : n.child? "body" with
  | some body => exact (yields_under hn hc).bind fun elts helts => .pure helts.row
  | none =>
    unfold partsUnder
    rw [hc]
    exact .pure (.cons .nil .nil)

theorem rows_genericType : (genericType src (upTo src levels) n).Yields fun x =>
    Match src [(.expr, n.partsUnder "type_arguments")] (Node.expr x).rows := by
  apply Yields.skip
  intro type
  cases hc : n.child? "type_arguments" with
  | some targs => exact (yields_under hn hc).bind fun is his => .pure (rows_instantiate his)
  | none =>
    unfold partsUnder
    rw [hc]
    exact .pure (rows_instantiate .nil)

omit hn in
theorem rows_structType : (structType src (upTo src levels) n).Yields fun x =>
    Match src [] (Node.expr x).rows := by
  unfold structType
  split
  · exact .skip fun l => .pure .nil
  · exact .pure .nil

/-- The rows of an expression match, unless it is handed on. -/
theorem rows_expr (hdirect : Reading.expr.isDirect n = true) :
    (Lowering.expr src (upTo src levels) n).Yields fun x =>
      Match src (Reading.exprRows (ExprForm.ofKind n.kind) n) (Node.expr x).rows := by
  unfold Lowering.expr
  cases hf : ExprForm.ofKind n.kind with
  | wrapper | union => simp [Reading.isDirect, hf] at hdirect
  | call => exact rows_call hn
  | compositeLit => exact rows_compositeLit hn
  | generic => exact rows_genericType hn
  | literalValue =>
    refine (yields_each hn fun c hc => mem_descendants_of_part hc).bind fun es hes => ?_
    exact .pure hes.row
  | index =>
    apply Yields.skip
    intro x
    refine (yields_each hn fun c hc => mem_descendants_of_child
      (mem_children_of_partsIn hc)).bind fun is his => ?_
    exact .pure (rows_instantiate his)
  | instantiation =>
    apply Yields.skip
    intro x
    refine (yields_each hn fun c hc => mem_descendants_of_child
      (mem_children_of_partsBeside hc)).bind fun is his => ?_
    exact .pure (rows_instantiate his)
  | conversion =>
    apply Yields.skip
    intro fn
    refine (yields_made (r := .operand "operand") rfl hn).bind fun arg harg => ?_
    exact .pure (Each.row (.cons harg .nil))
  | name | literal | unknown | qualified => exact .pure .nil
  | paren | negated | pointer | interface | function =>
    exact .skip fun x => .pure .nil
  | selector | sliceType | channel | countedArray => exact .skip fun x => .pure .nil
  | binary | array | map | keyed | funcLit | typeAssert =>
    exact .skip fun x => .skip fun y => .pure .nil
  | slice => exact .skip fun x => .skip fun low => .skip fun high => .skip fun max => .pure .nil
  | unary =>
    apply Yields.skip
    intro x
    split <;> exact .pure .nil
  | struct => exact rows_structType

/-! ## Field lists -/

/-- The members of a list of fields are those of its parts. -/
theorem rows_members {member : Concrete → Lower Field} {s : Span}
    (hr : ∀ d, r.lower src (upTo src levels) d = .field <$> member d) :
    Yields (do let list ← n.parts.mapM member; return ⟨s, list⟩) fun l =>
      Match src [(r, n.parts)] (Node.fieldList l).rows := by
  have hlist : (n.parts.mapM member).Yields (Each src r .field n.parts) := .forall₂ fun d hd =>
    yields_made (hr d) (Nat.le_trans (r.levelsBelow_le d)
      (height_le_of_mem_descendants hn (mem_descendants_of_part hd)))
  exact hlist.bind fun list h => .pure h.row

theorem rows_params : (params src (upTo src levels) n).Yields fun l =>
    Match src [(.param, n.parts)] (Node.fieldList l).rows := rows_members hn fun _ => rfl

theorem rows_structFields : (structFields src (upTo src levels) n).Yields fun l =>
    Match src [(.structField, n.parts)] (Node.fieldList l).rows := rows_members hn fun _ => rfl

theorem rows_elements : (elements src (upTo src levels) n).Yields fun l =>
    Match src [(.element, n.parts)] (Node.fieldList l).rows := rows_members hn fun _ => rfl

theorem rows_paramsOf : (paramsOf src (upTo src levels) n).Yields fun l =>
    Match src [(.param, n.partsUnder "parameters")] (Node.fieldList l).rows := by
  unfold paramsOf partsUnder
  cases hc : n.child? "parameters" with
  | some c => exact rows_params (pred_height_le hn (mem_children_of_child? hc))
  | none => exact .pure (.cons .nil .nil)

omit hn in
theorem rows_results (hn : n.height ≤ levels) : (results src (upTo src levels) n).Yields fun l =>
    Match src (Reading.resultRows n) (Node.fieldList l).rows := by
  unfold results Reading.resultRows
  by_cases hlist : (n.kind == "parameter_list") = true
  · simp only [hlist, if_true]
    exact rows_params (Nat.le_trans (Nat.sub_le _ _) hn)
  · simp only [hlist]
    have hfield : ((upTo src levels).expr n).Yields fun type =>
        Lowered src .bareResult n (.field ⟨src.span n, none, [], type, none, none⟩) :=
      fun pool => ⟨levels, hn, pool, rfl⟩
    exact hfield.bind fun type h => .pure (.cons (.cons h .nil) .nil)

/-! ## Declarations -/

theorem rows_spec {tok : DeclToken} : (Lowering.spec src (upTo src levels) tok n).Yields fun s =>
    Match src ((Reading.spec tok).rows n) (Node.spec s).rows := by
  cases tok with
  | importing => exact .skip fun doc => .skip fun line => .pure .nil
  | constant | «variable» =>
    apply Yields.skip
    intro doc
    apply Yields.skip
    intro type
    exact (yields_rowIn hn).bind fun values h => .skip fun line => .pure h.row
  | type => exact .skip fun doc => .skip fun ps => .skip fun type => .skip fun line => .pure .nil

theorem rows_decl : (Lowering.decl src (upTo src levels) n).Yields fun d =>
    Match src (Reading.declRows (DeclForm.ofKind n.kind) n) (Node.decl d).rows := by
  unfold Lowering.decl
  cases DeclForm.ofKind n.kind with
  | func => exact .skip fun doc => .skip fun recv => .skip fun type => .skip fun body => .pure .nil
  | unknown => exact .pure .nil
  | gen tok =>
    have hspecs : ((specNodes n).mapM (Lowering.spec src (upTo src levels) tok)).Yields
        (Each src (.spec tok) .spec (specNodes n)) := .forall₂ fun c hc =>
      yields_made rfl (Nat.le_trans (Reading.levelsBelow_le _ c)
        (height_le_of_mem_descendants hn (mem_descendants_of_specNodes hc)))
    exact .skip fun doc => hspecs.bind fun specs h => .pure h.row

/-! ## Statements -/

theorem rows_blockIn : (blockIn src (upTo src levels) n f).Yields fun b =>
    Match src [(.stmt, flattened (n.partsUnder f))] (Node.block b).rows := by
  unfold blockIn partsUnder
  cases hc : n.child? f with
  | some c =>
    have hc := pred_height_le hn (mem_children_of_child? hc)
    exact (yields_statements hc fun _ => mem_children_of_part).bind fun ss h => .pure h.row
  | none => exact .pure (.cons .nil .nil)

theorem rows_assignment {tok : String} : (assignment src (upTo src levels) tok n).Yields fun s =>
    Match src [(.expr, n.exprNodesIn "left"), (.expr, n.exprNodesIn "right")]
      (Node.stmt s).rows := by
  refine (yields_rowIn hn).bind fun lhs hlhs => ?_
  refine (yields_rowIn hn).bind fun rhs hrhs => ?_
  exact .pure (hlhs.row_cons hrhs.row)

theorem rows_receive : (receive src (upTo src levels) n).Yields fun s =>
    Match src (Reading.receiveRows n) (Node.stmt s).rows := by
  unfold Reading.receiveRows
  refine (yields_made (r := .operand "right") rfl hn).bind fun right hright => ?_
  cases hc : n.child? "left" with
  | some left =>
    refine (yields_row hn (mem_children_of_child? hc)).bind fun lhs hlhs => ?_
    exact .pure (hlhs.row_cons (Each.row (.cons hright .nil)))
  | none => exact .pure .nil

/-- A loop over a range keeps the first two of its targets. -/
theorem rows_rangeLoop {head : Concrete} (hhead : head ∈ n.children) (body : BlockStmt) :
    (rangeLoop src (upTo src levels) n head body).Yields fun s =>
      Match src [(.expr, (head.exprNodesIn "left").take 2)] (Node.stmt s).rows := by
  refine (yields_rowIn (pred_height_le hn hhead)).bind fun targets h => .skip fun x => .pure ?_
  have htake : Each src .expr .expr ((head.exprNodesIn "left").take 2) (targets.take 2) :=
    List.forall₂_take 2 h
  have hkept : targets[0]?.toList ++ targets[1]?.toList = targets.take 2 := by
    match targets with
    | [] | [_] | _ :: _ :: _ => rfl
  show Match src _ [(targets[0]?.toList ++ targets[1]?.toList).map .expr]
  rw [hkept]
  exact htake.row

theorem rows_loop : (loop src (upTo src levels) n).Yields fun s =>
    Match src ((Reading.loopRows n).map fun row => (row.1, row.2.take 2)) (Node.stmt s).rows := by
  unfold Reading.loopRows
  apply Yields.skip
  intro body
  cases hhead : (n.partsBeside "body").head? with
  | none => exact .pure .nil
  | some head =>
    simp only
    by_cases hrange : (head.kind == "range_clause") = true
    · rw [if_pos hrange, if_pos hrange]
      exact rows_rangeLoop hn (mem_children_of_partsBeside (List.mem_of_mem_head? hhead)) body
    · rw [if_neg hrange, if_neg hrange]
      split
      · exact .skip fun init => .skip fun cond => .skip fun post => .pure .nil
      · exact .skip fun cond => .pure .nil

theorem rows_lowerClause (select : Bool) :
    (Reading.lowerClause src (upTo src levels) select n).Yields fun s =>
      Match src ((Reading.clause select).rows n) (Node.stmt s).rows := by
  cases select with
  | true =>
    apply Yields.skip
    intro comm
    exact (yields_statements hn fun _ => mem_children_of_partsBeside).bind fun ss h => .pure h.row
  | false =>
    refine (yields_flatten hn fun _ => mem_children_of_partsIn_append).bind fun xss hxss => ?_
    refine (yields_statements hn fun _ => mem_children_of_filter).bind fun ss hss => ?_
    exact .pure (hxss.row_cons hss.row)

theorem rows_clauses (select : Bool) :
    (clauses src (Reading.lowerClause src (upTo src levels) select) n).Yields fun b =>
      Match src [(.clause select, n.parts.filter isClause)] (Node.block b).rows := by
  have hlist : ((n.parts.filter isClause).mapM
      (Reading.lowerClause src (upTo src levels) select)).Yields
        (Each src (.clause select) .stmt (n.parts.filter isClause)) := .forall₂ fun c hc =>
    yields_made rfl (Nat.le_trans (Reading.levelsBelow_le _ c)
      (height_le_of_mem_descendants hn (mem_descendants_of_child (mem_children_of_filter hc))))
  exact hlist.bind fun list h => .pure h.row

theorem rows_guarded : (Reading.guarded src (upTo src levels) n).Yields fun s =>
    Match src (Reading.guardRows n) (Node.stmt s).rows := by
  have hvalue : (exprIn src (upTo src levels) n "value").Yields fun value =>
      Lowered src .assertion n
        (.expr (.typeAssert ⟨value.span.start, guardStop src n value⟩ value none)) :=
    fun pool => ⟨levels, hn, pool, rfl⟩
  unfold Reading.guardRows
  refine hvalue.bind fun value h => ?_
  rw [guard_eq]
  cases hc : n.child? "alias" with
  | some c =>
    refine (yields_row hn (mem_children_of_child? hc)).bind fun lhs hlhs => ?_
    exact .pure (hlhs.row_cons (Each.row (.cons h .nil)))
  | none => exact .pure .nil

/-- The rows of a statement match, as far as they are kept. -/
theorem rows_stmt : (Lowering.stmt src (upTo src levels) n).Yields fun s =>
    Match src (Reading.stmt.kept n) (Node.stmt s).rows := by
  unfold Reading.kept Reading.isLoop Lowering.stmt
  show Yields _ fun s => Match src
    (if (StmtForm.ofKind n.kind == .loop) = true then
      (Reading.stmtRows (StmtForm.ofKind n.kind) n).map fun row => (row.1, row.2.take 2)
    else Reading.stmtRows (StmtForm.ofKind n.kind) n) (Node.stmt s).rows
  cases hf : StmtForm.ofKind n.kind with
  | loop => exact rows_loop hn
  | assignment | definition => exact rows_assignment hn
  | receive => exact rows_receive hn
  | returning =>
    exact (yields_flatten hn fun _ => mem_children_of_part).bind fun xss h => .pure h.row
  | block =>
    refine Yields.bind (P := fun b => Match src [(.stmt, flattened n.parts)] (Node.block b).rows)
      ?_ fun b h => .pure h
    exact (yields_statements hn fun _ => mem_children_of_part).bind fun ss h => .pure h.row
  | unknown | empty | branch tok => exact .pure .nil
  | expression | increment | decrement | go | defer | select | declaration tok | labeled =>
    exact .skip fun x => .pure .nil
  | send => exact .skip fun x => .skip fun y => .pure .nil
  | ifElse =>
    exact .skip fun init => .skip fun cond => .skip fun body => .skip fun other => .pure .nil
  | switch => exact .skip fun init => .skip fun tag => .skip fun body => .pure .nil
  | typeSwitch =>
    exact .skip fun init => .skip fun value => .skip fun assign => .skip fun body => .pure .nil

end Parts

/-! ## Any reading -/

/-- The rows of a node match what the source wrote under the reading that the node belongs to, as
far as they are kept: no element is dropped, doubled or moved. -/
theorem rows_lowered {m : Node} (hdirect : r.isDirect c = true) (h : Lowered src r c m) :
    Match src (r.kept c) m.rows := by
  obtain ⟨levels, hlevels, pool, rfl⟩ := h
  suffices hyields : (r.lower src (upTo src levels) c).Yields fun m =>
      Match src (r.kept c) m.rows from hyields pool
  cases r with
  | expr => exact (rows_expr hlevels hdirect).map fun _ h => h
  | stmt => exact (rows_stmt hlevels).map fun _ h => h
  | decl => exact (rows_decl hlevels).map fun _ h => h
  | spec tok => exact (rows_spec hlevels).map fun _ h => h
  | operand f => cases hdirect
  | callee => exact (rows_callee hlevels).map fun _ h => h hdirect
  | assertion => exact .skip fun value => .pure .nil
  | guard => exact (rows_guarded hlevels).map fun _ h => h
  | body f => exact (rows_blockIn hlevels).map fun _ h => h
  | clauses select => exact (rows_clauses hlevels select).map fun _ h => h
  | clause select => exact (rows_lowerClause hlevels select).map fun _ h => h
  | params => exact (rows_params hlevels).map fun _ h => h
  | parameters => exact (rows_paramsOf hlevels).map fun _ h => h
  | results => exact (rows_results hlevels).map fun _ h => h
  | elements => exact (rows_elements hlevels).map fun _ h => h
  | bareResult => exact .skip fun type => .pure .nil
  | param | structField | element => exact (Yields.trivial _).map fun _ _ => .nil
  | structFields =>
    simp only [Reading.lower]
    show Yields _ fun m : Node => Match src (Reading.fieldRows c) m.rows
    unfold Reading.fieldRows
    cases hlist : c.parts.head? with
    | some list =>
      have hin := mem_children_of_part (List.mem_of_mem_head? hlist)
      exact (rows_structFields (pred_height_le hlevels hin)).map fun _ h => h
    | none => exact .pure (.cons .nil .nil)

end Lowering

end UniformTree
