import Mathlib.Data.List.Basic
import UniformTree.Proofs.Walk.Visited
/-!
# Skipping cuts out subtrees

A visitor that skips the nodes of some kinds is told what one that skips nothing is told, but for
what happens from entering an outermost node of those kinds until it is left: of all that, it is
told only that the node is skipped (`Visitor.trace_eq_collapse`). `Node.calls` says by recursion
what such a visitor is told; `Visitor.logged` writes it down on the way without touching the walk.
-/

namespace UniformTree

/-- One thing that a visitor is told. -/
inductive Call where
  | enter (n : Node)
  /-- The node is entered, and the answer is to skip it. -/
  | skip (n : Node)
  | leave

namespace Call

/-- The node that is entered or skipped. -/
def node? : Call → Option Node
  | enter n => some n
  | skip n => some n
  | leave => none

/-- Every node that is entered is left, and the node that is left is the last one that was entered
and not yet left. -/
inductive Balanced : List Call → Prop
  | nil : Balanced []
  | skip (n : Node) {cs : List Call} (rest : Balanced cs) : Balanced (.skip n :: cs)
  | node (n : Node) {inner cs : List Call} (within : Balanced inner) (rest : Balanced cs) :
      Balanced (.enter n :: inner ++ .leave :: cs)

/-- The calls that are left when, from entering an outermost node of some kinds until leaving it,
there is only one to skip it. The number counts the nodes that were entered since then, that one
among them, and not yet left. -/
def collapse (skips : Kind → Bool) : Nat → List Call → List Call
  | _, [] => []
  | 0, .enter n :: cs =>
    if skips n.kind then .skip n :: collapse skips 1 cs else .enter n :: collapse skips 0 cs
  | 0, c :: cs => c :: collapse skips 0 cs
  | d + 1, .enter _ :: cs => collapse skips (d + 2) cs
  | d + 1, .skip _ :: cs => collapse skips (d + 1) cs
  | d + 1, .leave :: cs => collapse skips d cs

theorem Balanced.append {cs ds : List Call} (h : Balanced cs) (hd : Balanced ds) :
    Balanced (cs ++ ds) := by
  induction h with
  | nil => exact hd
  | skip n _ ih => exact .skip n ih
  | @node n inner cs within _ _ ih =>
    rw [List.cons_append, List.cons_append, List.append_assoc]
    exact .node n within ih

theorem Balanced.flatMap {α : Type} {xs : List α} {f : α → List Call}
    (h : ∀ x ∈ xs, Balanced (f x)) : Balanced (xs.flatMap f) := by
  induction xs with
  | nil => exact .nil
  | cons x xs ih =>
    rw [List.forall_mem_cons] at h
    exact h.1.append (ih h.2)

end Call

namespace Node

/-- What a visitor is told on a walk of a node if it skips some kinds. -/
def calls (skips : Kind → Bool) (n : Node) : List Call :=
  if skips n.kind then [.skip n]
  else .enter n :: (n.children.attach.flatMap fun c => calls skips c.1) ++ [.leave]
termination_by n.weight
decreasing_by exact weight_lt_of_mem_children c.2

/-- The nodes of a walk, each with those on the way to it. -/
def lineages (above : List Node) (n : Node) : List (List Node × Node) :=
  (above, n) :: n.children.attach.flatMap fun c => lineages (above ++ [n]) c.1
termination_by n.weight
decreasing_by exact weight_lt_of_mem_children c.2

variable {skips : Kind → Bool}

theorem calls_of_skips {n : Node} (h : skips n.kind = true) : n.calls skips = [.skip n] := by
  rw [calls, if_pos h]

theorem calls_of_enters {n : Node} (h : skips n.kind = false) :
    n.calls skips = .enter n :: n.children.flatMap (calls skips) ++ [.leave] := by
  rw [calls, if_neg (Bool.eq_false_iff.1 h), flatMap_attach]

theorem lineages_eq (above : List Node) (n : Node) :
    n.lineages above = (above, n) :: n.children.flatMap (lineages (above ++ [n])) := by
  rw [lineages, flatMap_attach]

theorem map_snd_lineages (n : Node) (above : List Node) :
    (n.lineages above).map (·.2) = n.visited := by
  induction n using Node.induction generalizing above with
  | step n ih =>
    rw [lineages_eq, visited_eq, List.map_cons, List.map_flatMap]
    congr 1
    exact List.flatMap_congr fun c hc => ih c hc _

/-! ## What a visitor is told -/

theorem balanced_calls (skips : Kind → Bool) (n : Node) : Call.Balanced (n.calls skips) := by
  induction n using Node.induction with
  | step n ih =>
    cases h : skips n.kind with
    | true =>
      rw [calls_of_skips h]
      exact .skip n .nil
    | false =>
      rw [calls_of_enters h]
      exact .node n (Call.Balanced.flatMap ih) .nil

/-- What is above a node is above whatever is below it. -/
theorem mem_of_mem_lineages {n m : Node} {above : List Node} {p : List Node × Node}
    (hp : p ∈ n.lineages above) (hm : m ∈ above) : m ∈ p.1 := by
  induction n using Node.induction generalizing above with
  | step n ih =>
    rw [lineages_eq, List.mem_cons] at hp
    rcases hp with rfl | hp
    · exact hm
    · obtain ⟨c, hc, hp⟩ := List.mem_flatMap.1 hp
      exact ih c hc hp (List.mem_append_left _ hm)

/-- The visited nodes above which nothing is skipped. -/
def reached (skips : Kind → Bool) (ps : List (List Node × Node)) : List Node :=
  (ps.filter fun p => p.1.all fun m => !skips m.kind).map (·.2)

theorem nodes_calls {n : Node} {above : List Node}
    (h : (above.all fun m => !skips m.kind) = true) :
    (n.calls skips).filterMap Call.node? = reached skips (n.lineages above) := by
  induction n using Node.induction generalizing above with
  | step n ih =>
    rw [lineages_eq, reached, List.filter_cons, if_pos h, List.map_cons]
    cases hn : skips n.kind with
    | true =>
      -- whatever is below the node has it above itself
      have hnone : ((n.children.flatMap (lineages (above ++ [n]))).filter
          fun p => p.1.all fun m => !skips m.kind) = [] := by
        rw [List.filter_eq_nil_iff]
        intro p hp hall
        obtain ⟨c, -, hp⟩ := List.mem_flatMap.1 hp
        have hmem : n ∈ p.1 := mem_of_mem_lineages hp (List.mem_append_right _ List.mem_cons_self)
        have := List.all_eq_true.1 hall n hmem
        rw [hn] at this
        cases this
      rw [calls_of_skips hn, hnone]
      rfl
    | false =>
      have habove : ((above ++ [n]).all fun m => !skips m.kind) = true := by
        simp [List.all_append, h, hn]
      have hcalls : (n.calls skips).filterMap Call.node? =
          n :: n.children.flatMap fun c => (c.calls skips).filterMap Call.node? := by
        rw [calls_of_enters hn]
        simp [Call.node?, List.filterMap_cons, List.filterMap_flatMap]
      rw [hcalls, List.filter_flatMap, List.map_flatMap]
      congr 1
      exact List.flatMap_congr fun c hc => ih c hc habove

/-! ## Cutting out -/

section Collapse

open Call

/-- What cutting out does to the calls of each node of a row it does to those of the row. -/
theorem collapse_row {d : Nat} (left : Node → List Call) {ns : List Node}
    (h : ∀ c ∈ ns, ∀ cs, collapse skips d (c.calls (fun _ => false) ++ cs) =
      left c ++ collapse skips d cs) (cs : List Call) :
    collapse skips d (ns.flatMap (calls fun _ => false) ++ cs) =
      ns.flatMap left ++ collapse skips d cs := by
  induction ns with
  | nil => rfl
  | cons c ns ih =>
    rw [List.forall_mem_cons] at h
    rw [List.flatMap_cons, List.flatMap_cons, List.append_assoc, h.1, ih h.2, List.append_assoc]

/-- Within a subtree that is cut out nothing is left of a walk of a node. -/
theorem collapse_within (n : Node) (d : Nat) (cs : List Call) :
    collapse skips (d + 1) (n.calls (fun _ => false) ++ cs) = collapse skips (d + 1) cs := by
  induction n using Node.induction generalizing d cs with
  | step n ih =>
    rw [calls_of_enters rfl, List.cons_append, List.cons_append, collapse, List.append_assoc,
      collapse_row (fun _ => []) fun c hc => ih c hc (d + 1)]
    rw [List.flatMap_eq_nil_iff.2 fun _ _ => rfl]
    rfl

/-- Cutting the subtrees of some kinds out of what a visitor that skips nothing is told leaves what
one that skips these kinds is told. -/
theorem collapse_calls (n : Node) (cs : List Call) :
    collapse skips 0 (n.calls (fun _ => false) ++ cs) = n.calls skips ++ collapse skips 0 cs := by
  induction n using Node.induction generalizing cs with
  | step n ih =>
    rw [calls_of_enters rfl, List.cons_append, List.cons_append, List.append_assoc]
    cases h : skips n.kind with
    | true =>
      -- from here on the row of the children lies within what is cut out
      rw [calls_of_skips h, collapse, if_pos h,
        collapse_row (fun _ => []) fun c _ => collapse_within c 0]
      rw [List.flatMap_eq_nil_iff.2 fun _ _ => rfl]
      rfl
    | false =>
      rw [calls_of_enters h, collapse, if_neg (Bool.eq_false_iff.1 h), collapse_row _ ih]
      simp [collapse]

end Collapse

end Node

/-! ## Writing down a walk -/

namespace Visitor

variable {σ ω : Type}

/-- The visitor skips the nodes of some kinds and no others, whatever it was told before. -/
def Skips (v : Visitor σ ω) (skips : Kind → Bool) : Prop :=
  ∀ n s, (v.enter n s).1 = .skip ↔ skips n.kind = true

/-- The visitor, with a log of what it was told and of what it answered on leaving. -/
def logged (v : Visitor σ ω) : Visitor (σ × List (Call × Option ω)) ω where
  enter n s :=
    match v.enter n s.1 with
    | (.skip, t) => (.skip, t, s.2 ++ [(.skip n, none)])
    | (.children, t) => (.children, t, s.2 ++ [(.enter n, none)])
  leave s :=
    let (result, t) := v.leave s.1
    (result, t, s.2 ++ [(.leave, result)])

/-- What is written down on a walk. -/
def log (v : Visitor σ ω) (n : Node) (s : σ) : List (Call × Option ω) :=
  (v.logged.walk n (s, [])).2.2

/-- What the visitor is told on a walk. -/
def trace (v : Visitor σ ω) (n : Node) (s : σ) : List Call := (v.log n s).map (·.1)

variable {v : Visitor σ ω} {skips : Kind → Bool}

/-- What a log says of the walk of a node that came to a result. -/
structure Tells (skips : Kind → Bool) (n : Node) (result : Option ω)
    (told : List (Call × Option ω)) : Prop where
  calls : told.map (·.1) = n.calls skips
  skipped : skips n.kind = true → told = [(.skip n, none)] ∧ result = none
  left : skips n.kind = false → ∃ inner, told = (.enter n, none) :: inner ++ [(.leave, result)] ∧
    inner.map (·.1) = n.children.flatMap (Node.calls skips)

/-- The log grows by what is said of the walk, and the walk is what it is without a log. -/
def Logs (v : Visitor σ ω) (skips : Kind → Bool) (n : Node) : Prop :=
  ∀ s log, ∃ told, v.logged.walk n (s, log) = ((v.walk n s).1, (v.walk n s).2, log ++ told) ∧
    Tells skips n (v.walk n s).1 told

theorem walkAll_logged {ns : List Node} (h : ∀ n ∈ ns, v.Logs skips n) (s : σ)
    (log : List (Call × Option ω)) : ∃ told,
      v.logged.walkAll ns (s, log) = (v.walkAll ns s, log ++ told) ∧
        told.map (·.1) = ns.flatMap (Node.calls skips) := by
  induction ns generalizing s log with
  | nil => exact ⟨[], by simp [walkAll], rfl⟩
  | cons n ns ih =>
    rw [List.forall_mem_cons] at h
    obtain ⟨told, hwalk, htells⟩ := h.1 s log
    obtain ⟨more, hmore, hcalls⟩ := ih h.2 (v.walk n s).2 (log ++ told)
    refine ⟨told ++ more, ?_, ?_⟩
    · rw [walkAll, List.foldl_cons, hwalk, ← walkAll, hmore, List.append_assoc]
      rfl
    · rw [List.map_append, htells.calls, hcalls, List.flatMap_cons]

/-- **Step.** A node is logged if its children are. -/
theorem logs_of_children (hv : v.Skips skips) {n : Node} (h : ∀ c ∈ n.children, v.Logs skips c) :
    v.Logs skips n := by
  intro s log
  rw [walk_eq, walk_eq]
  -- what the visitor answers on entering is decided by the kind alone
  have hskips := hv n s
  rcases henter : v.enter n s with ⟨answer, t⟩
  rw [henter] at hskips
  cases answer with
  | skip =>
    have hn : skips n.kind = true := hskips.1 rfl
    have hlogged : v.logged.enter n (s, log) = (.skip, t, log ++ [(.skip n, none)]) := by
      simp only [logged, henter]
    rw [hlogged]
    refine ⟨[(.skip n, none)], rfl, ?_, fun _ => ⟨rfl, rfl⟩, fun hf => ?_⟩
    · rw [Node.calls_of_skips hn]
      rfl
    · exact absurd hn (Bool.eq_false_iff.1 hf)
  | children =>
    have hn : skips n.kind = false := Bool.eq_false_iff.2 fun hs => by cases hskips.2 hs
    have hlogged : v.logged.enter n (s, log) = (.children, t, log ++ [(.enter n, none)]) := by
      simp only [logged, henter]
    obtain ⟨inner, hall, hinner⟩ := walkAll_logged h t (log ++ [(.enter n, none)])
    rw [hlogged]
    simp only [hall]
    refine ⟨(.enter n, none) :: inner ++ [(.leave, (v.leave (v.walkAll n.children t)).1)], ?_,
      ?_, fun hs => ?_, fun _ => ⟨inner, rfl, hinner⟩⟩
    · simp [logged]
    · rw [Node.calls_of_enters hn, ← hinner]
      simp
    · exact absurd hs (Bool.eq_false_iff.1 hn)

/-- **Run.** Every walk is logged. -/
theorem logs (hv : v.Skips skips) (n : Node) : v.Logs skips n :=
  Node.induction (fun _ => logs_of_children hv) n

theorem trace_eq (hv : v.Skips skips) (n : Node) (s : σ) : v.trace n s = n.calls skips := by
  obtain ⟨told, hwalk, htells⟩ := logs hv n s []
  rw [trace, log, hwalk]
  exact htells.calls

/-- Skipping removes exactly the skipped subtrees. Take a visitor that skips the nodes of some kinds
and no others. Writing down what it is told changes nothing about its walks. It is told what any
visitor that skips nothing is told on a walk of the same node, but that for each outermost node of
these kinds there is one call to skip it in place of all calls from entering it until leaving it.
Each call to leave closes the last node that was entered and not yet left, and the nodes that are
entered or skipped are, in order, those visited nodes that have no skipped node above them. If the
node of the walk is itself skipped nothing else is told and the walk comes to nothing; else the walk
ends with leaving it, and comes to what the visitor answers there. -/
theorem trace_eq_collapse (skips : Kind → Bool) (v : Visitor σ ω) (hv : v.Skips skips) (n : Node)
    (s : σ) :
    ((v.logged.walk n (s, [])).1 = (v.walk n s).1 ∧
      (v.logged.walk n (s, [])).2.1 = (v.walk n s).2) ∧
    (∀ {τ ρ : Type} (w : Visitor τ ρ), w.Skips (fun _ => false) → ∀ t : τ,
      v.trace n s = Call.collapse skips 0 (w.trace n t)) ∧
    Call.Balanced (v.trace n s) ∧
    ((n.lineages []).map (·.2) = n.visited ∧
      (v.trace n s).filterMap Call.node? = Node.reached skips (n.lineages [])) ∧
    (skips n.kind = true → v.log n s = [(.skip n, none)] ∧ (v.walk n s).1 = none) ∧
    (skips n.kind = false → ∃ inner,
      v.log n s = (.enter n, none) :: inner ++ [(.leave, (v.walk n s).1)] ∧
        Call.Balanced (inner.map (·.1))) := by
  obtain ⟨told, hwalk, htells⟩ := logs hv n s []
  have hlog : v.log n s = told := by rw [log, hwalk, List.nil_append]
  refine ⟨?_, ?_, ?_, ?_, ?_, ?_⟩
  · rw [hwalk]
    exact ⟨rfl, rfl⟩
  · intro τ ρ w hw t
    have hcollapse : Call.collapse skips 0 (n.calls (fun _ => false) ++ []) = _ :=
      Node.collapse_calls n []
    rw [List.append_nil, Call.collapse, List.append_nil] at hcollapse
    rw [trace_eq hv, trace_eq hw, hcollapse]
  · rw [trace_eq hv]
    exact Node.balanced_calls skips n
  · rw [trace_eq hv]
    exact ⟨n.map_snd_lineages [], Node.nodes_calls rfl⟩
  · rw [hlog]
    exact htells.skipped
  · intro hn
    obtain ⟨inner, hinner, hcalls⟩ := htells.left hn
    refine ⟨inner, hlog.trans hinner, ?_⟩
    rw [hcalls]
    exact Call.Balanced.flatMap fun c _ => Node.balanced_calls skips c

theorem skips_recorder (skips : Kind → Bool) : (Trace.recorder skips).Skips skips := by
  intro n t
  simp only [Trace.recorder]
  cases skips n.kind <;> simp

/-- A function type without parameters and results. -/
def bareType : FuncType := ⟨⟨1, 7⟩, none, ⟨⟨5, 7⟩, []⟩, none⟩

/-- A function literal with nothing in it. -/
def bareLit : Expr := .funcLit ⟨1, 10⟩ bareType ⟨⟨8, 10⟩, []⟩

/-- If function types are skipped then nothing is told of the parameters of a literal, and a walk of
its type comes to nothing. -/
theorem trace_bareLit :
    (Trace.recorder (· == .funcType)).trace (.expr bareLit) Trace.empty =
      Call.collapse (· == .funcType) 0
        ((Trace.recorder fun _ => false).trace (.expr bareLit) Trace.empty) ∧
    (Trace.recorder (· == .funcType)).trace (.expr bareLit) Trace.empty =
      [.enter (.expr bareLit), .skip (.funcType bareType), .enter (.block ⟨⟨8, 10⟩, []⟩), .leave,
        .leave] ∧
    ((Trace.recorder (· == .funcType)).walk (.funcType bareType) Trace.empty).1 = none := by
  have hskips := skips_recorder (· == .funcType)
  refine ⟨?_, ?_, ?_⟩
  · obtain ⟨-, hcollapse, -⟩ := trace_eq_collapse _ _ hskips (.expr bareLit) Trace.empty
    exact hcollapse _ (skips_recorder _) Trace.empty
  · rw [trace_eq hskips, Node.calls_of_enters rfl]
    simp only [Node.children, bareLit, Node.ofExpr, List.flatMap_cons, List.flatMap_nil]
    rw [Node.calls_of_skips rfl, Node.calls_of_enters rfl]
    rfl
  · obtain ⟨-, -, -, -, hskipped, -⟩ :=
      trace_eq_collapse _ _ hskips (.funcType bareType) Trace.empty
    exact (hskipped rfl).2

end Visitor

end UniformTree
