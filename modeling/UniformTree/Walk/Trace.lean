import UniformTree.Walk.Visitor
/-!
# Traces

What a walk tells its visitor, written down. The recorder skips the nodes of some kinds and at the
end of a walk counts what it wrote.
-/

namespace UniformTree

/-- What sorts a node beyond its kind and label. -/
inductive Detail where
  | plain
  | literal (kind : LitKind)
  /-- The last argument of a call is spread. -/
  | spread (yes : Bool)
  /-- An empty statement is implicit. -/
  | implicit (yes : Bool)
  /-- A type spec is an alias. -/
  | isAlias (yes : Bool)
deriving DecidableEq, Repr

/-- A node without its children. -/
structure Shape where
  kind : Kind
  span : Span
  label : Option String
  detail : Detail
deriving DecidableEq, Repr

namespace Node

/-- The detail of a node. -/
def detail : Node → Detail
  | expr (.basicLit lit) => .literal lit.kind
  | expr (.call _ _ _ spread) => .spread spread
  | stmt (.empty _ implicit) => .implicit implicit
  | spec (.type _ _ _ _ isAlias _ _) => .isAlias isAlias
  | _ => .plain

/-- A node without its children. -/
def shape (n : Node) : Shape := ⟨n.kind, n.span, n.label, n.detail⟩

end Node

/-- One thing that a visitor is told. -/
inductive Event where
  | enter (shape : Shape)
  /-- The node is entered and skipped. -/
  | skip (shape : Shape)
  | leave
deriving DecidableEq, Repr

/-- What a walk has told so far. -/
structure Trace where
  /-- The events, the last one first. -/
  events : List Event
  /-- How many nodes are entered and not yet left. -/
  depth : Nat
deriving DecidableEq, Repr

namespace Trace

/-- Nothing yet. -/
def empty : Trace := ⟨[], 0⟩

/-- The visitor that writes down what it is told and skips the nodes of some kinds. Leaving the
outermost node gives the number of events. -/
def recorder (skips : Kind → Bool) : Visitor Trace Nat where
  enter n t :=
    if skips n.kind then (.skip, { t with events := .skip n.shape :: t.events })
    else (.children, ⟨.enter n.shape :: t.events, t.depth + 1⟩)
  leave t :=
    let t : Trace := ⟨.leave :: t.events, t.depth - 1⟩
    (if t.depth == 0 then some t.events.length else none, t)

/-- The events of a walk in order, and what the walk comes to. -/
def ofWalk (skips : Kind → Bool) (n : Node) : List Event × Option Nat :=
  let (result, t) := (recorder skips).walk n empty
  (t.events.reverse, result)

end Trace

/-- The visitor that gathers the nodes that it enters, the last one first. -/
def Visitor.gatherer : Visitor (List Node) Unit where
  enter n s := (.children, n :: s)
  leave s := (none, s)

/-- The nodes that a walk enters, in order. -/
def Node.visited (n : Node) : List Node := (Visitor.gatherer.walk n []).2.reverse

end UniformTree
