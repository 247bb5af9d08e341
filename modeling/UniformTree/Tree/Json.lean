import UniformTree.Json.Members
import UniformTree.Json.Quote
import UniformTree.Text.Decimal
import UniformTree.Tree.Basic
/-!
# Uniform trees as JSON

A tree is written as one object per node, without blanks; the label and the children are left out
where there are none. It may be read back from text with blanks, in another order, with members that
nobody knows, with arrays in place of objects, and with a kind as an object: but brackets may only
be nested `nestingLimit` deep, which leaves room for 63 levels of a tree.
-/

namespace UniformTree

namespace Tree

open Json

/-! ## Writing -/

/-- The name of a member and its colon. -/
def memberName (name : String) : List Char := quote name.toList ++ [':']

/-- A span as it is written. -/
def spanText (s : Span) : List Char :=
  '\x7b' :: memberName "start" ++ Text.digits s.start.toNat ++
    ',' :: memberName "end" ++ Text.digits s.stop.toNat ++ ['\x7d']

/-- A label as it is written, after the members before it. -/
def labelText : Option String → List Char
  | none => []
  | some l => ',' :: memberName "label" ++ quote l.toList

mutual

/-- A tree as it is written. -/
def text : Tree → List Char
  | ⟨kind, span, label, children⟩ =>
    '\x7b' :: memberName "kind" ++ quote kind.name.toList ++
      ',' :: memberName "span" ++ spanText span ++ labelText label ++ childrenText children ++
      ['\x7d']

/-- The children of a tree as they are written, after the members before them. -/
def childrenText : List Tree → List Char
  | [] => []
  | c :: cs => ',' :: memberName "children" ++ '[' :: text c ++ textAll cs ++ [']']

/-- Trees as they are written after the first one. -/
def textAll : List Tree → List Char
  | [] => []
  | c :: cs => ',' :: text c ++ textAll cs

end

/-- A tree as JSON text. -/
def toJson (t : Tree) : String := String.ofList t.text

/-! ## Reading -/

/-- At this many brackets within each other a text is refused. -/
def nestingLimit : Nat := 128

/-- The kind with a name. -/
def kindNamed (name : List Char) (s : List Char) : Except Refusal (Kind × List Char) :=
  match Kind.ofName? (String.ofList name) with
  | some k => .ok (k, s)
  | none => .error .mismatch

/-- The kind in an object whose only member has its name and no value. -/
def kindObject (s : List Char) : Except Refusal (Kind × List Char) := do
  let (name, r) ← readString s
  let (k, r) ← kindNamed name r
  let r ← readNull (← colon r)
  match skipSpace r with
  | [] => .error .truncated
  | '\x7d' :: r => return (k, r)
  | _ => .error .malformed

/-- A kind, by its name or as an object. -/
def readKind (depth : Nat) (s : List Char) : Except Refusal (Kind × List Char) :=
  match skipSpace s with
  | [] => .error .truncated
  | '"' :: r => do
    let (name, r) ← string r
    kindNamed name r
  | '\x7b' :: r => if depth ≤ 1 then .error .malformed else kindObject r
  | _ => .error .malformed

/-- A label, or `null` for none. -/
def readLabel (s : List Char) : Except Refusal (Option String × List Char) :=
  match skipSpace s with
  | 'n' :: r => do return (none, ← word "ull".toList r)
  | r => do
    let (l, r) ← readString r
    return (some (String.ofList l), r)

/-- The value of a member that must come once. -/
def once {α : Type} (old : Option α) (value : Reader α) (s : List Char) :
    Except Refusal (Option α × List Char) :=
  match old with
  | some _ => .error .mismatch
  | none => do
    let (x, r) ← value (← colon s)
    return (some x, r)

/-- The text after a member that nobody knows. -/
def skipMember (s : List Char) : Except Refusal (List Char) := do skipValue (← colon s)

/-- A member of a span. -/
def spanMember (key : List Char) (acc : Option UInt32 × Option UInt32) (s : List Char) :
    Except Refusal ((Option UInt32 × Option UInt32) × List Char) := do
  if key = "start".toList then
    let (x, r) ← once acc.1 readUInt32 s
    return ((x, acc.2), r)
  else if key = "end".toList then
    let (x, r) ← once acc.2 readUInt32 s
    return ((acc.1, x), r)
  else return (acc, ← skipMember s)

/-- One more element of an array; without one the array is too short. -/
def needed {α : Type} (first : Bool) (element : Reader α) (s : List Char) :
    Except Refusal (α × List Char) := do
  match ← nextElement first s with
  | (true, r) => element r
  | (false, _) => .error .mismatch

/-- One more element of an array, or a value in its place. -/
def elementOr {α : Type} (x : α) (element : Reader α) (s : List Char) :
    Except Refusal (α × List Char) := do
  match ← nextElement false s with
  | (true, r) => element r
  | (false, r) => return (x, r)

/-- A span, as an object or as an array of its ends. -/
def readSpan (depth : Nat) (s : List Char) : Except Refusal (Span × List Char) :=
  match skipSpace s with
  | [] => .error .truncated
  | '[' :: r =>
    if depth ≤ 1 then .error .malformed
    else do
      let (start, r) ← needed true readUInt32 r
      let (stop, r) ← needed false readUInt32 r
      return (⟨start, stop⟩, ← closeArray r)
  | '\x7b' :: r =>
    if depth ≤ 1 then .error .malformed
    else do
      match ← members spanMember true (none, none) r with
      | ((some start, some stop), r) => return (⟨start, stop⟩, r)
      | _ => .error .mismatch
  | r => .error (wrongForm r)

/-- The members of a node that have been read. -/
structure Draft where
  kind : Option Kind
  span : Option Span
  label : Option (Option String)
  children : Option (List Tree)

/-- No member has been read. -/
def Draft.empty : Draft := ⟨none, none, none, none⟩

/-- The tree with the members that have been read, if the needed ones are there. -/
def Draft.tree? (p : Draft) : Option Tree :=
  match p.kind, p.span with
  | some kind, some span => some ⟨kind, span, p.label.getD none, p.children.getD []⟩
  | _, _ => none

/-- Children, each read by `child`. -/
def readChildren (depth : Nat) (child : Reader Tree) (s : List Char) :
    Except Refusal (List Tree × List Char) :=
  match skipSpace s with
  | [] => .error .truncated
  | '[' :: r => if depth ≤ 1 then .error .malformed else elements child true r
  | r => .error (wrongForm r)

/-- A member of a node. -/
def treeMember (depth : Nat) (child : Reader Tree) (key : List Char) (p : Draft)
    (s : List Char) : Except Refusal (Draft × List Char) := do
  if key = "kind".toList then
    let (x, r) ← once p.kind (readKind depth) s
    return ({ p with kind := x }, r)
  else if key = "span".toList then
    let (x, r) ← once p.span (readSpan depth) s
    return ({ p with span := x }, r)
  else if key = "label".toList then
    let (x, r) ← once p.label readLabel s
    return ({ p with label := x }, r)
  else if key = "children".toList then
    let (x, r) ← once p.children (readChildren depth child) s
    return ({ p with children := x }, r)
  else return (p, ← skipMember s)

/-- A node as an object, after its opening brace. -/
def treeObject (depth : Nat) (child : Reader Tree) (s : List Char) :
    Except Refusal (Tree × List Char) := do
  let (p, r) ← members (treeMember depth child) true Draft.empty s
  match p.tree? with
  | some t => return (t, r)
  | none => .error .mismatch

/-- A node as an array, after its opening bracket: its label and its children may be missing. -/
def treeArray (depth : Nat) (child : Reader Tree) (s : List Char) :
    Except Refusal (Tree × List Char) := do
  let (kind, r) ← needed true (readKind depth) s
  let (span, r) ← needed false (readSpan depth) r
  let (label, r) ← elementOr none readLabel r
  let (children, r) ← elementOr [] (readChildren depth child) r
  return (⟨kind, span, label, children⟩, ← closeArray r)

/-- A node of a tree. A node opens one bracket and its children are in another one. -/
def readTree : Nat → Reader Tree
  | 0, s | 1, s =>
    match skipSpace s with
    | [] => .error .truncated
    | '[' :: _ | '\x7b' :: _ => .error .malformed
    | r => .error (wrongForm r)
  | depth + 2, s =>
    match skipSpace s with
    | [] => .error .truncated
    | '[' :: r => treeArray (depth + 1) (readTree depth) r
    | '\x7b' :: r => treeObject (depth + 1) (readTree depth) r
    | r => .error (wrongForm r)

/-- The tree that a text describes. -/
def ofJson (s : String) : Except Refusal Tree := do
  let (t, r) ← readTree nestingLimit s.toList
  match skipSpace r with
  | [] => return t
  | _ => .error .malformed

end Tree

end UniformTree
