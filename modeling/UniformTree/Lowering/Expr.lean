import UniformTree.Lowering.Fields
/-!
# Lowering: expressions and types

The parts of a form are lowered in the order in which they are written here, which decides which of
two that could own the same comment gets it.
-/

namespace UniformTree

namespace Lowering

variable (src : Placed) (below : Below)

/-- The operator in the field of that name. -/
def operator (n : Concrete) : String :=
  match n.child? "operator" with
  | some c => c.kind
  | none => ""

/-- Which way a channel type goes: to receive from it the arrow comes first. -/
def chanDir (n : Concrete) : ChanDir :=
  match n.children.findIdx? (·.kind == "<-") with
  | some 0 => .recv
  | some _ => .send
  | none => .both

/-- The last argument of a list of arguments is spread. -/
def isSpread (n : Concrete) : Bool :=
  (n.token? ["..."]).isSome || n.parts.any (·.kind == "variadic_argument")

/-- The function that a call calls, with its type arguments. -/
def callee (n : Concrete) : Lower Expr := do
  let fn ← exprIn src below n "function"
  match n.child? "type_arguments" with
  | some targs =>
    let indices ← exprEach below targs.parts
    return instantiate ⟨fn.span.start, src.pos targs.stop⟩ fn indices
  | none => return fn

/-- A call. -/
def call (n : Concrete) : Lower Expr := do
  let fn ← callee src below n
  match n.child? "arguments" with
  | some list =>
    let args ← exprEach below list.parts
    return .call (src.span n) fn args (isSpread list)
  | none => return .call (src.span n) fn [] false

/-- A union of types: its terms joined from the left. -/
def union (n : Concrete) : Lower Expr := do
  match ← exprEach below n.parts with
  | [] => return .bad (src.span n)
  | first :: rest =>
    return rest.foldl (fun x y => .binary (Span.cover x.span y.span) x "|" y) first

/-- A key and its value, by their fields or else by their places. -/
def keyed (n : Concrete) : Lower Expr := do
  let key ← exprOf src below n (n.child? "key" <|> n.parts[0]?)
  let value ← exprOf src below n (n.child? "value" <|> n.parts[1]?)
  return .keyValue (src.span n) key value

/-- A function literal. -/
def funcLit (n : Concrete) : Lower Expr := do
  let type ← signature src below n (src.pos n.start)
  let body ← blockIn src below n "body"
  return .funcLit (src.span n) type body

/-- A composite literal with its type. -/
def compositeLit (n : Concrete) : Lower Expr := do
  let type ← exprIn src below n "type"
  match n.child? "body" with
  | some body =>
    let elts ← exprEach below body.parts
    return .compositeLit (src.span n) (some type) elts
  | none => return .compositeLit (src.span n) (some type) []

/-- A generic type with its arguments. -/
def genericType (n : Concrete) : Lower Expr := do
  let x ← exprIn src below n "type"
  match n.child? "type_arguments" with
  | some targs =>
    let indices ← exprEach below targs.parts
    return instantiate (src.span n) x indices
  | none => return instantiate (src.span n) x []

/-- A struct type. -/
def structType (n : Concrete) : Lower Expr :=
  match n.parts.head? with
  | some list => do
    let fields ← structFields src below list
    return .structType (src.span n) fields
  | none => return .structType (src.span n) ⟨src.span n, []⟩

/-- A unary expression; a star takes what a pointer points to. -/
def unary (n : Concrete) : Lower Expr := do
  let x ← exprIn src below n "operand"
  if operator n == "*" then return .star (src.span n) x
  else return .unary (src.span n) (operator n) x

/-- The length `...` of an array. -/
def countedLength (n : Concrete) : Expr :=
  match n.token? ["..."] with
  | some dots => .ellipsis (src.span dots) none
  | none => .ellipsis (src.span n) none

/-- A node as an expression or a type. -/
def expr (n : Concrete) : Lower Expr := do
  let span := src.span n
  match ExprForm.ofKind n.kind with
  | .name => return .ident (ident src n)
  | .literal => return .basicLit (basicLit src n)
  | .paren => return .paren span (← firstExpr src below n)
  | .funcLit => funcLit src below n
  | .compositeLit => compositeLit src below n
  | .literalValue => return .compositeLit span none (← exprEach below n.parts)
  | .wrapper => firstExpr src below n
  | .keyed => keyed src below n
  | .selector =>
    let x ← exprIn src below n "operand"
    return .selector span x (identIn src n "field")
  | .index =>
    let x ← exprIn src below n "operand"
    let indices ← exprEach below (n.partsIn "index")
    return instantiate span x indices
  | .instantiation =>
    let x ← exprIn src below n "type"
    let indices ← exprEach below (n.partsBeside "type")
    return instantiate span x indices
  | .generic => genericType src below n
  | .slice =>
    let x ← exprIn src below n "operand"
    let low ← exprIn? below n "start"
    let high ← exprIn? below n "end"
    let max ← exprIn? below n "capacity"
    return .slice span x low high max
  | .typeAssert =>
    let x ← exprIn src below n "operand"
    let type ← exprIn? below n "type"
    return .typeAssert span x type
  | .call => call src below n
  | .conversion =>
    let fn ← exprIn src below n "type"
    let arg ← exprIn src below n "operand"
    return .call span fn [arg] false
  | .unary => unary src below n
  | .binary =>
    let x ← exprIn src below n "left"
    let y ← exprIn src below n "right"
    return .binary span x (operator n) y
  | .negated => return .unary span "~" (← firstExpr src below n)
  | .union => union src below n
  | .pointer => return .star span (← firstExpr src below n)
  | .array =>
    let len ← exprIn src below n "length"
    let elt ← exprIn src below n "element"
    return .arrayType span (some len) elt
  | .countedArray =>
    return .arrayType span (some (countedLength src n)) (← exprIn src below n "element")
  | .sliceType => return .arrayType span none (← exprIn src below n "element")
  | .map =>
    let key ← exprIn src below n "key"
    let value ← exprIn src below n "value"
    return .mapType span key value
  | .channel => return .chanType span (chanDir n) (← exprIn src below n "value")
  | .struct => structType src below n
  | .interface => return .interfaceType span (← elements src below n)
  | .function => return .funcType (← signature src below n (src.pos n.start))
  | .qualified => return .selector span (.ident (identIn src n "package")) (identIn src n "name")
  | .unknown => return .bad span

end Lowering

end UniformTree
