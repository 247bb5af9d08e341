import UniformTree.Lowering.Basic
/-!
# Lowering: field lists

Parameters, results, struct fields and interface elements.
-/

namespace UniformTree

namespace Lowering

variable (src : Placed) (below : Below)

/-- The names in a field of a node. -/
def namesIn (n : Concrete) (f : String) : List Ident := (n.partsIn f).map (ident src)

/-- The type of a parameter: after `...`, in a variadic one, an ellipsis over both. -/
def paramType (n : Concrete) (type : Expr) : Expr :=
  if n.kind == "variadic_parameter_declaration" then
    match n.token? ["..."] with
    | some dots => .ellipsis ⟨src.pos dots.start, type.span.stop⟩ (some type)
    | none => type
  else type

/-- A parameter. -/
def param (n : Concrete) : Lower Field := do
  let type ← exprIn src below n "type"
  return ⟨src.span n, none, namesIn src n "name", paramType src n type, none, none⟩

/-- A list of parameters or of type parameters. -/
def params (n : Concrete) : Lower FieldList := do
  let list ← n.parts.mapM (param src below)
  return ⟨src.span n, list⟩

/-- A list of parameters in a field that may be absent. -/
def paramsIn? (n : Concrete) (f : String) : Lower (Option FieldList) :=
  match n.child? f with
  | some c => some <$> params src below c
  | none => pure none

/-- The results of a function: a list of parameters, or one type that stands alone. -/
def results (n : Concrete) : Lower FieldList :=
  if n.kind == "parameter_list" then params src below n
  else do
    let type ← below.expr n
    return ⟨src.span n, [⟨src.span n, none, [], type, none, none⟩]⟩

/-- The parameters of a function; none if the list is absent. -/
def paramsOf (n : Concrete) : Lower FieldList :=
  match n.child? "parameters" with
  | some c => params src below c
  | none => pure ⟨src.span n, []⟩

/-- The results of a function that may have none. -/
def resultsOf (n : Concrete) : Lower (Option FieldList) :=
  match n.child? "result" with
  | some c => some <$> results src below c
  | none => pure none

/-- The function type that a node describes, from a position to the end of its results, or of its
parameters if it has none. -/
def signature (n : Concrete) (start : UInt32) : Lower FuncType := do
  let typeParams ← paramsIn? src below n "type_parameters"
  let params ← paramsOf src below n
  let results ← resultsOf src below n
  let stop := match results with
    | some r => r.span.stop
    | none => params.span.stop
  return ⟨⟨start, stop⟩, typeParams, params, results⟩

/-- The type of a struct field: an embedded one may be a pointer to it. -/
def embeddedType (n : Concrete) (names : List Ident) (type : Expr) : Expr :=
  if names.isEmpty then
    match n.token? ["*"] with
    | some star => .star ⟨src.pos star.start, type.span.stop⟩ type
    | none => type
  else type

/-- A field of a struct. -/
def structField (n : Concrete) : Lower Field := do
  let doc ← takeDoc src n
  let names := namesIn src n "name"
  let type ← exprIn src below n "type"
  let tag := (n.child? "tag").map (basicLit src)
  let line ← takeLine src n
  return ⟨src.span n, doc, names, embeddedType src n names type, tag, line⟩

/-- The fields of a struct. -/
def structFields (n : Concrete) : Lower FieldList := do
  let list ← n.parts.mapM (structField src below)
  return ⟨src.span n, list⟩

/-- The node is a method of an interface. -/
def isMethod (n : Concrete) : Bool := n.kind == "method_elem" || n.kind == "method_spec"

/-- Where the signature of a method begins: at its parameters. -/
def methodStart (n : Concrete) : Nat :=
  match n.child? "parameters" with
  | some c => c.start
  | none => n.start

/-- What an element of an interface names and describes: a method, or a type that stands alone. -/
def elementType (n : Concrete) : Lower (List Ident × Expr) :=
  if isMethod n then do
    let type ← signature src below n (src.pos (methodStart n))
    return ([identIn src n "name"], .funcType type)
  else do
    let type ← below.expr n
    return ([], type)

/-- An element of an interface. -/
def element (n : Concrete) : Lower Field := do
  let doc ← takeDoc src n
  let (names, type) ← elementType src below n
  let line ← takeLine src n
  return ⟨src.span n, doc, names, type, none, line⟩

/-- The elements of an interface, between its braces. -/
def elements (n : Concrete) : Lower FieldList := do
  let list ← n.parts.mapM (element src below)
  return ⟨braceSpan src n, list⟩

end Lowering

end UniformTree
