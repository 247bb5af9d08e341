import UniformTree.Lowering.Expr
/-!
# Lowering: declarations

A general declaration holds specs, some of them within parentheses; each spec is lowered after the
word that the declaration begins with.
-/

namespace UniformTree

namespace Lowering

variable (src : Placed) (below : Below)

/-- The kinds of the parenthesized lists of specs. -/
def specListKinds : List String :=
  ["import_spec_list", "var_spec_list", "const_spec_list", "type_spec_list"]

/-- The kinds of specs. -/
def specKinds : List String :=
  ["import_spec", "const_spec", "var_spec", "type_spec", "type_alias"]

mutual

/-- The spec that a node is, or those in the list that it is. -/
def specsOf : Concrete → List Concrete
  | ⟨kind, field, start, stop, isNamed, isError, isMissing, children⟩ =>
    if !isNamed then []
    else if specListKinds.contains kind then specsOfAll children
    else if specKinds.contains kind then
      [⟨kind, field, start, stop, isNamed, isError, isMissing, children⟩]
    else []

/-- The specs of the nodes of a list, in order. -/
def specsOfAll : List Concrete → List Concrete
  | [] => []
  | c :: cs => specsOf c ++ specsOfAll cs

end

/-- The specs of a declaration. -/
def specNodes (n : Concrete) : List Concrete := specsOfAll n.children

/-- An import. -/
def importSpec (n : Concrete) : Lower Spec := do
  let doc ← takeDoc src n
  let path := match n.child? "path" with
    | some c => basicLit src c
    | none => ⟨src.span n, .string, ""⟩
  let line ← takeLine src n
  return .importing (src.span n) doc ((n.child? "name").map (ident src)) path line

/-- Constants or variables. -/
def valueSpec (n : Concrete) : Lower Spec := do
  let doc ← takeDoc src n
  let type ← exprIn? below n "type"
  let values ← exprsIn below n "value"
  let line ← takeLine src n
  return .value (src.span n) doc (namesIn src n "name") type values line

/-- A type or the alias of one. -/
def typeSpec (n : Concrete) : Lower Spec := do
  let doc ← takeDoc src n
  let typeParams ← paramsIn? src below n "type_parameters"
  let type ← exprIn src below n "type"
  let line ← takeLine src n
  return .type (src.span n) doc (identIn src n "name") typeParams (n.kind == "type_alias") type line

/-- A spec of a declaration. -/
def spec (tok : DeclToken) (n : Concrete) : Lower Spec :=
  match tok with
  | .importing => importSpec src n
  | .constant | .variable => valueSpec src below n
  | .type => typeSpec src below n

/-- A general declaration. -/
def genDecl (tok : DeclToken) (n : Concrete) : Lower Decl := do
  let doc ← takeDoc src n
  let specs ← (specNodes n).mapM (spec src below tok)
  return .gen (src.span n) doc tok specs

/-- The body of a function; there is none if it is defined elsewhere. -/
def bodyOf (n : Concrete) : Lower (Option BlockStmt) :=
  match n.child? "body" with
  | some c => some <$> block src below c
  | none => pure none

/-- A function or a method. -/
def funcDecl (n : Concrete) : Lower Decl := do
  let doc ← takeDoc src n
  let recv ← paramsIn? src below n "receiver"
  let type ← signature src below n (src.pos n.start)
  let body ← bodyOf src below n
  return .func (src.span n) doc recv (identIn src n "name") type body

/-- A node as a declaration. -/
def decl (n : Concrete) : Lower Decl :=
  match DeclForm.ofKind n.kind with
  | .func => funcDecl src below n
  | .gen tok => genDecl src below tok n
  | .unknown => return .bad (src.span n)

end Lowering

end UniformTree
