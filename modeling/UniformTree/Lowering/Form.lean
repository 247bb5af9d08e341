import UniformTree.Ast.Basic
/-!
# Forms

What a kind of concrete node stands for in each place where it may be read: as an expression, as a
statement, as a declaration. A kind that stands for nothing there is `unknown`.
-/

namespace UniformTree

/-- What a concrete kind is as an expression or a type. -/
inductive ExprForm where
  | name | literal | paren | funcLit | compositeLit | literalValue
  /-- A node that only wraps an expression. -/
  | wrapper
  | keyed | selector | index
  /-- A type with its arguments in brackets, without a field for them. -/
  | instantiation
  | generic | slice | typeAssert | call | conversion | unary | binary | negated | union
  | pointer | array
  /-- An array whose length is `...`. -/
  | countedArray
  | sliceType | map | channel | struct | interface | function | qualified
  | unknown
deriving DecidableEq, Repr

/-- The form of a kind as an expression. -/
def ExprForm.ofKind : String → ExprForm
  | "identifier" | "field_identifier" | "package_identifier" | "type_identifier" | "label_name"
  | "blank_identifier" | "dot" | "nil" | "true" | "false" | "iota" => name
  | "int_literal" | "float_literal" | "imaginary_literal" | "rune_literal"
  | "interpreted_string_literal" | "raw_string_literal" => literal
  | "parenthesized_expression" | "parenthesized_type" => paren
  | "func_literal" => funcLit
  | "composite_literal" => compositeLit
  | "literal_value" => literalValue
  | "literal_element" | "variadic_argument" => wrapper
  | "keyed_element" => keyed
  | "selector_expression" => selector
  | "index_expression" => index
  | "type_instantiation_expression" => instantiation
  | "generic_type" => generic
  | "slice_expression" => slice
  | "type_assertion_expression" => typeAssert
  | "call_expression" => call
  | "type_conversion_expression" => conversion
  | "unary_expression" => unary
  | "binary_expression" => binary
  | "negated_type" => negated
  | "type_elem" | "type_constraint" | "constraint_elem" => union
  | "pointer_type" => pointer
  | "array_type" => array
  | "implicit_length_array_type" => countedArray
  | "slice_type" => sliceType
  | "map_type" => map
  | "channel_type" => channel
  | "struct_type" => struct
  | "interface_type" => interface
  | "function_type" => function
  | "qualified_type" => qualified
  | _ => unknown

/-- What a literal of a concrete kind denotes; quoted text is the rule. -/
def LitKind.ofKind : String → LitKind
  | "int_literal" => int
  | "float_literal" => float
  | "imaginary_literal" => imag
  | "rune_literal" => char
  | _ => string

/-- What a concrete kind is as a statement. -/
inductive StmtForm where
  | expression | send | increment | decrement | assignment
  /-- An assignment that declares its targets. -/
  | definition
  /-- A receive operation in a clause of a select. -/
  | receive
  | labeled | empty
  /-- A jump, with the word that it begins with. -/
  | branch (tok : String)
  | returning | go | defer | block | ifElse | loop | switch | typeSwitch | select
  | declaration (tok : DeclToken)
  | unknown
deriving DecidableEq, Repr

/-- The form of a kind as a statement. -/
def StmtForm.ofKind : String → StmtForm
  | "expression_statement" => expression
  | "send_statement" => send
  | "inc_statement" => increment
  | "dec_statement" => decrement
  | "assignment_statement" => assignment
  | "short_var_declaration" => definition
  | "receive_statement" => receive
  | "labeled_statement" => labeled
  | "empty_statement" => empty
  | "fallthrough_statement" => branch "fallthrough"
  | "break_statement" => branch "break"
  | "continue_statement" => branch "continue"
  | "goto_statement" => branch "goto"
  | "return_statement" => returning
  | "go_statement" => go
  | "defer_statement" => defer
  | "block" => block
  | "if_statement" => ifElse
  | "for_statement" => loop
  | "expression_switch_statement" => switch
  | "type_switch_statement" => typeSwitch
  | "select_statement" => select
  | "const_declaration" => declaration .constant
  | "var_declaration" => declaration .variable
  | "type_declaration" => declaration .type
  | _ => unknown

/-- What a concrete kind is as a declaration. -/
inductive DeclForm where
  | func
  | gen (tok : DeclToken)
  | unknown
deriving DecidableEq, Repr

/-- The form of a kind as a declaration. -/
def DeclForm.ofKind : String → DeclForm
  | "function_declaration" | "method_declaration" => func
  | "import_declaration" => gen .importing
  | "const_declaration" => gen .constant
  | "var_declaration" => gen .variable
  | "type_declaration" => gen .type
  | _ => unknown

end UniformTree
