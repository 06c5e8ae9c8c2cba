/-! Kinds of tree nodes, and the names under which a parent finds a child. -/
namespace Asyncify

/-- The kinds the rules tell apart; every other node is `other`. -/
inductive Kind where
  | call | member | subscript | identifier | propertyName | thisObject
  | functionDeclaration | functionExpression | arrowFunction | method
  | property | awaited | ifStatement | elseClause | tryStatement | block
  | expressionStatement | variableDeclarator | assignment | importStatement
  | string | parenthesized | binary | field | parameters | arguments | comment | other
  deriving DecidableEq, Repr

namespace Kind

/-- The grammars for JavaScript, TypeScript and TSX share these symbols. The keyword token
`function` has its own text as symbol and counts as a function expression. -/
def ofSymbol : String → Kind
  | "call_expression" => call
  | "member_expression" => member
  | "subscript_expression" => subscript
  | "identifier" => identifier
  | "property_identifier" | "private_property_identifier" => propertyName
  | "this" => thisObject
  | "function_declaration" | "generator_function_declaration" => functionDeclaration
  | "function_expression" | "function" | "generator_function" => functionExpression
  | "arrow_function" => arrowFunction
  | "method_definition" => method
  | "pair" => property
  | "await_expression" => awaited
  | "if_statement" => ifStatement
  | "else_clause" => elseClause
  | "try_statement" => tryStatement
  | "statement_block" => block
  | "expression_statement" => expressionStatement
  | "variable_declarator" => variableDeclarator
  | "assignment_expression" => assignment
  | "import_statement" => importStatement
  | "string" => string
  | "parenthesized_expression" => parenthesized
  | "binary_expression" => binary
  | "field_definition" | "public_field_definition" | "class_static_block" => field
  | "formal_parameters" => parameters
  | "arguments" => arguments
  | "comment" => comment
  | _ => other

def name : Kind → String
  | call => "call"
  | member => "member"
  | subscript => "subscript"
  | identifier => "identifier"
  | propertyName => "property_name"
  | thisObject => "this"
  | functionDeclaration => "function_declaration"
  | functionExpression => "function_expression"
  | arrowFunction => "arrow_function"
  | method => "method"
  | property => "property"
  | awaited => "await"
  | ifStatement => "if"
  | elseClause => "else"
  | tryStatement => "try"
  | block => "block"
  | expressionStatement => "expression_statement"
  | variableDeclarator => "variable_declarator"
  | assignment => "assignment"
  | importStatement => "import"
  | string => "string"
  | parenthesized => "parenthesized"
  | binary => "binary"
  | field => "field"
  | parameters => "parameters"
  | arguments => "arguments"
  | comment => "comment"
  | other => "other"

/-- Function values that can stand as an argument of a call. -/
def isFunctionLiteral : Kind → Bool
  | functionExpression | arrowFunction => true
  | _ => false

def isFunction : Kind → Bool
  | functionDeclaration | functionExpression | arrowFunction | method => true
  | _ => false

theorem isFunction_of_isFunctionLiteral {k : Kind} (h : k.isFunctionLiteral) : k.isFunction := by
  cases k <;> simp_all [isFunctionLiteral, isFunction]

end Kind

/-- The roles a child can have in its parent. -/
inductive Field where
  | function | object | property | arguments | parameter | parameters | value | pattern
  | name | key | body | left | right | operator | condition | consequence | alternative | source
  deriving DecidableEq, Repr

namespace Field

def ofName? : String → Option Field
  | "function" => some function
  | "object" => some object
  | "property" => some property
  | "arguments" => some arguments
  | "parameter" => some parameter
  | "parameters" => some parameters
  | "value" => some value
  | "pattern" => some pattern
  | "name" => some name
  | "key" => some key
  | "body" => some body
  | "left" => some left
  | "right" => some right
  | "operator" => some operator
  | "condition" => some condition
  | "consequence" => some consequence
  | "alternative" => some alternative
  | "source" => some source
  | _ => none

end Field
end Asyncify
