/-!
# Forms and roles

What a node of the syntax tree can be, and what a node can be to its parent. Both have names, under
which trees made by others speak of them.
-/

namespace Scad

/-- The forms of nodes that the grammar builds. -/
inductive Form where
  | sourceFile
  | moduleCall | unionBlock | emptyStatement | modifierChain | varDeclaration | moduleItem
  | functionItem | forBlock | intersectionForBlock | ifBlock | letBlock | assignBlock
  | includeStatement | useStatement | assertStatement
  | assignments | assignment | arguments | namedArgument | parameters | parameter
  | binaryExpression | unaryExpression | ternaryExpression | parenthesizedExpression
  | functionCall | indexExpression | dotIndexExpression | letExpression | assertExpression
  | echoExpression | functionLiteral | list | range | listComprehension | ifComprehension | each
  | identifier | specialVariable | number | string | boolean | undef | operator | modifier
  | includePath
deriving DecidableEq, Repr, Inhabited

namespace Form

def name : Form → String
  | sourceFile => "source_file"
  | moduleCall => "module_call"
  | unionBlock => "union_block"
  | emptyStatement => "empty_statement"
  | modifierChain => "modifier_chain"
  | varDeclaration => "var_declaration"
  | moduleItem => "module_item"
  | functionItem => "function_item"
  | forBlock => "for_block"
  | intersectionForBlock => "intersection_for_block"
  | ifBlock => "if_block"
  | letBlock => "let_block"
  | assignBlock => "assign_block"
  | includeStatement => "include_statement"
  | useStatement => "use_statement"
  | assertStatement => "assert_statement"
  | assignments => "assignments"
  | assignment => "assignment"
  | arguments => "arguments"
  | namedArgument => "named_argument"
  | parameters => "parameters"
  | parameter => "parameter"
  | binaryExpression => "binary_expression"
  | unaryExpression => "unary_expression"
  | ternaryExpression => "ternary_expression"
  | parenthesizedExpression => "parenthesized_expression"
  | functionCall => "function_call"
  | indexExpression => "index_expression"
  | dotIndexExpression => "dot_index_expression"
  | letExpression => "let_expression"
  | assertExpression => "assert_expression"
  | echoExpression => "echo_expression"
  | functionLiteral => "function_literal"
  | list => "list"
  | range => "range"
  | listComprehension => "list_comprehension"
  | ifComprehension => "if_comprehension"
  | each => "each"
  | identifier => "identifier"
  | specialVariable => "special_variable"
  | number => "number"
  | string => "string"
  | boolean => "boolean"
  | undef => "undef"
  | operator => "operator"
  | modifier => "modifier"
  | includePath => "include_path"

/-- All forms. -/
def all : List Form :=
  [sourceFile, moduleCall, unionBlock, emptyStatement, modifierChain, varDeclaration, moduleItem,
    functionItem, forBlock, intersectionForBlock, ifBlock, letBlock, assignBlock, includeStatement,
    useStatement, assertStatement, assignments, assignment, arguments, namedArgument, parameters,
    parameter, binaryExpression, unaryExpression, ternaryExpression, parenthesizedExpression,
    functionCall, indexExpression, dotIndexExpression, letExpression, assertExpression,
    echoExpression, functionLiteral, list, range, listComprehension, ifComprehension, each,
    identifier, specialVariable, number, string, boolean, undef, operator, modifier, includePath]

/-- The form with this name. -/
def ofName? (s : String) : Option Form := all.find? fun f => f.name == s

/-- The forms of literals. -/
def isLiteral : Form → Bool
  | number | string | boolean | undef => true
  | _ => false

end Form

/-- What a node is to its parent. The grammar never uses `other`. -/
inductive Role where
  | name | value | body | modifier | statement | path | condition | consequence | alternative
  | parameters | arguments | bindings | default | operator | left | right | operand | function
  | index | field | expression | init | update | start | step | stop
  | other (name : String)
deriving DecidableEq, Repr

namespace Role

def text : Role → String
  | name => "name"
  | value => "value"
  | body => "body"
  | modifier => "modifier"
  | statement => "statement"
  | path => "path"
  | condition => "condition"
  | consequence => "consequence"
  | alternative => "alternative"
  | parameters => "parameters"
  | arguments => "arguments"
  | bindings => "bindings"
  | default => "default"
  | operator => "operator"
  | left => "left"
  | right => "right"
  | operand => "operand"
  | function => "function"
  | index => "index"
  | field => "field"
  | expression => "expression"
  | init => "init"
  | update => "update"
  | start => "start"
  | step => "step"
  | stop => "end"
  | other s => s

/-- The roles that the grammar uses. -/
def all : List Role :=
  [name, value, body, modifier, statement, path, condition, consequence, alternative, parameters,
    arguments, bindings, default, operator, left, right, operand, function, index, field,
    expression, init, update, start, step, stop]

/-- The role with this name. -/
def ofText (s : String) : Role := (all.find? fun r => r.text == s).getD (other s)

end Role
end Scad
