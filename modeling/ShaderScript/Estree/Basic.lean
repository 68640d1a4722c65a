/-!
# ESTree documents

ESTree is the JSON shape in which parsers of scripts hand over a program. The dialect admits the
node types listed here.

* `NodeType`: the admitted types, with their names and fields.
* `Node`: a document, one constructor for each type.
* `Error`: why a document is refused.
-/

namespace ShaderScript.Estree

/-- A node type that the dialect admits. -/
inductive NodeType where
  | program
  | functionDeclaration
  | variableDeclaration
  | variableDeclarator
  | blockStatement
  | expressionStatement
  | emptyStatement
  | ifStatement
  | forStatement
  | returnStatement
  | conditionalExpression
  | binaryExpression
  | logicalExpression
  | assignmentExpression
  | unaryExpression
  | updateExpression
  | callExpression
  | memberExpression
  | arrayExpression
  | identifier
  | thisExpression
  | literal
  | sequenceExpression
deriving DecidableEq, Inhabited

namespace NodeType

/-- Every admitted type, in the order of its number. -/
def all : List NodeType :=
  [program, functionDeclaration, variableDeclaration, variableDeclarator, blockStatement,
    expressionStatement, emptyStatement, ifStatement, forStatement, returnStatement,
    conditionalExpression, binaryExpression, logicalExpression, assignmentExpression,
    unaryExpression, updateExpression, callExpression, memberExpression, arrayExpression,
    identifier, thisExpression, literal, sequenceExpression]

/-- The name of a type in a document. -/
def name : NodeType → String
  | program => "Program"
  | functionDeclaration => "FunctionDeclaration"
  | variableDeclaration => "VariableDeclaration"
  | variableDeclarator => "VariableDeclarator"
  | blockStatement => "BlockStatement"
  | expressionStatement => "ExpressionStatement"
  | emptyStatement => "EmptyStatement"
  | ifStatement => "IfStatement"
  | forStatement => "ForStatement"
  | returnStatement => "ReturnStatement"
  | conditionalExpression => "ConditionalExpression"
  | binaryExpression => "BinaryExpression"
  | logicalExpression => "LogicalExpression"
  | assignmentExpression => "AssignmentExpression"
  | unaryExpression => "UnaryExpression"
  | updateExpression => "UpdateExpression"
  | callExpression => "CallExpression"
  | memberExpression => "MemberExpression"
  | arrayExpression => "ArrayExpression"
  | identifier => "Identifier"
  | thisExpression => "ThisExpression"
  | literal => "Literal"
  | sequenceExpression => "SequenceExpression"

/-- The type with a name. -/
def ofName? (s : String) : Option NodeType := all.find? fun t => t.name == s

/-- The fields of a node of this type, in order. -/
def fields : NodeType → List String
  | program | blockStatement => ["body"]
  | functionDeclaration => ["id", "params", "body"]
  | variableDeclaration => ["declarations"]
  | variableDeclarator => ["id", "init"]
  | expressionStatement => ["expression"]
  | emptyStatement | thisExpression => []
  | ifStatement | conditionalExpression => ["test", "consequent", "alternate"]
  | forStatement => ["init", "test", "update", "body"]
  | returnStatement => ["argument"]
  | binaryExpression | logicalExpression | assignmentExpression => ["operator", "left", "right"]
  | unaryExpression => ["operator", "argument"]
  | updateExpression => ["operator", "prefix", "argument"]
  | callExpression => ["callee", "arguments"]
  | memberExpression => ["object", "property", "computed"]
  | arrayExpression => ["elements"]
  | identifier => ["name"]
  | literal => ["value", "raw"]
  | sequenceExpression => ["expressions"]

theorem ofName?_name (t : NodeType) : ofName? t.name = some t := by cases t <;> rfl

end NodeType

/-- The value of a literal: a truth value, the text of a number, or the text of anything else. -/
inductive LiteralValue where
  | bool (value : Bool)
  | number (text : String)
  | other (text : String)
deriving DecidableEq, Inhabited

/-- A document. -/
inductive Node where
  | program (body : List Node)
  | functionDeclaration (id : Node) (params : List Node) (body : Node)
  | variableDeclaration (declarations : List Node)
  | variableDeclarator (id : Node) (init : Option Node)
  | blockStatement (body : List Node)
  | expressionStatement (expression : Node)
  | emptyStatement
  | ifStatement (test consequent : Node) (alternate : Option Node)
  | forStatement (init test update : Option Node) (body : Node)
  | returnStatement (argument : Option Node)
  | conditionalExpression (test consequent alternate : Node)
  | binaryExpression (operator : String) (left right : Node)
  | logicalExpression (operator : String) (left right : Node)
  | assignmentExpression (operator : String) (left right : Node)
  | unaryExpression (operator : String) (argument : Node)
  | updateExpression (operator : String) (leading : Bool) (argument : Node)
  | callExpression (callee : Node) (arguments : List Node)
  | memberExpression (object property : Node) (computed : Bool)
  | arrayExpression (elements : List Node)
  | identifier (name : String)
  | thisExpression
  | literal (value : LiteralValue) (raw : Option String)
  | sequenceExpression (expressions : List Node)
deriving Inhabited

/-- The type of a node. -/
def Node.type : Node → NodeType
  | program .. => .program
  | functionDeclaration .. => .functionDeclaration
  | variableDeclaration .. => .variableDeclaration
  | variableDeclarator .. => .variableDeclarator
  | blockStatement .. => .blockStatement
  | expressionStatement .. => .expressionStatement
  | emptyStatement => .emptyStatement
  | ifStatement .. => .ifStatement
  | forStatement .. => .forStatement
  | returnStatement .. => .returnStatement
  | conditionalExpression .. => .conditionalExpression
  | binaryExpression .. => .binaryExpression
  | logicalExpression .. => .logicalExpression
  | assignmentExpression .. => .assignmentExpression
  | unaryExpression .. => .unaryExpression
  | updateExpression .. => .updateExpression
  | callExpression .. => .callExpression
  | memberExpression .. => .memberExpression
  | arrayExpression .. => .arrayExpression
  | identifier .. => .identifier
  | thisExpression => .thisExpression
  | literal .. => .literal
  | sequenceExpression .. => .sequenceExpression

/-- Why a document is refused. -/
inductive Error where
  /-- The text is not JSON. -/
  | notJson
  /-- A field is missing or has the wrong shape. -/
  | wrongShape
  | unsupportedNode (what : String)
  | unsupportedOperator (operator : String)
  | unsupportedLiteral (text : String)
  | notAProgram (found : String)
deriving DecidableEq, Inhabited

/-- The text of an error. -/
def Error.message : Error → String
  | notJson => "invalid ESTree JSON: the text is not JSON"
  | wrongShape => "invalid ESTree JSON: a field is missing or has the wrong shape"
  | unsupportedNode what => "unsupported syntax: " ++ what ++ " is not part of the shader dialect"
  | unsupportedOperator operator => "unsupported operator '" ++ operator ++ "'"
  | unsupportedLiteral text =>
    "unsupported literal " ++ text ++ ": only numbers and booleans are allowed"
  | notAProgram found => "expected a Program at the top level, found " ++ found

end ShaderScript.Estree
