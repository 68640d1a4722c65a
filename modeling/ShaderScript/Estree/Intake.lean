import ShaderScript.Builder
import ShaderScript.Estree.Decode

/-!
# From ESTree documents to syntax graphs

Nodes are added bottom up, children in source order. An empty statement adds nothing, except that
as a body it becomes an empty block.

* `ofJson`: the program that a JSON value holds.
* `ofText`: the program that a JSON text spells.
-/

namespace ShaderScript.Estree

/-- A computation that adds to a draft or refuses the document. -/
abbrev Intake := StateT Draft (Except Error)

/-- Adds a node. -/
def add (k : Kind) : Intake Id := fun d => .ok (Build.node k d)

/-- The operator that a text spells. -/
def operator (read? : String → Option α) (text : String) : Intake α :=
  match read? text with
  | some op => pure op
  | none => throw (.unsupportedOperator text)

/-- What a literal is; only numbers and truth values are admitted. A number is kept in the spelling
of the script where that is known. -/
def literalKind : LiteralValue → Option String → Intake Kind
  | .bool value, _ => pure (.bool value)
  | .number text, raw => pure (.number (raw.getD text))
  | .other text, raw => throw (.unsupportedLiteral (raw.getD text))

/-- The node that stands as a body. -/
def asBody : Option Id → Intake Id
  | some i => pure i
  | none => add (.block [])

/-- Refuses a node in the position of an expression. -/
def notAnExpression (t : NodeType) : Intake α :=
  throw (.unsupportedNode (t.name ++ " as an expression"))

/-- Refuses a node in the position of a statement. -/
def notAStatement (t : NodeType) : Intake α :=
  throw (.unsupportedNode (t.name ++ " as a statement"))

mutual

/-- Adds an expression. -/
def expr : Node → Intake Id
  | .conditionalExpression test consequent alternate => do
    add (.conditional (← expr test) (← expr consequent) (← expr alternate))
  | .binaryExpression op left right | .logicalExpression op left right => do
    add (.binary (← operator BinaryOp.ofSource? op) (← expr left) (← expr right))
  | .assignmentExpression op left right => do
    add (.assign (← operator AssignOp.ofSource? op) (← expr left) (← expr right))
  | .unaryExpression op argument => do
    add (.unary (← operator UnaryOp.ofSource? op) (← expr argument))
  | .updateExpression op leading argument => do
    add (.update (← operator UpdateOp.ofSource? op) leading (← expr argument))
  | .callExpression callee arguments => do add (.call (← expr callee) (← exprs arguments))
  | .memberExpression object property computed => do
    let object ← expr object
    let property ← expr property
    add (if computed then .index object property else .field object property)
  | .arrayExpression elements => do add (.array (← exprs elements))
  | .sequenceExpression expressions => do add (.sequence (← exprs expressions))
  | .identifier name => add (.ident name)
  | .thisExpression => add .this
  | .literal value raw => do add (← literalKind value raw)
  | .program .. => notAnExpression .program
  | .functionDeclaration .. => notAnExpression .functionDeclaration
  | .variableDeclaration .. => notAnExpression .variableDeclaration
  | .variableDeclarator .. => notAnExpression .variableDeclarator
  | .blockStatement .. => notAnExpression .blockStatement
  | .expressionStatement .. => notAnExpression .expressionStatement
  | .emptyStatement => notAnExpression .emptyStatement
  | .ifStatement .. => notAnExpression .ifStatement
  | .forStatement .. => notAnExpression .forStatement
  | .returnStatement .. => notAnExpression .returnStatement

/-- Adds expressions in order. -/
def exprs : List Node → Intake (List Id)
  | [] => pure []
  | e :: es => do
    let i ← expr e
    return i :: (← exprs es)

/-- Adds an expression where there is one. -/
def optionalExpr : Option Node → Intake (Option Id)
  | none => pure none
  | some e => some <$> expr e

/-- Adds the declarators of a `var` in order. -/
def declarators : List Node → Intake (List Id)
  | [] => pure []
  | .variableDeclarator id init :: ds => do
    let i ← add (.declarator (← expr id) (← optionalExpr init))
    return i :: (← declarators ds)
  | d :: _ => throw (.unsupportedNode d.type.name)

/-- Adds a statement; an empty one adds nothing. -/
def statement : Node → Intake (Option Id)
  | .emptyStatement => pure none
  | .functionDeclaration id params body => do
    some <$> add (.function (← expr id) (← exprs params) (← asBody (← statement body)))
  | .variableDeclaration ds => do some <$> add (.varDecl (← declarators ds))
  | .blockStatement body => do some <$> add (.block (← statements body))
  | .expressionStatement e => do some <$> add (.exprStmt (← expr e))
  | .ifStatement test consequent alternate => do
    some <$> add (.ifElse (← expr test) (← asBody (← statement consequent))
      (← optionalBody alternate))
  | .forStatement init test step body => do
    some <$> add (.forLoop (← header init) (← optionalExpr test) (← optionalExpr step)
      (← asBody (← statement body)))
  | .returnStatement argument => do some <$> add (.ret (← optionalExpr argument))
  | .program .. => notAStatement .program
  | .variableDeclarator .. => notAStatement .variableDeclarator
  | .conditionalExpression .. => notAStatement .conditionalExpression
  | .binaryExpression .. => notAStatement .binaryExpression
  | .logicalExpression .. => notAStatement .logicalExpression
  | .assignmentExpression .. => notAStatement .assignmentExpression
  | .unaryExpression .. => notAStatement .unaryExpression
  | .updateExpression .. => notAStatement .updateExpression
  | .callExpression .. => notAStatement .callExpression
  | .memberExpression .. => notAStatement .memberExpression
  | .arrayExpression .. => notAStatement .arrayExpression
  | .identifier .. => notAStatement .identifier
  | .thisExpression => notAStatement .thisExpression
  | .literal .. => notAStatement .literal
  | .sequenceExpression .. => notAStatement .sequenceExpression

/-- Adds statements in order. -/
def statements : List Node → Intake (List Id)
  | [] => pure []
  | s :: ss => do
    let i ← statement s
    return i.toList ++ (← statements ss)

/-- Adds a body where there is one. -/
def optionalBody : Option Node → Intake (Option Id)
  | none => pure none
  | some s => do some <$> asBody (← statement s)

/-- Adds what stands first in the head of a `for` statement: a `var` or an expression. -/
def header : Option Node → Intake (Option Id)
  | none => pure none
  | some (.variableDeclaration ds) => do some <$> add (.varDecl (← declarators ds))
  | some e => some <$> expr e

end

/-- The program with the given statements. -/
def ofStatements (body : List Node) : Except Error Graph := do
  let (body, draft) ← (statements body).run {}
  return { draft with body }.finish

/-- The program that a JSON value holds. A type outside the dialect is reported before any other
fault, and a fault in the shape of the document before any in its meaning. -/
def ofJson (v : Json) : Except Error Graph :=
  match firstUnsupported? v with
  | some t => .error (.unsupportedNode t)
  | none =>
    match decode? v with
    | none => .error .wrongShape
    | some (.program body) => ofStatements body
    | some _ => .error (.notAProgram (((v.field? "type").bind Json.text?).getD "a non-node"))

/-- The number of containers that may stand inside each other in a text. -/
def nestingLimit : Nat := 127

/-- The program that a JSON text spells. -/
def ofText (text : String) : Except Error Graph :=
  match Json.parse? nestingLimit text with
  | none => .error .notJson
  | some v => ofJson v

end ShaderScript.Estree
