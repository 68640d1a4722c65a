import ShaderScript.Estree.Basic
import ShaderScript.Json.Reader
import ShaderScript.Json.Writer

/-!
# Decoding ESTree documents

A node is an object with a `type` and the fields of that type, or an array of the type and all
fields in order. Fields that no type asks for are passed over.

* `firstUnsupported?`: the first node type outside the dialect, in pre-order.
* `decode?`: the document that a JSON value holds.
-/

namespace ShaderScript.Estree

/-- Fields in which no node of the program is looked for. -/
def isSkipped (key : String) : Bool := ["loc", "range", "value", "regex"].contains key

mutual

/-- The first node type outside the dialect, an object before its fields. -/
def firstUnsupported? : Json → Option String
  | .obj fields =>
    match (fields.lookup "type").bind Json.text? with
    | some t => if (NodeType.ofName? t).isSome then firstInFields? fields else some t
    | none => firstInFields? fields
  | .arr items => firstInItems? items
  | _ => none

/-- The first node type outside the dialect among the items of an array. -/
def firstInItems? : List Json → Option String
  | [] => none
  | v :: items => (firstUnsupported? v).or (firstInItems? items)

/-- The first node type outside the dialect among the fields of an object. -/
def firstInFields? : List (String × Json) → Option String
  | [] => none
  | (k, v) :: fields =>
    if isSkipped k then firstInFields? fields else (firstUnsupported? v).or (firstInFields? fields)

end

/-- The type that a `type` field names. Below the top a type may also be given by its number. -/
def typeOf? (nested : Bool) : Json → Option NodeType
  | .str name => NodeType.ofName? name
  | .num (.int (.ofNat n)) => if nested then NodeType.all[n]? else none
  | _ => none

/-- The type of a node and its fields in order, absent ones marked. -/
def parts? (nested : Bool) : Json → Option (NodeType × List (Option Json))
  | .obj fields => do
    let type ← typeOf? nested (← fields.lookup "type")
    return (type, type.fields.map fun key => fields.lookup key)
  | .arr (t :: values) => do
    let type ← typeOf? nested t
    guard (values.length == type.fields.length)
    return (type, values.map some)
  | _ => none

/-- A required text. -/
def text? (field : Option Json) : Option String := field.bind Json.text?

/-- A required truth value. -/
def bool? (field : Option Json) : Option Bool := field.bind Json.bool?

/-- An optional text, absent when `null`. -/
def optionalText? : Option Json → Option (Option String)
  | none | some .null => some none
  | some v => v.text?.map some

/-- The value of a literal. -/
def literalValue : Json → LiteralValue
  | .bool value => .bool value
  | .num n => .number n.text
  | v => .other v.write

/-- Decodes a node that is at most `n` levels deep. -/
def decodeTo : Nat → Bool → Json → Option Node
  | 0, _, _ => none
  | n + 1, nested, v => do
    let (type, fields) ← parts? nested v
    let node (field : Option Json) : Option Node := field.bind (decodeTo n true)
    let nodes (field : Option Json) : Option (List Node) :=
      (field.bind Json.items?).bind (List.mapM (decodeTo n true))
    let optional : Option Json → Option (Option Node)
      | none | some .null => some none
      | some v => (decodeTo n true v).map some
    match type, fields with
    | .program, [body] => return .program (← nodes body)
    | .functionDeclaration, [id, params, body] =>
      return .functionDeclaration (← node id) (← nodes params) (← node body)
    | .variableDeclaration, [declarations] => return .variableDeclaration (← nodes declarations)
    | .variableDeclarator, [id, init] => return .variableDeclarator (← node id) (← optional init)
    | .blockStatement, [body] => return .blockStatement (← nodes body)
    | .expressionStatement, [expression] => return .expressionStatement (← node expression)
    | .emptyStatement, [] => return .emptyStatement
    | .ifStatement, [test, consequent, alternate] =>
      return .ifStatement (← node test) (← node consequent) (← optional alternate)
    | .forStatement, [init, test, update, body] =>
      return .forStatement (← optional init) (← optional test) (← optional update) (← node body)
    | .returnStatement, [argument] => return .returnStatement (← optional argument)
    | .conditionalExpression, [test, consequent, alternate] =>
      return .conditionalExpression (← node test) (← node consequent) (← node alternate)
    | .binaryExpression, [operator, left, right] =>
      return .binaryExpression (← text? operator) (← node left) (← node right)
    | .logicalExpression, [operator, left, right] =>
      return .logicalExpression (← text? operator) (← node left) (← node right)
    | .assignmentExpression, [operator, left, right] =>
      return .assignmentExpression (← text? operator) (← node left) (← node right)
    | .unaryExpression, [operator, argument] =>
      return .unaryExpression (← text? operator) (← node argument)
    | .updateExpression, [operator, leading, argument] =>
      return .updateExpression (← text? operator) (← bool? leading) (← node argument)
    | .callExpression, [callee, arguments] =>
      return .callExpression (← node callee) (← nodes arguments)
    | .memberExpression, [object, property, computed] =>
      return .memberExpression (← node object) (← node property) (← bool? computed)
    | .arrayExpression, [elements] => return .arrayExpression (← nodes elements)
    | .identifier, [name] => return .identifier (← text? name)
    | .thisExpression, [] => return .thisExpression
    | .literal, [value, raw] => return .literal (literalValue (← value)) (← optionalText? raw)
    | .sequenceExpression, [expressions] => return .sequenceExpression (← nodes expressions)
    | _, _ => none

/-- The document that a JSON value holds. -/
def decode? (v : Json) : Option Node := decodeTo (v.depth + 1) false v

end ShaderScript.Estree
