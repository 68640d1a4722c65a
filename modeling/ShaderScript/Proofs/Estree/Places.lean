import ShaderScript.Estree.Intake
import ShaderScript.Proofs.Renumber.Tree

/-!
# Places of a document

A document is read place by place, in the order of fields. Each place is for some types of nodes,
and a node may have an operator or a literal that the dialect does not have. Apart from that, every
node says what it is.

* `Position.admits`: what may stand in a place.
* `Node.places`: a node in its place and all places below it, a node before its parts.
* `Place.fault?`: what is wrong with a place, apart from the places below it.
* `firstFault?`: the error of the first place that something is wrong with.
* `Node.tree`: what a node says, as a tree.
-/

namespace ShaderScript.Estree

/-! ## What may stand where -/

/-- What a place of a document is for. -/
inductive Position where
  /-- A statement, alone or among others. -/
  | statement
  /-- An entry of a `var` statement. -/
  | declaration
  /-- What stands first in the head of a `for` statement. -/
  | header
  | expression
deriving DecidableEq

namespace NodeType

/-- Whether nodes of this type are statements. -/
def isStatement : NodeType → Bool
  | functionDeclaration | variableDeclaration | blockStatement | expressionStatement
  | emptyStatement | ifStatement | forStatement | returnStatement => true
  | _ => false

/-- Whether nodes of this type are expressions. -/
def isExpression : NodeType → Bool
  | conditionalExpression | binaryExpression | logicalExpression | assignmentExpression
  | unaryExpression | updateExpression | callExpression | memberExpression | arrayExpression
  | identifier | thisExpression | literal | sequenceExpression => true
  | _ => false

end NodeType

namespace Position

/-- Whether nodes of a type may stand in a place. -/
def admits : Position → NodeType → Bool
  | statement, t => t.isStatement
  | declaration, t => t == .variableDeclarator
  | header, t => t == .variableDeclaration || t.isExpression
  | expression, t => t.isExpression

/-- The error of a node that may not stand in a place. -/
def refusal : Position → NodeType → Error
  | statement, t => .unsupportedNode (t.name ++ " as a statement")
  | declaration, t => .unsupportedNode t.name
  | header, t | expression, t => .unsupportedNode (t.name ++ " as an expression")

end Position

/-- The error of a text that is not read as an operator. -/
def unread? {α : Type} (read? : String → Option α) (text : String) : Option Error :=
  match read? text with
  | some _ => none
  | none => some (.unsupportedOperator text)

/-- The error of a node with an operator that the dialect does not have, or with a literal that is
neither a number nor a truth value. -/
def Node.fault? : Node → Option Error
  | binaryExpression op .. | logicalExpression op .. => unread? BinaryOp.ofSource? op
  | assignmentExpression op .. => unread? AssignOp.ofSource? op
  | unaryExpression op _ => unread? UnaryOp.ofSource? op
  | updateExpression op .. => unread? UpdateOp.ofSource? op
  | literal (.other text) raw => some (.unsupportedLiteral (raw.getD text))
  | _ => none

/-! ## Places -/

/-- A node in its place. -/
structure Place where
  position : Position
  node : Node

/-- The node may stand in its place, and its operator or literal is one of the dialect. -/
structure Place.Proper (q : Place) : Prop where
  admitted : q.position.admits q.node.type = true
  read : q.node.fault? = none

/-- What is wrong with a place, apart from the places below it. That a node may not stand there
comes before anything else about the node. -/
def Place.fault? (q : Place) : Option Error :=
  if q.position.admits q.node.type then q.node.fault?
  else some (q.position.refusal q.node.type)

theorem Place.fault?_eq_none {q : Place} : q.fault? = none ↔ q.Proper := by
  unfold fault?
  split_ifs with h
  · exact ⟨fun hread => ⟨h, hread⟩, Proper.read⟩
  · exact ⟨nofun, fun hq => absurd hq.admitted h⟩

mutual

/-- A node in its place and all places below it, in the order of fields. -/
def Node.places (p : Position) : Node → List Place
  | .program body => ⟨p, .program body⟩ :: placesOf .statement body
  | .functionDeclaration id params body =>
    ⟨p, .functionDeclaration id params body⟩ ::
      (id.places .expression ++ (placesOf .expression params ++ body.places .statement))
  | .variableDeclaration declarations =>
    ⟨p, .variableDeclaration declarations⟩ :: placesOf .declaration declarations
  | .variableDeclarator id init =>
    ⟨p, .variableDeclarator id init⟩ :: (id.places .expression ++ placesIf .expression init)
  | .blockStatement body => ⟨p, .blockStatement body⟩ :: placesOf .statement body
  | .expressionStatement e => ⟨p, .expressionStatement e⟩ :: e.places .expression
  | .emptyStatement => [⟨p, .emptyStatement⟩]
  | .ifStatement test consequent alternate =>
    ⟨p, .ifStatement test consequent alternate⟩ ::
      (test.places .expression ++ (consequent.places .statement ++ placesIf .statement alternate))
  | .forStatement init test update body =>
    ⟨p, .forStatement init test update body⟩ ::
      (placesIf .header init ++ (placesIf .expression test ++
        (placesIf .expression update ++ body.places .statement)))
  | .returnStatement argument => ⟨p, .returnStatement argument⟩ :: placesIf .expression argument
  | .conditionalExpression test consequent alternate =>
    ⟨p, .conditionalExpression test consequent alternate⟩ ::
      (test.places .expression ++
        (consequent.places .expression ++ alternate.places .expression))
  | .binaryExpression op left right =>
    ⟨p, .binaryExpression op left right⟩ :: (left.places .expression ++ right.places .expression)
  | .logicalExpression op left right =>
    ⟨p, .logicalExpression op left right⟩ :: (left.places .expression ++ right.places .expression)
  | .assignmentExpression op left right =>
    ⟨p, .assignmentExpression op left right⟩ ::
      (left.places .expression ++ right.places .expression)
  | .unaryExpression op argument => ⟨p, .unaryExpression op argument⟩ :: argument.places .expression
  | .updateExpression op leading argument =>
    ⟨p, .updateExpression op leading argument⟩ :: argument.places .expression
  | .callExpression callee arguments =>
    ⟨p, .callExpression callee arguments⟩ ::
      (callee.places .expression ++ placesOf .expression arguments)
  | .memberExpression object property computed =>
    ⟨p, .memberExpression object property computed⟩ ::
      (object.places .expression ++ property.places .expression)
  | .arrayExpression elements => ⟨p, .arrayExpression elements⟩ :: placesOf .expression elements
  | .identifier name => [⟨p, .identifier name⟩]
  | .thisExpression => [⟨p, .thisExpression⟩]
  | .literal value raw => [⟨p, .literal value raw⟩]
  | .sequenceExpression expressions =>
    ⟨p, .sequenceExpression expressions⟩ :: placesOf .expression expressions

/-- The places of a list of nodes. -/
def placesOf (p : Position) : List Node → List Place
  | [] => []
  | n :: ns => n.places p ++ placesOf p ns

/-- The places of a node that may be missing. -/
def placesIf (p : Position) : Option Node → List Place
  | none => []
  | some n => n.places p

end

/-- The error of the first place that something is wrong with. -/
def firstFault? (qs : List Place) : Option Error := qs.findSome? Place.fault?

@[simp] theorem firstFault?_cons (q : Place) (qs : List Place) :
    firstFault? (q :: qs) = q.fault?.or (firstFault? qs) := by
  unfold firstFault?
  rw [List.findSome?_cons]
  cases q.fault? <;> rfl

@[simp] theorem firstFault?_append (qs rs : List Place) :
    firstFault? (qs ++ rs) = (firstFault? qs).or (firstFault? rs) := List.findSome?_append

theorem firstFault?_eq_none {qs : List Place} :
    firstFault? qs = none ↔ ∀ q ∈ qs, q.Proper := by
  unfold firstFault?
  simp only [List.findSome?_eq_none_iff, Place.fault?_eq_none]

/-! ## Trees -/

/-- One number for each tree, as in a label. -/
def blanks (ts : List Tree) : List Id := ts.map fun _ => 0

mutual

/-- What a node says, with its parts in the order of fields. Both kinds of binary operations are one
kind of node, and an empty statement is an empty block. An operator that is not read, or a literal
of no known kind, may stand for anything: a document with one gives no program. -/
def Node.tree : Node → Tree
  | .program body => .node (.program (blanks (treesListed body))) (treesListed body)
  | .functionDeclaration id params body =>
    .node (.function 0 (blanks (treesOf params)) 0) (id.tree :: (treesOf params ++ [body.tree]))
  | .variableDeclaration declarations =>
    .node (.varDecl (blanks (treesOf declarations))) (treesOf declarations)
  | .variableDeclarator id init =>
    .node (.declarator 0 (init.map fun _ => 0)) (id.tree :: treesIf init)
  | .blockStatement body => .node (.block (blanks (treesListed body))) (treesListed body)
  | .expressionStatement e => .node (.exprStmt 0) [e.tree]
  | .emptyStatement => .node (.block []) []
  | .ifStatement test consequent alternate =>
    .node (.ifElse 0 0 (alternate.map fun _ => 0))
      (test.tree :: consequent.tree :: treesIf alternate)
  | .forStatement init test update body =>
    .node (.forLoop (init.map fun _ => 0) (test.map fun _ => 0) (update.map fun _ => 0) 0)
      (treesIf init ++ (treesIf test ++ (treesIf update ++ [body.tree])))
  | .returnStatement argument => .node (.ret (argument.map fun _ => 0)) (treesIf argument)
  | .conditionalExpression test consequent alternate =>
    .node (.conditional 0 0 0) [test.tree, consequent.tree, alternate.tree]
  | .binaryExpression op left right | .logicalExpression op left right =>
    .node (.binary ((BinaryOp.ofSource? op).getD default) 0 0) [left.tree, right.tree]
  | .assignmentExpression op left right =>
    .node (.assign ((AssignOp.ofSource? op).getD default) 0 0) [left.tree, right.tree]
  | .unaryExpression op argument =>
    .node (.unary ((UnaryOp.ofSource? op).getD default) 0) [argument.tree]
  | .updateExpression op leading argument =>
    .node (.update ((UpdateOp.ofSource? op).getD default) leading 0) [argument.tree]
  | .callExpression callee arguments =>
    .node (.call 0 (blanks (treesOf arguments))) (callee.tree :: treesOf arguments)
  | .memberExpression object property computed =>
    .node (if computed then .index 0 0 else .field 0 0) [object.tree, property.tree]
  | .arrayExpression elements => .node (.array (blanks (treesOf elements))) (treesOf elements)
  | .identifier name => .node (.ident name) []
  | .thisExpression => .node .this []
  | .literal (.bool value) _ => .node (.bool value) []
  | .literal (.number text) raw | .literal (.other text) raw => .node (.number (raw.getD text)) []
  | .sequenceExpression expressions =>
    .node (.sequence (blanks (treesOf expressions))) (treesOf expressions)

/-- The trees of a list of nodes. -/
def treesOf : List Node → List Tree
  | [] => []
  | n :: ns => n.tree :: treesOf ns

/-- The trees of a list of statements, empty ones left out. -/
def treesListed : List Node → List Tree
  | [] => []
  | .emptyStatement :: ns => treesListed ns
  | n :: ns => n.tree :: treesListed ns

/-- The tree of a node that may be missing. -/
def treesIf : Option Node → List Tree
  | none => []
  | some n => [n.tree]

end

end ShaderScript.Estree
