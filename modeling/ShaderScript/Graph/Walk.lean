import ShaderScript.Graph.Basic

/-!
# Walking a syntax graph

* `Kind.children`: the children of a node, in source order.
* `Graph.descendants`: a node and all below it, in pre-order; `Graph.live` starts at the program.
* `Graph.link`: sets the parent of every live node.
* `Graph.ancestors`, `Graph.enclosingFunction?`: the way up from a node.
* `Graph.returns`, `Graph.isPropertyName`, `Graph.isAssignable`, `Graph.dottedPath?`: questions that
  several passes ask.

A graph without cycles has no path longer than its number of nodes, which bounds every walk here.
-/

namespace ShaderScript

/-- The children of a node, in source order. -/
def Kind.children : Kind → List Id
  | program body | block body => body
  | function name params body => name :: (params ++ [body])
  | varDecl declarators => declarators
  | declarator name init => name :: init.toList
  | exprStmt expr => [expr]
  | ifElse test consequent alternate => test :: consequent :: alternate.toList
  | forLoop init test step body => init.toList ++ (test.toList ++ (step.toList ++ [body]))
  | ret argument => argument.toList
  | conditional test consequent alternate => [test, consequent, alternate]
  | binary _ left right | assign _ left right => [left, right]
  | unary _ argument | update _ _ argument => [argument]
  | call callee args => callee :: args
  | field object property | index object property => [object, property]
  | array elements => elements
  | sequence exprs => exprs
  | discard | ident _ | this | number _ | bool _ | raw _ => []

/-- The value of one or more decimal digits, when it fits in 32 bits. -/
def positionOfDigits? (digits : List Char) : Option Nat :=
  if digits.isEmpty || !digits.all Char.isDigit then none
  else
    let n := digits.foldl (fun n c => 10 * n + (c.toNat - '0'.toNat)) 0
    if n < Nat.pow 2 32 then some n else none

/-- The position that a number spells: an unsigned number of at most 32 bits, in decimal digits
after an optional plus sign. -/
def positionOfText? (raw : String) : Option Nat :=
  match raw.toList with
  | '+' :: digits => positionOfDigits? digits
  | digits => positionOfDigits? digits

namespace Graph

variable (g : Graph)

/-- The children of a node, in source order. -/
def children (i : Id) : List Id := (g.kind i).children

/-- A node and the nodes below it to a depth, in pre-order. -/
def walk : Nat → Id → List Id
  | 0, _ => []
  | n + 1, i => i :: (g.children i).flatMap (walk n)

/-- A node and all nodes below it, in pre-order. A node with two parents is listed twice. -/
def descendants (i : Id) : List Id := g.walk g.size i

/-- The nodes of the program, in pre-order. -/
def live : List Id := g.descendants g.root

/-! ## Parents -/

/-- Sets the parent of a node. -/
def setParent (i : Id) (p : Option Id) : Graph := g.modify i ({ · with parent := p })

/-- Makes `p` the parent of each of its children. -/
def linkChildren (p : Id) : Graph := (g.children p).foldl (fun g c => g.setParent c (some p)) g

/-- Sets the parent of every live node. The last holder of a shared node wins, and loose nodes keep
the parent they had. -/
def link : Graph := g.live.foldl linkChildren (g.setParent g.root none)

/-- The way up from a parent, to a height. -/
def climb : Nat → Option Id → List Id
  | 0, _ => []
  | _, none => []
  | n + 1, some p => p :: climb n (g.parent? p)

/-- The nodes that hold `i`, nearest first. -/
def ancestors (i : Id) : List Id := g.climb g.size (g.parent? i)

/-- The nearest function declaration around a node. -/
def enclosingFunction? (i : Id) : Option Id := (g.ancestors i).find? g.isFunction

/-! ## Questions about a node -/

/-- Whether `i` is the name in an access by name, as `x` is in `a.x`. -/
def isPropertyName (i : Id) : Bool :=
  match (g.parent? i).map g.kind with
  | some (.field _ property) => property == i
  | _ => false

/-- Whether a node is an identifier that stands for a variable. -/
def isOccurrence (i : Id) : Bool := (g.identName? i).isSome && !g.isPropertyName i

/-- Whether a node can stand on the left of an assignment. -/
def isAssignable (i : Id) : Bool :=
  match g.kind i with
  | .ident _ | .field .. | .index .. => true
  | _ => false

/-- Whether a node is a return statement. -/
def isReturn (i : Id) : Bool :=
  match g.kind i with
  | .ret _ => true
  | _ => false

/-- The value that a return statement gives. -/
def returned? (i : Id) : Option Id :=
  match g.kind i with
  | .ret argument => argument
  | _ => none

/-- The return statements that belong to `f` and to no function inside it. -/
def returns (f : Id) : List Id :=
  (g.descendants f).filter fun i => g.isReturn i && g.enclosingFunction? i == some f

/-- Whether `f` gives a value anywhere in its own body. -/
def returnsValue (f : Id) : Bool := (g.returns f).any fun i => (g.returned? i).isSome

/-- The dotted path of an access by name, followed to a depth. -/
def pathTo : Nat → Id → Option String
  | 0, _ => none
  | n + 1, i =>
    match g.kind i with
    | .ident name => some name
    | .field object property => do
      let head ← pathTo n object
      let tail ← g.identName? property
      return head ++ "." ++ tail
    | _ => none

/-- The path `a.b.c` of an identifier or of a chain of accesses by name. -/
def dottedPath? (i : Id) : Option String := g.pathTo g.size i

/-- The position that an index names, when it is a number literal. -/
def literalIndex? (i : Id) : Option Nat :=
  match g.kind i with
  | .number raw => positionOfText? raw
  | _ => none

end Graph

end ShaderScript
