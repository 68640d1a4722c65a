import ShaderScript.Graph.Walk

/-!
# Building a program by hand

* `Build`: a computation that adds nodes bottom up and collects top-level statements.
* `Build.function`, `Build.var`, `Build.path`, …: one step for each construct of the dialect.
* `Build.finish`: the program that a computation builds, with parents linked.
-/

namespace ShaderScript

/-- Nodes built so far, and the top-level statements among them. -/
structure Draft where
  nodes : Array Node := #[]
  body : List Id := []
deriving Inhabited

/-- Wraps the statements of a draft in a program node and links parents. -/
def Draft.finish (d : Draft) : Graph :=
  Graph.link { nodes := d.nodes.push { kind := .program d.body }, root := d.nodes.size }

/-- A computation that adds to a draft. -/
abbrev Build := StateM Draft

namespace Build

/-- The program that a computation builds from nothing. -/
def finish (b : Build Unit) : Graph := (b.run {}).2.finish

/-- Adds a node and returns its number. -/
def node (k : Kind) : Build Id :=
  fun d => (d.nodes.size, { d with nodes := d.nodes.push { kind := k } })

/-- Appends a top-level statement. -/
def statement (i : Id) : Build Unit := modify fun d => { d with body := d.body ++ [i] }

/-! ## Expressions -/

/-- An identifier. -/
def ident (name : String) : Build Id := node (.ident name)

/-- An access by name: `object.name`. -/
def field (object : Id) (name : String) : Build Id := do
  let property ← ident name
  node (.field object property)

/-- An access by position: `object[position]`. -/
def index (object position : Id) : Build Id := node (.index object position)

/-- The path `a.b.c` as nested accesses by name, in which a leading `this` is the receiver. -/
def path (dotted : String) : Build Id :=
  match dotted.splitOn "." with
  | [] => ident ""
  | head :: segments => do
    let object ← if head = "this" then node .this else ident head
    segments.foldlM field object

/-- A number in the spelling of the script. -/
def num (raw : String) : Build Id := node (.number raw)

/-- A truth value. -/
def bool (value : Bool) : Build Id := node (.bool value)

/-- A binary operation: `left op right`. -/
def binary (op : BinaryOp) (left right : Id) : Build Id := node (.binary op left right)

/-- An assignment, plain or compound. -/
def assign (op : AssignOp) (left right : Id) : Build Id := node (.assign op left right)

/-- A unary operation: `op argument`. -/
def unary (op : UnaryOp) (argument : Id) : Build Id := node (.unary op argument)

/-- An increment or decrement, written before its argument when `leading`. -/
def update (op : UpdateOp) (leading : Bool) (argument : Id) : Build Id :=
  node (.update op leading argument)

/-- A choice between values: `test ? consequent : alternate`. -/
def conditional (test consequent alternate : Id) : Build Id :=
  node (.conditional test consequent alternate)

/-- A call: `callee(args)`. -/
def call (callee : Id) (args : List Id) : Build Id := node (.call callee args)

/-- A call through a dotted path. -/
def callPath (dotted : String) (args : List Id) : Build Id := do
  let callee ← path dotted
  call callee args

/-- An array literal: `[elements]`. -/
def array (elements : List Id) : Build Id := node (.array elements)

/-- A sequence of expressions: `(a, b)`. -/
def sequence (exprs : List Id) : Build Id := node (.sequence exprs)

/-! ## Statements -/

/-- A declaration of one variable: `var name = init;`. -/
def var (name : String) (init : Option Id) : Build Id := do
  let id ← ident name
  let declarator ← node (.declarator id init)
  node (.varDecl [declarator])

/-- An expression as a statement. -/
def exprStmt (expr : Id) : Build Id := node (.exprStmt expr)

/-- A return statement, with or without a value. -/
def ret (argument : Option Id) : Build Id := node (.ret argument)

/-- Statements in braces. -/
def block (body : List Id) : Build Id := node (.block body)

/-- A choice between statements: `if (test) consequent else alternate`. -/
def ifElse (test consequent : Id) (alternate : Option Id) : Build Id :=
  node (.ifElse test consequent alternate)

/-- A loop: `for (init; test; step) body`. -/
def forLoop (init test step : Option Id) (body : Id) : Build Id :=
  node (.forLoop init test step body)

/-- Declares a top-level function and returns its declaration. -/
def function (name : String) (params : List String) (body : List Id) : Build Id := do
  let id ← ident name
  let params ← params.mapM ident
  let body ← block body
  let f ← node (.function id params body)
  statement f
  return f

end Build

end ShaderScript
