import ShaderScript.Call
import ShaderScript.Scope

/-!
# Which nodes have one type

Inference rests on pairs of nodes that have to agree: the two sides of an assignment, a call and its
callee, a parameter and the argument in its place. The pairs depend on the shape of the program and
not on what is known about types so far.

* `Context`: the program, its scopes and its calls.
* `Context.formLinks`: the pairs within the expression that a node forms.
* `Context.functionLinks`: the pairs between a function and its calls and returns.
* `Context.links`: all pairs to look at when a node gets its type.
-/

namespace ShaderScript.Infer

/-- What inference looks things up in. -/
structure Context where
  /-- The program before inference, of which the shape matters. -/
  graph : Graph
  calls : CallTable
  scopes : Scopes
  /-- The nodes of the program, in pre-order. -/
  order : List Id

namespace Context

/-- The context of a program. -/
def of (g : Graph) (calls : CallTable) : Context :=
  { graph := g, calls, scopes := Scopes.resolve g, order := g.live }

variable (c : Context)

/-- The pairs within the expression that a node forms. -/
def formLinks (i : Id) : List (Id × Id) :=
  match c.graph.kind i with
  | .call callee _ => [(i, callee)]
  | .binary _ left right | .assign _ left right => [(left, right), (i, left)]
  | .unary _ argument | .update _ _ argument => [(i, argument)]
  | .conditional _ consequent alternate => [(consequent, alternate), (i, consequent)]
  | _ => []

/-- The pairs between a function and the call whose callee is an occurrence of its name, when the
call has as many arguments as the function has parameters. -/
def callLinks (name : Id) (params : List Id) (occurrence : Id) : List (Id × Id) :=
  match c.graph.parent? occurrence with
  | none => []
  | some call =>
    match c.graph.kind call with
    | .call callee args =>
      if callee = occurrence ∧ args.length = params.length then (name, call) :: params.zip args
      else []
    | _ => []

/-- The pairs between a function and its calls and returns. -/
def functionLinks (f : Id) : List (Id × Id) :=
  match c.graph.kind f with
  | .function name params _ =>
    (c.scopes.occurrences name).flatMap (c.callLinks name params) ++
      ((c.graph.returns f).filterMap c.graph.returned?).map fun value => (name, value)
  | _ => []

/-- The pair between the function around a return statement and the value it gives. -/
def returnLinks (ret value : Id) : List (Id × Id) :=
  match (c.graph.enclosingFunction? ret).map c.graph.kind with
  | some (.function name _ _) => [(name, value)]
  | _ => []

/-- The pairs that a node takes part in through the node that holds it. -/
def parentLinks (i p : Id) : List (Id × Id) :=
  match c.graph.kind p with
  | .declarator name (some init) => [(name, init)]
  | .call callee _ =>
    if callee = i then [(i, p)]
    else match c.calls.target? p with
      | some (.user f) => c.functionLinks f
      | _ => []
  | .function .. => c.functionLinks p
  | .ret (some value) => c.returnLinks p value
  | .conditional test _ _ => if test = i then [] else c.formLinks p
  | .binary .. | .assign .. | .unary .. | .update .. => c.formLinks p
  | _ => []

/-- All pairs to look at when a node gets its type. -/
def links (i : Id) : List (Id × Id) :=
  c.formLinks i ++
    match c.graph.parent? i with
    | some p => c.parentLinks i p
    | none => []

end Context

end ShaderScript.Infer
