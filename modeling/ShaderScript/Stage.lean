import ShaderScript.Call
import ShaderScript.Known.Reserved
import ShaderScript.Scope

/-!
# Stages

Each of the two programs of a shader holds what its entry points need: the functions they call, the
top-level variables these read, and helper functions of the shading language.

* `Item`: one top-level part of a program.
* `reachable`: the items that a list of functions needs, what is needed before what needs it.
* `Stages.extract`: the items of both stages.
* `Stages.firstError?`: the first error held back on a call inside an item.
-/

namespace ShaderScript

/-- A top-level part of one of the two programs. -/
inductive Item where
  | function (f : Id)
  /-- A top-level `var` statement. -/
  | global (stmt : Id)
  | library (s : Known.Snippet)
deriving DecidableEq, Inhabited

/-- The node that an item prints. -/
def Item.node? : Item → Option Id
  | function i | global i => some i
  | library _ => none

/-- The top-level `var` statement that declares each name, a later one in place of an earlier. -/
def Graph.globals (g : Graph) : List (String × Id) :=
  (g.body.flatMap fun stmt =>
    match g.kind stmt with
    | .varDecl ds => ds.filterMap fun d =>
      match g.kind d with
      | .declarator name _ => (g.identName? name).map fun n => (n, stmt)
      | _ => none
    | _ => []).reverse

/-- How far the walk from the entry points has come. -/
structure Reached where
  /-- Names of the functions and helpers that are on their way or there. -/
  names : List String := []
  /-- The `var` statements that are on their way or there. -/
  globals : List Id := []
  items : List Item := []
deriving DecidableEq, Inhabited

/-- What the walk looks things up in. -/
structure Surroundings where
  graph : Graph
  calls : CallTable
  scopes : Scopes
  globals : List (String × Id)

namespace Surroundings

variable (c : Surroundings)

/-- The surroundings of a walk through a program. -/
def of (g : Graph) (calls : CallTable) : Surroundings :=
  { graph := g, calls, scopes := Scopes.resolve g, globals := g.globals }

/-- What a call needs. -/
def callNeed? (i : Id) : Option Item :=
  match c.calls.target? i with
  | some (.user f) => some (.function f)
  | some (.known e) => (e.form.target?.bind Known.snippet?).map .library
  | none => none

/-- The `var` statement that an identifier needs: the one that declares it at the top level. -/
def globalNeed? (i : Id) : Option Item := do
  let name ← c.graph.identName? i
  guard (!c.graph.isPropertyName i)
  let b ← c.scopes.bindingOf? i
  guard (b.scope == c.graph.root)
  return .global (← c.globals.lookup name)

/-- What a node needs. -/
def need? (i : Id) : Option Item :=
  match c.graph.kind i with
  | .call .. => c.callNeed? i
  | _ => c.globalNeed? i

/-- What the nodes below a node need, in pre-order. -/
def needs (i : Id) : List Item := (c.graph.descendants i).filterMap c.need?

/-- Goes on to what is needed, unless it is on its way or there, to a depth. Whatever an item needs
comes before it. -/
def visit : Nat → Reached → Item → Reached
  | 0, r, _ => r
  | n + 1, r, .function f =>
    match c.graph.functionName? f with
    | none => r
    | some name =>
      if r.names.contains name then r
      else
        let r := (c.needs f).foldl (visit n) { r with names := name :: r.names }
        { r with items := r.items ++ [.function f] }
  | n + 1, r, .global stmt =>
    if r.globals.contains stmt then r
    else
      let r := (c.needs stmt).foldl (visit n) { r with globals := stmt :: r.globals }
      { r with items := r.items ++ [.global stmt] }
  | _ + 1, r, .library s =>
    if r.names.contains s.name then r
    else { r with names := s.name :: r.names, items := r.items ++ [.library s] }

end Surroundings

/-- The items that functions need, what is needed before what needs it. Every step down goes to
another node, so the number of nodes bounds the depth. -/
def reachable (g : Graph) (roots : List Id) (calls : CallTable) : List Item :=
  let c := Surroundings.of g calls
  ((roots.map Item.function).foldl (c.visit (g.size + 1)) {}).items

/-- The items of both stages. -/
structure Stages where
  vertex : List Item
  fragment : List Item
deriving DecidableEq, Inhabited

namespace Stages

/-- The items of both stages of a program. -/
def extract (g : Graph) (e : EntryPoints) (calls : CallTable) : Stages :=
  { vertex := reachable g e.vertexStage calls, fragment := reachable g e.fragmentStage calls }

variable (s : Stages)

/-- The items of the vertex stage and then of the fragment stage. -/
def items : List Item := s.vertex ++ s.fragment

/-- The functions of both stages. -/
def functions : List Id :=
  s.items.filterMap fun
    | .function f => some f
    | _ => none

/-- The first error held back on a node of an item, with the node. -/
def firstError? (g : Graph) (calls : CallTable) : Option (Id × Error) :=
  s.items.findSome? fun item =>
    item.node?.bind fun root =>
      (g.descendants root).findSome? fun i => (calls.error? i).map fun e => (i, e)

end Stages

end ShaderScript
