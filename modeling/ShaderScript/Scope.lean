import ShaderScript.Graph.Walk

/-!
# Lexical scopes

An identifier belongs to the nearest node around it that declares its name: a function with such a
parameter, or a program, block or `for` statement that directly holds a `var` of that name. Where
nothing declares the name it belongs to the program. The property name in `a.x` belongs to nothing.

* `Binding`: the identifiers that share a scope and a name.
* `Graph.declaringScope`: where an identifier belongs.
* `Scopes.resolve`: all bindings of a program, in order of first occurrence.
* `Scopes.occurrences`: the identifiers that share a binding with a given one.
-/

namespace ShaderScript

namespace Graph

variable (g : Graph)

/-- Whether a statement is a `var` with a declarator of `name`. -/
def declaresVar (name : String) (stmt : Id) : Bool :=
  match g.kind stmt with
  | .varDecl declarators => declarators.any fun d =>
    match g.kind d with
    | .declarator id _ => g.identName? id == some name
    | _ => false
  | _ => false

/-- Whether a node declares `name` for what stands below it. -/
def declares (name : String) (scope : Id) : Bool :=
  match g.kind scope with
  | .function _ params _ => params.any fun p => g.identName? p == some name
  | .program body | .block body => body.any (g.declaresVar name)
  | .forLoop (some init) _ _ _ => g.declaresVar name init
  | _ => false

/-- The nearest node around `i` that declares `name`, or the program. -/
def declaringScope (i : Id) (name : String) : Id :=
  ((g.ancestors i).find? (g.declares name)).getD g.root

end Graph

/-- The identifiers that belong to one scope under one name, in pre-order. -/
structure Binding where
  name : String
  /-- The declaring node; the program for what nothing declares. -/
  scope : Id
  occurrences : List Id
deriving DecidableEq, Inhabited

/-- The bindings of a program, in order of first occurrence. They stay right when all identifiers
of one binding are renamed together, and have to be resolved again after any other change. -/
structure Scopes where
  bindings : List Binding := []
deriving DecidableEq, Inhabited

namespace Scopes

/-- Adds an occurrence to the binding of its scope and name. -/
def insert (i scope : Id) (name : String) : List Binding → List Binding
  | [] => [⟨name, scope, [i]⟩]
  | b :: bs =>
    if b.scope = scope ∧ b.name = name then
      { b with occurrences := b.occurrences ++ [i] } :: bs
    else b :: insert i scope name bs

/-- Adds a node to its binding, if it is an identifier that stands for a variable. -/
def add (g : Graph) (bs : List Binding) (i : Id) : List Binding :=
  match g.identName? i with
  | some name => if g.isPropertyName i then bs else insert i (g.declaringScope i name) name bs
  | none => bs

/-- The bindings of a program. -/
def resolve (g : Graph) : Scopes := ⟨g.live.foldl (add g) []⟩

variable (s : Scopes)

/-- The binding of an identifier. -/
def bindingOf? (i : Id) : Option Binding := s.bindings.find? fun b => b.occurrences.contains i

/-- The identifiers that share a binding with `i`; a node without binding stands alone. -/
def occurrences (i : Id) : List Id :=
  match s.bindingOf? i with
  | some b => b.occurrences
  | none => [i]

/-- The binding of a name that belongs to the program. -/
def global? (g : Graph) (name : String) : Option Binding :=
  s.bindings.find? fun b => b.scope == g.root && b.name == name

end Scopes

end ShaderScript
