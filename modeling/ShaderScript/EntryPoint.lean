import ShaderScript.Graph.Walk

/-!
# Entry points

A shader program is a set of functions with two that have to be there: the position of a vertex and
the color of a fragment. A third, the size of a point, may be there. All others are helpers.

* `EntryPoint`: the three entry points, with their names and expected types.
* `EntryPoints`: the declarations of those that a program has.
* `EntryPoints.attachHints`: notes the expected type of each on its name.
-/

namespace ShaderScript

/-- A function that the rendering pipeline calls. -/
inductive EntryPoint where
  | vertexPosition
  | fragmentColor
  | pointSize
deriving DecidableEq, Inhabited

namespace EntryPoint

/-- The name under which a program declares an entry point. -/
def name : EntryPoint → String
  | vertexPosition => "VertexPosition"
  | fragmentColor => "FragmentColor"
  | pointSize => "PointSize"

/-- The type that an entry point gives unless the program says otherwise. -/
def hint : EntryPoint → Ty
  | vertexPosition | fragmentColor => .vec4
  | pointSize => .float

end EntryPoint

/-- The declarations of the entry points of a program. -/
structure EntryPoints where
  vertexPosition : Id
  fragmentColor : Id
  pointSize : Option Id
deriving DecidableEq, Inhabited

namespace EntryPoints

/-- The entry points of a program, or one that is missing. -/
def locate (g : Graph) : Except EntryPoint EntryPoints :=
  match g.findFunction? EntryPoint.vertexPosition.name with
  | none => .error .vertexPosition
  | some vertexPosition =>
    match g.findFunction? EntryPoint.fragmentColor.name with
    | none => .error .fragmentColor
    | some fragmentColor =>
      .ok { vertexPosition, fragmentColor, pointSize := g.findFunction? EntryPoint.pointSize.name }

variable (e : EntryPoints)

/-- The entry points with their declarations, in the order in which they are treated. -/
def toList : List (EntryPoint × Id) :=
  [(.vertexPosition, e.vertexPosition), (.fragmentColor, e.fragmentColor)] ++
    e.pointSize.toList.map fun f => (.pointSize, f)

/-- Whether a function is an entry point. -/
def contains (f : Id) : Bool := e.toList.any fun p => p.2 == f

/-- The functions that the vertex stage starts from. -/
def vertexStage : List Id := e.vertexPosition :: e.pointSize.toList

/-- The functions that the fragment stage starts from. -/
def fragmentStage : List Id := [e.fragmentColor]

/-- Notes the expected type of an entry point on the name of its declaration. -/
def attachHint (g : Graph) (p : EntryPoint × Id) : Graph :=
  match g.kind p.2 with
  | .function name _ _ => g.modify name ({ · with hint := some p.1.hint })
  | _ => g

/-- Notes the expected type of each entry point on the name of its declaration. -/
def attachHints (g : Graph) : Graph := e.toList.foldl attachHint g

/-- The names of the helper functions, in source order. -/
def helpers (g : Graph) : List String :=
  (g.functions.filter fun f => !e.contains f).filterMap g.functionName?

end EntryPoints

end ShaderScript
