import ShaderScript.Call.Lower
import ShaderScript.Discard
import ShaderScript.Flatten
import ShaderScript.Glsl.Program
import ShaderScript.Infer.Run
import ShaderScript.Names

/-!
# Compiling a program

* `Shader`: the two programs of a shader.
* `Definition`: a program with its entry points.
* `Definition.compile`: the shader of a program.
-/

namespace ShaderScript

/-- The two programs of a shader. -/
structure Shader where
  vertex : String
  fragment : String
deriving DecidableEq, Inhabited

/-- A computation that reports notes and may fail. -/
abbrev Compiler := ExceptT Error (StateM (List Note))

/-- Reports notes. -/
def report (notes : List Note) : Compiler Unit := modify (· ++ notes)

/-- Fails with an error, if there is one. -/
def failOn : Option Error → Compiler Unit
  | some e => throw e
  | none => pure ()

/-- Whether a stage can take the value of an entry point: the size of a point is a number, the
others have at most four components. -/
def EntryPoint.takes (p : EntryPoint) (t : Ty) : Bool :=
  match p with
  | pointSize => t == .float
  | _ => t.width?.isSome

/-- The error of an entry point that its stage cannot take. -/
def entryError? (g : Graph) (p : EntryPoint × Id) : Option Error :=
  match g.kind p.2 with
  | .function name _ _ =>
    let t := (g.ty? name).getD .float
    if p.1.takes t then none else some (.invalidEntryPointType p.1 t)
  | _ => none

/-- The two programs. -/
def emit (g : Graph) (e : EntryPoints) (o : Options) (decls : List FieldDecl) (s : Stages) :
    Shader :=
  { vertex := Glsl.programText g e o .vertex decls s.vertex
    fragment := Glsl.programText g e o .fragment decls s.fragment }

/-- A program with its entry points. -/
structure Definition where
  graph : Graph
  entries : EntryPoints

namespace Definition

/-- Finds the entry points of a program. -/
def ofGraph (g : Graph) : Except Error Definition :=
  match EntryPoints.locate g with
  | .ok entries => .ok ⟨g, entries⟩
  | .error p => .error (.missingEntryPoint p)

variable (d : Definition)

/-- The names of the helper functions. -/
def helpers : List String := d.entries.helpers d.graph

/-- Compiles a program, pass by pass. -/
def compileWith (o : Options) : Compiler Shader := do
  let e := d.entries
  let flat := flatten d.graph e
  report flat.notes
  let g := e.attachHints flat.graph
  let calls := CallTable.resolve g
  report (CallTable.notes g)
  let stages := Stages.extract g e calls
  failOn ((stages.firstError? g calls).map Prod.snd)
  if !calls.errors.isEmpty then report [.callsUnchecked calls.errors.length]
  let inferred := infer g calls
  report inferred.notes
  failOn inferred.failure
  failOn (e.toList.findSome? (entryError? inferred.graph))
  let g := (inferred.graph.lowerDiscards e.fragmentColor).lowerCalls calls
  let (g, decls) := bareNames g (flat.fields.declarations g)
  let shader := emit g e o decls stages
  report [.emitted shader.vertex.utf8ByteSize shader.fragment.utf8ByteSize]
  return shader

/-- The shader of a program, with the notes on the way to it. -/
def compile (o : Options) : Except Error Shader × List Note := (d.compileWith o).run.run []

end Definition

end ShaderScript
