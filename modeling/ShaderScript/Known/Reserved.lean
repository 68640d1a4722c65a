import ShaderScript.Known.Catalog

/-!
# Names of the shading language

* `snippets`: helper functions in the shading language that some known calls need.
* `isReserved`: whether a program may not use a name of its own choice.
-/

namespace ShaderScript

/-- What follows `lead` at the front of a text. -/
def after? (lead text : String) : Option String :=
  (lead.toList.isPrefixOf? text.toList).map String.ofList

namespace Known

/-- A helper function in the shading language. -/
structure Snippet where
  name : String
  source : String
deriving DecidableEq, Inhabited

/-- The helper functions. -/
def snippets : List Snippet :=
  [⟨"_mat4_multiplyVec3",
    "vec3 _mat4_multiplyVec3(mat4 m, vec3 v) \x7b return (m * vec4(v, 1.0)).xyz; \x7d"⟩]

/-- The helper function with a name. -/
def snippet? (name : String) : Option Snippet := snippets.find? fun s => s.name == name

/-- Words that the shading language reserves. -/
def keywords : List String :=
  ["attribute", "const", "uniform", "varying", "break", "continue", "do", "for", "while", "if",
    "else", "in", "out", "inout", "float", "int", "void", "bool", "true", "false", "lowp",
    "mediump", "highp", "precision", "invariant", "discard", "return", "mat2", "mat3", "mat4",
    "vec2", "vec3", "vec4", "ivec2", "ivec3", "ivec4", "bvec2", "bvec3", "bvec4", "sampler2D",
    "samplerCube", "struct", "main", "asm", "class", "union", "enum", "typedef", "template",
    "this", "packed", "goto", "switch", "default", "inline", "noinline", "volatile", "public",
    "static", "extern", "external", "interface", "long", "short", "double", "half", "fixed",
    "unsigned", "input", "output", "sizeof", "cast", "namespace", "using"]

/-- The names of known functions that the shading language may hold: undotted ones, and those that
calls are renamed to. -/
def functionNames : List String :=
  (catalog.map Entry.name).filter (fun n => !n.toList.contains '.') ++
  catalog.filterMap fun e => e.form.target?

/-- The reserved names that do not start with `gl_`. -/
def reservedNames : List String := keywords ++ functionNames ++ snippets.map Snippet.name

/-- Whether a program may not use a name of its own choice. -/
def isReserved (name : String) : Bool :=
  (after? "gl_" name).isSome || reservedNames.contains name

end Known

end ShaderScript
