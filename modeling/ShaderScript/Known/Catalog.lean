import ShaderScript.Known.Basic

/-!
# The catalog of known functions

* `scalarMath`, `vectorAlgebra`: the two parts of the catalog.
* `catalog`: every known function, in the order in which signatures are listed.
* `lookup?`: the entry that a call of a name with a number of arguments refers to.
* `signatures`: the text that lists every signature.
-/

namespace ShaderScript.Known

open Ty

/-! ## Scalar mathematics, constructors and texture sampling -/

/-- Functions of one number, known by their name and under `Math`. -/
def unaryMath : List String :=
  ["sin", "cos", "tan", "asin", "acos", "atan", "exp", "log", "sqrt", "abs", "sign", "floor",
    "ceil"]

/-- Functions of two numbers, known by their name and under `Math`. -/
def binaryMath : List String := ["pow", "min", "max"]

/-- Scalar mathematics, constructors and texture sampling. -/
def scalarMath : List Entry :=
  [⟨"mat4.multiplyVec3", [mat4, vec3], vec3, .rename "_mat4_multiplyVec3"⟩,
    ⟨"vec3.scale", [vec3, float], vec3, .binary .mul⟩,
    ⟨"vec2", [float, float], vec2, .keep⟩,
    ⟨"vec3", [float, float, float], vec3, .keep⟩,
    ⟨"vec3", [vec2, float], vec3, .keep⟩,
    ⟨"vec4", [float, float, float, float], vec4, .keep⟩,
    ⟨"vec4", [vec3, float], vec4, .keep⟩,
    ⟨"Math.atan2", [float, float], float, .rename "atan"⟩] ++
  unaryMath.map (fun f => ⟨f, [float], float, .keep⟩) ++
  binaryMath.map (fun f => ⟨f, [float, float], float, .keep⟩) ++
  [⟨"atan", [float, float], float, .keep⟩,
    ⟨"texture2D", [sampler2D, vec2], vec4, .keep⟩,
    ⟨"mod", [float, float], float, .keep⟩,
    ⟨"addVecs4", [vec4, vec4], vec4, .binary .add⟩,
    ⟨"clamp", [float, float, float], float, .keep⟩] ++
  unaryMath.map (fun f => ⟨"Math." ++ f, [float], float, .rename f⟩) ++
  binaryMath.map (fun f => ⟨"Math." ++ f, [float, float], float, .rename f⟩) ++
  [⟨"Math.random", [], float, .reject "shaders have no random number source"⟩]

/-! ## Vector and matrix algebra

Most of these functions write into their first argument. -/

/-- What vectors and matrices both provide. -/
def sharedAlgebra (t : Ty) : List Entry :=
  [⟨t.name ++ ".clone", [t], t, .argument⟩,
    ⟨t.name ++ ".copy", [t, t], t, .assign⟩,
    ⟨t.name ++ ".create", [], t, .splice (t.name ++ "(0)")⟩,
    ⟨t.name ++ ".mul", [t, t, t], t, .outBinary .mul⟩,
    ⟨t.name ++ ".multiply", [t, t, t], t, .outBinary .mul⟩]

/-- What only vectors provide. -/
def vectorOnly (t : Ty) : List Entry :=
  [⟨t.name ++ ".add", [t, t, t], t, .outBinary .add⟩,
    ⟨t.name ++ ".negate", [t, t], t, .outUnary .neg⟩,
    ⟨t.name ++ ".div", [t, t, t], t, .outBinary .div⟩,
    ⟨t.name ++ ".divide", [t, t, t], t, .outBinary .div⟩,
    ⟨t.name ++ ".cross", [t, t, t], t, .outRename "cross"⟩,
    ⟨t.name ++ ".normalize", [t, t], t, .outRename "normalize"⟩,
    ⟨t.name ++ ".distance", [t, t], float, .rename "distance"⟩,
    ⟨t.name ++ ".dist", [t, t], float, .rename "distance"⟩,
    ⟨t.name ++ ".sub", [t, t, t], t, .outBinary .sub⟩,
    ⟨t.name ++ ".subtract", [t, t, t], t, .outBinary .sub⟩,
    ⟨t.name ++ ".scale", [t, t, float], t, .outBinary .mul⟩,
    ⟨t.name ++ ".dot", [t, t], float, .rename "dot"⟩,
    ⟨t.name ++ ".length", [t], float, .rename "length"⟩,
    ⟨t.name ++ ".len", [t], float, .rename "length"⟩,
    ⟨t.name ++ ".fromValues", List.replicate (t.width?.getD 0) float, t, .rename t.name⟩,
    ⟨t.name ++ ".max", [t, t, t], t, .outRename "max"⟩,
    ⟨t.name ++ ".min", [t, t, t], t, .outRename "min"⟩]

/-- Vector and matrix algebra. -/
def vectorAlgebra : List Entry :=
  [mat2, vec2, mat3, vec3, mat4, vec4].flatMap sharedAlgebra ++
  [vec2, vec3, vec4].flatMap vectorOnly

/-! ## The catalog -/

/-- Every known function. -/
def catalog : List Entry := scalarMath ++ vectorAlgebra

/-- The entry that a call refers to. Overloads are told apart by the number of arguments; when none
has that number it is the first, and the call is at fault. -/
def lookup? (name : String) (arguments : Nat) : Option Entry :=
  let candidates := catalog.filter fun e => e.name == name
  (candidates.find? fun e => e.arity == arguments).or candidates.head?

/-- Every signature, one on a line. -/
def signatures : String := ",\n".intercalate (catalog.map Entry.signature)

end ShaderScript.Known
