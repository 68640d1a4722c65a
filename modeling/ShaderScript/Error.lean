import ShaderScript.EntryPoint
import ShaderScript.Estree.Basic
import ShaderScript.Known.Catalog

/-!
# Errors of a compilation

* `Error`: why a program has no shader.
* `Error.message`: the text of an error.
-/

namespace ShaderScript

/-- Why a program has no shader. -/
inductive Error where
  /-- An entry point that has to be there is not declared. -/
  | missingEntryPoint (entry : EntryPoint)
  /-- Two pieces of evidence give different types to one expression. -/
  | typeContradiction (expr : String) (first second : Ty)
  /-- A known function is called with the wrong number of arguments. -/
  | arityMismatch (callee : String) (expected found : Nat)
  /-- A call of something that is neither declared nor known. -/
  | notWhitelisted (callee : String)
  /-- A call of a known function that shaders cannot have. -/
  | rejectedCall (callee reason : String)
  /-- A literal index beyond every vector and matrix. -/
  | indexOutOfRange (expr : String) (index : Nat)
  /-- An array literal that is no vector. -/
  | invalidVectorLiteral (expr : String) (length : Nat)
  /-- An entry point of a type that its stage cannot take. -/
  | invalidEntryPointType (entry : EntryPoint) (ty : Ty)
  /-- The document that holds the program is refused. -/
  | source (e : Estree.Error)
deriving DecidableEq, Inhabited

/-- The text of an error. -/
def Error.message : Error → String
  | missingEntryPoint entry =>
    "could not find a definition for '" ++ entry.name ++ "'; it is a required function"
  | typeContradiction expr first second =>
    "type inference failed for '" ++ expr ++ "': it is both " ++ first.name ++ " and " ++
      second.name
  | arityMismatch callee expected found =>
    callee ++ " should have " ++ toString expected ++ " arguments, it has " ++ toString found
  | notWhitelisted callee =>
    "functions must be on a whitelist to be acceptable; " ++ callee ++
      " isn't on it. Available are: " ++ Known.signatures ++ "."
  | rejectedCall callee reason => callee ++ " cannot be used in a shader: " ++ reason
  | indexOutOfRange expr index =>
    "index " ++ toString index ++ " in '" ++ expr ++
      "' is out of range for every vector and matrix type"
  | invalidVectorLiteral expr length =>
    "'" ++ expr ++ "' has " ++ toString length ++ " elements; vector literals need 2 to 4"
  | invalidEntryPointType entry ty =>
    entry.name ++ " must return float or a vector, it returns " ++ ty.name
  | source e => e.message

end ShaderScript
