/-!
# Types of the shading language

* `Ty`: the scalars, the vectors and square matrices of size two to four, and the texture sampler.
* `Ty.vec?`, `Ty.mat?`: the vector and the matrix of a size.
* `Ty.forIndex?`: the smallest type that a literal index fits.
* `Ty.name`, `Ty.ofName?`: the spelling of a type, written and read.
-/

namespace ShaderScript

/-- A type of the shading language. -/
inductive Ty where
  | float
  | int
  | vec2
  | vec3
  | vec4
  | mat2
  | mat3
  | mat4
  | sampler2D
deriving DecidableEq, Inhabited

namespace Ty

/-- Every type. -/
def all : List Ty := [float, int, vec2, vec3, vec4, mat2, mat3, mat4, sampler2D]

/-- The vector with `n` components. -/
def vec? : Nat → Option Ty
  | 2 => some vec2
  | 3 => some vec3
  | 4 => some vec4
  | _ => none

/-- The square matrix of dimension `n`. -/
def mat? : Nat → Option Ty
  | 2 => some mat2
  | 3 => some mat3
  | 4 => some mat4
  | _ => none

/-- The smallest type in which position `k` exists. Scalars have no positions, so a vector of two
components is the least answer; past the last vector component come the matrices, whose entries
are counted column by column. -/
def forIndex? (k : Nat) : Option Ty :=
  if k < 2 then some vec2
  else if k = 2 then some vec3
  else if k = 3 then some vec4
  else if k < 9 then some mat3
  else if k < 16 then some mat4
  else none

/-- The number of components of a scalar or vector; the integer type has none of its own. -/
def width? : Ty → Option Nat
  | float => some 1
  | vec2 => some 2
  | vec3 => some 3
  | vec4 => some 4
  | _ => none

/-- The dimension of a square matrix. -/
def dimension? : Ty → Option Nat
  | mat2 => some 2
  | mat3 => some 3
  | mat4 => some 4
  | _ => none

/-- Whether the type is a matrix. -/
def isMatrix (t : Ty) : Bool := t.dimension?.isSome

/-- The spelling of a type in the shading language. -/
def name : Ty → String
  | float => "float"
  | int => "int"
  | vec2 => "vec2"
  | vec3 => "vec3"
  | vec4 => "vec4"
  | mat2 => "mat2"
  | mat3 => "mat3"
  | mat4 => "mat4"
  | sampler2D => "sampler2D"

/-- The type with a given spelling. -/
def ofName? (s : String) : Option Ty := all.find? fun t => t.name == s

/-- A spelling that names no type. -/
structure Unknown where
  name : String
deriving DecidableEq

/-- The text of the error for a spelling that names no type. -/
def Unknown.message (e : Unknown) : String := "unknown type name '" ++ e.name ++ "'"

/-- Reads a type, or names the spelling that is none. -/
def parse (s : String) : Except Unknown Ty :=
  match ofName? s with
  | some t => .ok t
  | none => .error ⟨s⟩

theorem ofName?_name (t : Ty) : ofName? t.name = some t := by cases t <;> rfl

end Ty

end ShaderScript
