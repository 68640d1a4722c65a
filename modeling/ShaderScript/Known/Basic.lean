import ShaderScript.Operator
import ShaderScript.Ty

/-!
# Known functions

* `Known.Form`: how a call of a known function is written in the shading language.
* `Known.Entry`: a known function with its signature and its form.
* `Known.Entry.signature`: the text of a signature.
-/

namespace ShaderScript.Known

/-- How a call of a known function is written in the shading language. -/
inductive Form where
  /-- Leaves the call as it stands. -/
  | keep
  /-- Writes `f(a, b)` as `target(a, b)`. -/
  | rename (target : String)
  /-- Writes `f(a, b)` as `a op b`. -/
  | binary (op : BinaryOp)
  /-- Writes `f(a)` as `op a`. -/
  | unary (op : UnaryOp)
  /-- Writes `f(a)` as `a`. -/
  | argument
  /-- Writes `f(out, a)` as `out = a`. -/
  | assign
  /-- Writes `f(out, a, b)` as `out = a op b`, or as `a op b` when `out` cannot be assigned. -/
  | outBinary (op : BinaryOp)
  /-- Writes `f(out, a)` as `out = op a`, or as `op a` when `out` cannot be assigned. -/
  | outUnary (op : UnaryOp)
  /-- Writes `f(out, a, b)` as `out = target(a, b)`, or as `target(a, b)` when `out` cannot be
  assigned. -/
  | outRename (target : String)
  /-- Writes a fixed text. -/
  | splice (source : String)
  /-- Refuses the call. -/
  | reject (reason : String)
deriving DecidableEq, Inhabited

/-- The name of the function that a call becomes a call of, where the form gives one. -/
def Form.target? : Form → Option String
  | rename target | outRename target => some target
  | _ => none

/-- A function that scripts may call. -/
structure Entry where
  /-- The dotted name at the call site. -/
  name : String
  params : List Ty
  ret : Ty
  form : Form
deriving DecidableEq, Inhabited

namespace Entry

variable (e : Entry)

/-- The number of parameters. -/
def arity : Nat := e.params.length

/-- The name with the parameter types. -/
def signature : String := e.name ++ "(" ++ ",".intercalate (e.params.map Ty.name) ++ ")"

end Entry

end ShaderScript.Known
