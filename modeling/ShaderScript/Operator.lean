/-!
# Operators of the scripting dialect

* `BinaryOp`, `AssignOp`, `UnaryOp`, `UpdateOp`: the operators the dialect admits.
* `ofSource?`: reads an operator in the spelling of a script.
* `BinaryOp.glsl`, `AssignOp.glsl`, `UpdateOp.glsl`: the spelling in the shading language.
-/

namespace ShaderScript

/-- A binary or logical operator. -/
inductive BinaryOp where
  | add
  | sub
  | mul
  | div
  | rem
  | eq
  | notEq
  | strictEq
  | strictNotEq
  | lt
  | ltEq
  | gt
  | gtEq
  | and
  | or
deriving DecidableEq, Inhabited

namespace BinaryOp

/-- Reads a binary or logical operator. -/
def ofSource? : String → Option BinaryOp
  | "+" => some add
  | "-" => some sub
  | "*" => some mul
  | "/" => some div
  | "%" => some rem
  | "==" => some eq
  | "!=" => some notEq
  | "===" => some strictEq
  | "!==" => some strictNotEq
  | "<" => some lt
  | "<=" => some ltEq
  | ">" => some gt
  | ">=" => some gtEq
  | "&&" => some and
  | "||" => some or
  | _ => none

/-- The spelling in the shading language, where strict comparison is plain comparison. The
remainder has a spelling that is reserved there, so it is printed as a call instead. -/
def glsl : BinaryOp → String
  | add => "+"
  | sub => "-"
  | mul => "*"
  | div => "/"
  | rem => "%"
  | eq | strictEq => "=="
  | notEq | strictNotEq => "!="
  | lt => "<"
  | ltEq => "<="
  | gt => ">"
  | gtEq => ">="
  | and => "&&"
  | or => "||"

end BinaryOp

/-- An assignment operator, plain or compound. -/
inductive AssignOp where
  | set
  | add
  | sub
  | mul
  | div
deriving DecidableEq, Inhabited

namespace AssignOp

/-- Reads an assignment operator. -/
def ofSource? : String → Option AssignOp
  | "=" => some set
  | "+=" => some add
  | "-=" => some sub
  | "*=" => some mul
  | "/=" => some div
  | _ => none

/-- The spelling, which scripts and the shading language share. -/
def glsl : AssignOp → String
  | set => "="
  | add => "+="
  | sub => "-="
  | mul => "*="
  | div => "/="

end AssignOp

/-- A unary operator. -/
inductive UnaryOp where
  | neg
  | plus
  | not
deriving DecidableEq, Inhabited

/-- Reads a unary operator. -/
def UnaryOp.ofSource? : String → Option UnaryOp
  | "-" => some neg
  | "+" => some plus
  | "!" => some not
  | _ => none

/-- An increment or decrement. -/
inductive UpdateOp where
  | increment
  | decrement
deriving DecidableEq, Inhabited

namespace UpdateOp

/-- Reads an increment or decrement. -/
def ofSource? : String → Option UpdateOp
  | "++" => some increment
  | "--" => some decrement
  | _ => none

/-- The spelling, which scripts and the shading language share. -/
def glsl : UpdateOp → String
  | increment => "++"
  | decrement => "--"

end UpdateOp

theorem AssignOp.ofSource?_glsl (op : AssignOp) : ofSource? op.glsl = some op := by
  cases op <;> rfl

theorem UpdateOp.ofSource?_glsl (op : UpdateOp) : ofSource? op.glsl = some op := by
  cases op <;> rfl

end ShaderScript
