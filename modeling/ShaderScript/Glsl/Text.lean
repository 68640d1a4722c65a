import ShaderScript.Graph.Walk

/-!
# Source text of the shading language

An expression is one piece of text. A statement is a list of lines, each nested body one step
further in.

* `exprAt`, `linesAt`: the text of an expression and the lines of a statement, to a depth.
* `Graph.render`: the text of any node.
* `Graph.lines`: the lines of a statement.
* `Graph.functionLines`: the lines of a function declaration.

A step from a node to a child, and a step from an expression to the statement it is made of, each
take one off the depth. So a graph without cycles needs at most twice its number of nodes.
-/

namespace ShaderScript.Glsl

/-- Texts with commas between them. -/
def commaList (texts : List String) : String := ", ".intercalate texts

/-! ## Expressions -/

/-- A number. One that consists of digits gets a point where a `float` is needed. -/
def numberText (raw : String) (ty : Option Ty) : String :=
  if raw.toList.all Char.isDigit && ty == some .float then raw ++ "." else raw

/-- A binary operation in parentheses; the remainder is a call. -/
def binaryText (op : BinaryOp) (left right : String) : String :=
  match op with
  | .rem => "mod(" ++ left ++ ", " ++ right ++ ")"
  | _ => "(" ++ left ++ " " ++ op.glsl ++ " " ++ right ++ ")"

/-- A sign before a text. A text that starts with the same sign is put in parentheses, so that two
minus signs do not read as a decrement. -/
def signed (sign : Char) (text : String) : String :=
  if text.front? = some sign then sign.toString ++ "(" ++ text ++ ")"
  else sign.toString ++ text

/-- A unary operation; a plus sign is not written. -/
def unaryText (op : UnaryOp) (argument : String) : String :=
  match op with
  | .plus => argument
  | .neg => signed '-' argument
  | .not => signed '!' argument

/-- An increment or decrement. -/
def updateText (op : UpdateOp) (leading : Bool) (argument : String) : String :=
  if leading then op.glsl ++ argument else argument ++ op.glsl

/-- The access to a position. A matrix of dimension `n` counts its entries column by column, so
position `k` is row `k % n` of column `k / n`. -/
def indexText (dimension : Option Nat) (literal : Option Nat) (target position : String) : String :=
  match dimension, literal with
  | none, _ => target ++ "[" ++ position ++ "]"
  | some n, some k => target ++ "[" ++ toString (k / n) ++ "][" ++ toString (k % n) ++ "]"
  | some n, none =>
    let column := "(" ++ position ++ " / " ++ toString n ++ ")"
    target ++ "[" ++ column ++ "][(" ++ position ++ " - (" ++ column ++ " * " ++ toString n ++ "))]"

/-- The constructor that an array literal is written with. -/
def constructorName (ty : Option Ty) (length : Nat) : String :=
  match ty with
  | some t => t.name
  | none => "vec" ++ toString length

/-! ## Statements -/

/-- The type under which a node is declared, `float` where inference found none. -/
def declaredType (g : Graph) (i : Id) : String := ((g.ty? i).getD .float).name

/-- A declarator with its type. -/
def declaratorText (g : Graph) (expr : Id → String) (d : Id) : String :=
  match g.kind d with
  | .declarator name none => declaredType g name ++ " " ++ expr name
  | .declarator name (some init) =>
    declaredType g name ++ " " ++ expr name ++ " = " ++ expr init
  | _ => expr d

/-- What follows the first space of a text, or the text if it has none. -/
def afterSpace (text : String) : String :=
  match text.toList.dropWhile (· != ' ') with
  | [] => text
  | _ :: rest => String.ofList rest

/-- The declarators in the head of a `for` statement, of which only the first shows its type. -/
def headerText : List String → String
  | [] => ""
  | first :: rest => commaList (first :: rest.map afterSpace)

/-- What stands first in the head of a `for` statement. -/
def initText (g : Graph) (expr : Id → String) : Option Id → String
  | none => ""
  | some i =>
    match g.kind i with
    | .varDecl ds => headerText (ds.map (declaratorText g expr))
    | _ => expr i

/-- A condition in one pair of parentheses. -/
def conditionText (g : Graph) (expr : Id → String) (test : Id) : String :=
  match g.kind test with
  | .binary .. | .conditional .. => expr test
  | _ => "(" ++ expr test ++ ")"

/-- A parameter with its type. -/
def paramText (g : Graph) (expr : Id → String) (p : Id) : String :=
  (if (g.node p).out then "out " else "") ++ declaredType g p ++ " " ++ expr p

/-- The lines of a body, one step further in. Braces around it are not repeated. -/
def nestedLines (g : Graph) (indent : String) (lines : Id → List String) (body : Id) :
    List String :=
  (match g.kind body with
  | .block statements => statements.flatMap lines
  | _ => lines body).map (indent ++ ·)

/-- The lines of a function declaration. It has a type when it gives a value anywhere or when
`valued`. -/
def functionText (g : Graph) (indent : String) (expr : Id → String) (lines : Id → List String)
    (valued : Bool) (f : Id) : List String :=
  match g.kind f with
  | .function name params body =>
    let ret := if valued || g.returnsValue f then declaredType g name else "void"
    (ret ++ " " ++ expr name ++ "(" ++ commaList (params.map (paramText g expr)) ++ ") \x7b") ::
      (nestedLines g indent lines body ++ ["\x7d"])
  | _ => []

/-- The lines of an `if` statement that goes on where another ends. -/
def continued : List String → List String
  | [] => []
  | first :: rest => ("\x7d else " ++ first) :: rest

/-- The lines that follow the first branch of an `if` statement. -/
def elseLines (g : Graph) (indent : String) (lines : Id → List String) : Option Id → List String
  | none => ["\x7d"]
  | some alternate =>
    match g.kind alternate with
    | .ifElse .. => continued (lines alternate)
    | _ => "\x7d else \x7b" :: (nestedLines g indent lines alternate ++ ["\x7d"])

/-- An expression statement; each part of a sequence has a line of its own. -/
def exprStmtLines (g : Graph) (expr : Id → String) (e : Id) : List String :=
  match g.kind e with
  | .sequence (a :: b :: rest) => (a :: b :: rest).map fun e => expr e ++ ";"
  | _ => [expr e ++ ";"]

mutual

/-- The text of a node, to a depth. A statement is its lines. -/
def exprAt (g : Graph) (indent : String) : Nat → Id → String
  | 0, _ => ""
  | n + 1, i =>
    let expr := exprAt g indent n
    match g.kind i with
    | .ident name => name
    | .this => "this"
    | .bool value => if value then "true" else "false"
    | .number raw => numberText raw (g.ty? i)
    | .binary op left right => binaryText op (expr left) (expr right)
    | .assign op left right => expr left ++ " " ++ op.glsl ++ " " ++ expr right
    | .unary op argument => unaryText op (expr argument)
    | .update op leading argument => updateText op leading (expr argument)
    | .conditional test consequent alternate =>
      "(" ++ expr test ++ " ? " ++ expr consequent ++ " : " ++ expr alternate ++ ")"
    | .call callee args => expr callee ++ "(" ++ commaList (args.map expr) ++ ")"
    | .field object property => expr object ++ "." ++ expr property
    | .index object property =>
      indexText ((g.ty? object).bind Ty.dimension?) (g.literalIndex? property) (expr object)
        (expr property)
    | .array elements =>
      constructorName (g.ty? i) elements.length ++ "(" ++ commaList (elements.map expr) ++ ")"
    | .sequence [e] => expr e
    | .sequence exprs => "(" ++ commaList (exprs.map expr) ++ ")"
    | .raw source => source
    | .program _ | .function .. | .varDecl _ | .declarator .. | .block _ | .exprStmt _ | .ifElse ..
    | .forLoop .. | .ret _ | .discard => "\n".intercalate (linesAt g indent n i)

/-- The lines of a statement, to a depth. -/
def linesAt (g : Graph) (indent : String) : Nat → Id → List String
  | 0, _ => []
  | n + 1, i =>
    let expr := exprAt g indent n
    let lines := linesAt g indent n
    match g.kind i with
    | .varDecl ds => ds.map fun d => declaratorText g expr d ++ ";"
    | .declarator .. => [declaratorText g expr i ++ ";"]
    | .exprStmt e => exprStmtLines g expr e
    | .ret none => ["return;"]
    | .ret (some argument) => ["return " ++ expr argument ++ ";"]
    | .discard => ["discard;"]
    | .block _ => "\x7b" :: (nestedLines g indent lines i ++ ["\x7d"])
    | .ifElse test consequent alternate =>
      ("if " ++ conditionText g expr test ++ " \x7b") ::
        (nestedLines g indent lines consequent ++ elseLines g indent lines alternate)
    | .forLoop init test step body =>
      ("for (" ++ initText g expr init ++ "; " ++ (test.map expr).getD "" ++ "; " ++
          (step.map expr).getD "" ++ ") \x7b") ::
        (nestedLines g indent lines body ++ ["\x7d"])
    | .function .. => functionText g indent expr lines false i
    | .program body => body.flatMap lines
    | _ => [expr i ++ ";"]

end

end ShaderScript.Glsl

namespace ShaderScript.Graph

open Glsl

variable (g : Graph)

/-- A depth that no node lies beyond. -/
def textDepth : Nat := 2 * g.size

/-- The text of any node, as it stands in a program. -/
def render (i : Id) : String := exprAt g "    " g.textDepth i

/-- The lines of a statement. -/
def lines (indent : String) (i : Id) : List String := linesAt g indent g.textDepth i

/-- The lines of a function declaration, with a type when `valued`. -/
def functionLines (indent : String) (valued : Bool) (f : Id) : List String :=
  functionText g indent (exprAt g indent g.textDepth) (linesAt g indent g.textDepth) valued f

end ShaderScript.Graph
