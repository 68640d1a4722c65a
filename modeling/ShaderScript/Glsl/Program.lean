import ShaderScript.Bucket
import ShaderScript.Glsl.Text
import ShaderScript.Stage

/-!
# Whole programs of the shading language

* `Options`: the choices that an author has.
* `Stage`: the two stages, with the inputs that each declares.
* `programText`: the program of a stage.
-/

namespace ShaderScript

/-- The precision of numbers in both programs. -/
inductive Precision where
  | low
  | medium
  | high
deriving DecidableEq, Inhabited

/-- The spelling of a precision. -/
def Precision.name : Precision → String
  | low => "lowp"
  | medium => "mediump"
  | high => "highp"

/-- The choices that an author has. -/
structure Options where
  precision : Precision := .medium
  /-- One step of indentation. -/
  indent : String := "    "
deriving DecidableEq, Inhabited

/-- A stage of the rendering pipeline. -/
inductive Stage where
  | vertex
  | fragment
deriving DecidableEq, Inhabited

/-- Whether a stage declares the inputs of a bucket. Fragments have no attributes. -/
def Stage.declares : Stage → Bucket → Bool
  | vertex, _ => true
  | fragment, b => b != .attributes

namespace Glsl

variable (g : Graph) (e : EntryPoints) (o : Options)

/-- The declaration of an input. -/
def declarationText (d : FieldDecl) : String :=
  d.bucket.qualifier ++ " " ++ d.ty.name ++ " " ++ d.name ++ ";\n"

/-- The declarations of a stage, with a blank line after them. -/
def declarationsText (stage : Stage) (decls : List FieldDecl) : String :=
  match decls.filter fun d => stage.declares d.bucket with
  | [] => ""
  | decls => String.join (decls.map declarationText) ++ "\n"

/-- The lines of an item. Entry points always give a value. -/
def itemLines : Item → List String
  | .library s => [s.source]
  | .global stmt => g.lines o.indent stmt
  | .function f => g.functionLines o.indent (e.contains f) f

/-- An item, with a blank line after it. -/
def itemText (item : Item) : String := "\n".intercalate (itemLines g e o item) ++ "\n\n"

/-- The call of an entry point. -/
def entryCall (f : Id) : String := (g.functionName? f).getD "" ++ "()"

/-- The type that an entry point gives. -/
def entryType? (f : Id) : Option Ty :=
  match g.kind f with
  | .function name _ _ => g.ty? name
  | _ => none

/-- The value of an entry point with four components: missing ones are zero, and the last is one. -/
def outputText (f : Id) : String :=
  let width := ((entryType? g f).bind Ty.width?).getD 4
  if 4 ≤ width then entryCall g f
  else "vec4(" ++ commaList (entryCall g f :: (List.replicate (3 - width) "0.0" ++ ["1.0"])) ++ ")"

/-- What the main function of a stage does. -/
def mainLines : Stage → List String
  | .vertex =>
    ("gl_Position = " ++ outputText g e.vertexPosition ++ ";") ::
      e.pointSize.toList.map fun f => "gl_PointSize = " ++ entryCall g f ++ ";"
  | .fragment => ["gl_FragColor = " ++ outputText g e.fragmentColor ++ ";"]

/-- The main function of a stage. -/
def mainText (stage : Stage) : String :=
  "void main() \x7b\n" ++
    String.join ((mainLines g e stage).map fun line => o.indent ++ line ++ "\n") ++ "\x7d\n"

/-- The program of a stage. -/
def programText (stage : Stage) (decls : List FieldDecl) (items : List Item) : String :=
  "precision " ++ o.precision.name ++ " float;\n\n" ++ declarationsText stage decls ++
    String.join (items.map (itemText g e o)) ++ mainText g e o stage

end Glsl

end ShaderScript
