import ShaderScript.EntryPoint

/-!
# Notes of a compilation

Passes report what they decide as notes. A note changes nothing in the result.

* `Note`: a decision worth reporting.
* `Note.text`: the text of a note, after its severity.
-/

namespace ShaderScript

/-- A decision of a pass. -/
inductive Note where
  | parametersIgnored (entry : EntryPoint) (names : List String)
  | notWhitelisted (callee : String)
  | callsUnchecked (count : Nat)
  | typed (expr : String) (ty : Ty)
  | widened (expr : String) (index : Nat) (ty : Ty)
  | hinted (expr : String) (ty : Ty)
  | guessed (expr : String) (ty : Ty)
  | emitted (vertexBytes fragmentBytes : Nat)
deriving DecidableEq, Inhabited

namespace Note

/-- Whether the author should look at a note. -/
def isWarning : Note → Bool
  | parametersIgnored .. | guessed .. => true
  | _ => false

/-- What a note says. -/
def message : Note → String
  | parametersIgnored entry names =>
    entry.name ++ " takes no parameters; ignoring " ++ ", ".intercalate names
  | notWhitelisted callee => "call to '" ++ callee ++ "' is not whitelisted"
  | callsUnchecked count => toString count ++ " call(s) outside both stages were not checked"
  | typed expr ty => expr ++ " : " ++ ty.name
  | widened expr index ty =>
    "'" ++ expr ++ "' is indexed up to " ++ toString index ++ ", widening to " ++ ty.name
  | hinted expr ty => "'" ++ expr ++ "' takes its hinted type " ++ ty.name
  | guessed expr ty => "nothing determines the type of '" ++ expr ++ "', guessing " ++ ty.name
  | emitted vertexBytes fragmentBytes =>
    "emitted " ++ toString vertexBytes ++ " vertex and " ++ toString fragmentBytes ++
      " fragment bytes"

/-- A note with its severity. -/
def text (n : Note) : String := (if n.isWarning then "WARN " else "DEBUG ") ++ n.message

end Note

end ShaderScript
