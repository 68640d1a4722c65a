import ShaderScript.Error
import ShaderScript.Glsl.Text
import ShaderScript.Note

/-!
# What calls refer to

Every call is of a function that the program declares, of a known function, or of neither. A call
that cannot stand in a shader is an error, which is held back until it is clear that some stage
contains the call.

* `Verdict`: what one call refers to.
* `Graph.verdict?`: the verdict on a node, if it is a call.
* `CallTable`: the targets of all calls and the errors held back.
* `CallTable.resolve`: the table of a program.
-/

namespace ShaderScript

/-- What a call refers to. -/
inductive Target where
  /-- A top-level function of the program. -/
  | user (f : Id)
  | known (e : Known.Entry)
deriving DecidableEq, Inhabited

/-- What is found out about a call. -/
inductive Verdict where
  | target (t : Target)
  | unlisted (callee : String)
deriving DecidableEq, Inhabited

namespace Verdict

/-- The target of a call that has one. -/
def target? : Verdict → Option Target
  | target t => some t
  | unlisted _ => none

/-- The error of a call that cannot stand in a shader. -/
def error? : Verdict → Option Error
  | target (.known ⟨name, _, _, .reject reason⟩) => some (.rejectedCall name reason)
  | target _ => none
  | unlisted callee => some (.notWhitelisted callee)

/-- The note on a call that is not listed. -/
def note? : Verdict → Option Note
  | target _ => none
  | unlisted callee => some (.notWhitelisted callee)

end Verdict

namespace Graph

variable (g : Graph)

/-- The top-level function whose name stands at a node. -/
def userFunction? (callee : Id) : Option Id := (g.identName? callee).bind g.findFunction?

/-- The verdict on a call. A declared function comes before a known one of the same name. -/
def verdict (callee : Id) (arguments : Nat) : Verdict :=
  match g.userFunction? callee with
  | some f => .target (.user f)
  | none =>
    match (g.dottedPath? callee).bind fun path => Known.lookup? path arguments with
    | some e => .target (.known e)
    | none => .unlisted ((g.dottedPath? callee).getD (g.render callee))

/-- The verdict on a node, if it is a call. -/
def verdict? (i : Id) : Option Verdict :=
  match g.kind i with
  | .call callee args => some (g.verdict callee args.length)
  | _ => none

end Graph

/-- The targets of all calls, and the errors held back, in pre-order of the calls. -/
structure CallTable where
  targets : List (Id × Target) := []
  errors : List (Id × Error) := []
deriving DecidableEq, Inhabited

namespace CallTable

/-- The verdicts on the calls of a program, one for each call. -/
def verdicts (g : Graph) : List (Id × Verdict) :=
  g.live.eraseDups.filterMap fun i => (g.verdict? i).map fun v => (i, v)

/-- The table of a program. -/
def resolve (g : Graph) : CallTable :=
  { targets := (verdicts g).filterMap fun (i, v) => v.target?.map fun t => (i, t)
    errors := (verdicts g).filterMap fun (i, v) => v.error?.map fun e => (i, e) }

/-- The notes on calls that are not listed. -/
def notes (g : Graph) : List Note := g.live.filterMap fun i => (g.verdict? i).bind Verdict.note?

variable (t : CallTable)

/-- What a call refers to. -/
def target? (i : Id) : Option Target := t.targets.lookup i

/-- The known function that a call refers to. -/
def known? (i : Id) : Option Known.Entry :=
  match t.target? i with
  | some (.known e) => some e
  | _ => none

/-- The error held back on a node. -/
def error? (i : Id) : Option Error := t.errors.lookup i

/-- The table without the error on a node. -/
def eraseError (i : Id) : CallTable := { t with errors := t.errors.filter fun p => p.1 != i }

end CallTable

end ShaderScript
