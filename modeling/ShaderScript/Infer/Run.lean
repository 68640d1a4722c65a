import ShaderScript.Infer.Fallback

/-!
# Type inference

Evidence spreads along the pairs of nodes that have to agree. Whenever it comes to rest, one rule of
last resort applies and the types spread again.

* `infer`: gives a type to every identifier of a program and to every expression that types reach.
-/

namespace ShaderScript

namespace Infer

/-- Spreads types and applies rules of last resort, at most `n` of them. -/
def settle (c : Context) : Nat → Solver Unit
  | 0 => drain c
  | n + 1 => do
    drain c
    match c.fallback? (← get).graph with
    | none => pure ()
    | some f =>
      f.apply c
      settle c n

/-- The whole of inference. Each rule of last resort gives a type to a node that had none, so the
number of nodes bounds the rounds. -/
def solve (c : Context) : Solver Unit := do
  seed c
  settle c c.graph.size

end Infer

/-- What inference gives. A failed inference keeps the types it has found. -/
structure Inferred where
  graph : Graph
  notes : List Note
  failure : Option Error

/-- Gives a type to every identifier of a program and to every expression that types reach. -/
def infer (g : Graph) (calls : CallTable) : Inferred :=
  let (result, s) := (Infer.solve (.of g calls)).run.run { graph := g }
  { graph := s.graph
    notes := s.notes.toList
    failure := match result with
      | .ok _ => none
      | .error e => some e }

end ShaderScript
