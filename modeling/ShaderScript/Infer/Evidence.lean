import ShaderScript.Infer.Links

/-!
# Evidence for types

* `Evidence`: a fact that the program itself gives about the type of a node.
* `Context.evidence`: all of it, in the order in which it is taken in: array literals, then calls of
  known functions, then accesses by position.
-/

namespace ShaderScript.Infer

/-- A fact that the program gives about the type of a node. -/
inductive Evidence where
  | hasType (i : Id) (t : Ty)
  /-- The node is indexed at a literal position. -/
  | indexedAt (i : Id) (k : Nat)
  /-- An array literal with a length that no vector has. -/
  | notAVector (i : Id) (length : Nat)
  /-- A call with a number of arguments that the function does not take. -/
  | wrongArity (e : Known.Entry) (found : Nat)
deriving DecidableEq, Inhabited

namespace Context

variable (c : Context)

/-- An array literal is a vector of numbers. -/
def arrayEvidence (i : Id) : List Evidence :=
  match c.graph.kind i with
  | .array elements =>
    match Ty.vec? elements.length with
    | some t => .hasType i t :: elements.map fun e => .hasType e .float
    | none => [.notAVector i elements.length]
  | _ => []

/-- A call of a known function has the types of its signature. -/
def callEvidence (i : Id) : List Evidence :=
  match c.calls.known? i, c.graph.kind i with
  | some e, .call _ args =>
    .hasType i e.ret ::
      if args.length = e.arity then (args.zip e.params).map fun (a, t) => .hasType a t
      else [.wrongArity e args.length]
  | _, _ => []

/-- A position is a whole number, and what stands there is a number. -/
def indexEvidence (i : Id) : List Evidence :=
  match c.graph.kind i with
  | .index object property =>
    .hasType property .int :: .hasType i .float ::
      ((c.graph.literalIndex? property).map fun k => .indexedAt object k).toList
  | _ => []

/-- All evidence of the program. -/
def evidence : List Evidence :=
  c.order.flatMap c.arrayEvidence ++ c.order.flatMap c.callEvidence ++
    c.order.flatMap c.indexEvidence

end Context

end ShaderScript.Infer
