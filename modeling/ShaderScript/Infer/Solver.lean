import ShaderScript.Infer.Evidence

/-!
# Spreading types

* `State`: the program with the types found so far, and the nodes whose pairs are still to look at.
* `assign`: gives a type to a node and to its whole binding.
* `share`: makes two nodes agree.
* `drain`: spreads types until no pair is left to look at.

A computation that fails keeps the types it has found.
-/

namespace ShaderScript.Infer

/-- How far inference has come. -/
structure State where
  graph : Graph
  /-- Nodes with a type whose pairs are still to look at, the latest first. -/
  pending : List Id := []
  notes : Array Note := #[]
deriving Inhabited

/-- A computation that gives types to nodes or fails. -/
abbrev Solver := ExceptT Error (StateM State)

/-- The error of a node that has one type and needs another. -/
def contradiction (g : Graph) (i : Id) (first second : Ty) : Error :=
  .typeContradiction (g.render i) first second

/-- The state after a node without type has got one. -/
def State.give (s : State) (i : Id) (t : Ty) (guessed : Bool) : State :=
  { graph := s.graph.modify i ({ · with ty := some t, guessed })
    pending := i :: s.pending
    notes := s.notes.push (.typed (s.graph.render i) t) }

/-- Gives a type to one node. -/
def assignNode (t : Ty) (guessed : Bool) (i : Id) : Solver Unit := do
  let s ← get
  match s.graph.ty? i with
  | some found => if found = t then pure () else throw (contradiction s.graph i found t)
  | none => set (s.give i t guessed)

/-- Gives a type to a node and to its whole binding. -/
def assign (c : Context) (i : Id) (t : Ty) (guessed : Bool) : Solver Unit :=
  (c.scopes.occurrences i).forM (assignNode t guessed)

/-- Makes two nodes agree; nothing happens while both have no type. -/
def share (c : Context) (p : Id × Id) : Solver Unit := do
  let g := (← get).graph
  match g.ty? p.1, g.ty? p.2 with
  | some t, some u => if t = u then pure () else throw (contradiction g p.2 u t)
  | some t, none => assign c p.2 t (g.node p.1).guessed
  | none, some u => assign c p.1 u (g.node p.2).guessed
  | none, none => pure ()

/-- Notes that a node is indexed at a position. -/
def observeIndex (i : Id) (k : Nat) : Solver Unit :=
  modify fun s =>
    { s with graph := s.graph.modify i fun n =>
        { n with topIndex := some (max (n.topIndex.getD k) k) } }

/-- Takes in one piece of evidence. -/
def Evidence.take (c : Context) : Evidence → Solver Unit
  | hasType i t => assign c i t false
  | indexedAt i k => observeIndex i k
  | notAVector i length => do throw (.invalidVectorLiteral ((← get).graph.render i) length)
  | wrongArity e found => throw (.arityMismatch e.name e.arity found)

/-- Takes in all evidence. -/
def seed (c : Context) : Solver Unit := c.evidence.forM (Evidence.take c)

/-- Spreads the types of pending nodes, at most `n` of them. -/
def drainUpTo (c : Context) : Nat → Solver Unit
  | 0 => pure ()
  | n + 1 => do
    let s ← get
    match s.pending with
    | [] => pure ()
    | i :: pending =>
      set { s with pending }
      (c.links i).forM (share c)
      drainUpTo c n

/-- Spreads types until no node is pending. A node becomes pending once, when it gets its type, so
the number of nodes bounds the steps. -/
def drain (c : Context) : Solver Unit := drainUpTo c c.graph.size

end ShaderScript.Infer
