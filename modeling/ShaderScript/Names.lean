import ShaderScript.Bucket
import ShaderScript.Flatten
import ShaderScript.Known.Reserved

/-!
# Final names

The marks in front of flat names come off wherever the bare name is free: no identifier has it, the
shading language does not reserve it, and no other bucket has a field of that name. Varyings keep
their stem, since both programs have to agree on it.

* `Graph.identifierNames`: the names in use.
* `Naming.bareField`, `Naming.bareLocals`: take the marks off inputs and off variables.
* `Graph.bareNames`: both, with the declarations under their final names.
-/

namespace ShaderScript

namespace Graph

variable (g : Graph)

/-- The names of the identifiers that stand for variables, in order of first occurrence. -/
def identifierNames : List String :=
  ((g.live.filter fun i => !g.isPropertyName i).filterMap g.identName?).eraseDups

/-- Gives one name to all identifiers with another. -/
def renameEverywhere (old new : String) : Graph :=
  g.live.foldl (fun g i =>
    if g.identName? i == some old && !g.isPropertyName i then g.rename i new else g) g

end Graph

/-- A program on the way to its final names, with all names that were ever in use. -/
structure Naming where
  graph : Graph
  used : List String

namespace Naming

variable (n : Naming)

/-- Whether a name may be given to something. -/
def isFree (name : String) : Bool := !Known.isReserved name && !n.used.contains name

/-- Gives a name that is free. -/
def rename (old new : String) : Naming :=
  { graph := n.graph.renameEverywhere old new, used := n.used ++ [new] }

/-- Whether the stem of an input comes off. -/
def takesBareField (decls : List FieldDecl) (d : FieldDecl) : Bool :=
  d.bucket != .varyings && (decls.filter fun other => other.field == d.field).length ≤ 1 &&
    n.isFree d.field

/-- Takes the stem off an input where that is safe. -/
def bareField (decls : List FieldDecl) (s : Naming × List FieldDecl) (d : FieldDecl) :
    Naming × List FieldDecl :=
  if s.1.takesBareField decls d then
    (s.1.rename d.name d.field, s.2 ++ [{ d with name := d.field }])
  else (s.1, s.2 ++ [d])

/-- Takes the mark off a variable where that is safe. -/
def bareLocal (name : String) : Naming :=
  match after? localMark name with
  | some bare => if bare != "" && n.isFree bare then n.rename name bare else n
  | none => n

/-- Takes the marks off variables where that is safe. -/
def bareLocals : Naming := n.used.foldl bareLocal n

end Naming

/-- Takes the marks off names where that is safe, and returns the declarations under their final
names. -/
def bareNames (g : Graph) (decls : List FieldDecl) : Graph × List FieldDecl :=
  let start : Naming := { graph := g, used := g.identifierNames }
  let (n, decls) := decls.foldl (Naming.bareField decls) (start, [])
  (n.bareLocals.graph, decls)

end ShaderScript
