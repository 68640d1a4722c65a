import ShaderScript.Graph.Walk

/-!
# Fragments without color

A `return` without value in the color function abandons the fragment. The shading language writes
that as `discard`, and still wants the function to give a value.

* `Graph.lowerDiscards`: makes every `return` without value of a function a `discard` followed by
  a `return` of zeros.
-/

namespace ShaderScript.Graph

variable (g : Graph)

/-- Adds the number zero. -/
def allocZero : Id × Graph := g.allocTyped (.number "0") (some .float)

/-- Adds `n` times the number zero. -/
def allocZeros : Nat → Graph → List Id × Graph
  | 0, g => ([], g)
  | n + 1, g =>
    let (first, g) := g.allocZero
    let (rest, g) := allocZeros n g
    (first :: rest, g)

/-- Adds the zero of a type with the given number of components. -/
def allocZeroOf (t : Ty) (width : Nat) : Id × Graph :=
  if width = 1 then g.allocZero
  else
    let (callee, g) := g.allocTyped (.ident t.name) (some t)
    let (args, g) := allocZeros width g
    g.allocTyped (.call callee args) (some t)

/-- Makes a `return` without value a `discard` and a `return` of zeros: side by side in the block
that holds it, or in a block of their own. -/
def lowerDiscard (t : Ty) (width : Nat) (g : Graph) (ret : Id) : Graph :=
  match g.kind ret with
  | .ret none =>
    let (value, g) := g.allocZeroOf t width
    let (discard, g) := g.alloc .discard
    match (g.parent? ret).map fun p => (p, g.kind p) with
    | some (p, .block body) =>
      (g.replace p (.block (body.insertIdx (body.idxOf ret) discard))).replace ret
        (.ret (some value))
    | _ =>
      let (returned, g) := g.alloc (.ret (some value))
      g.replace ret (.block [discard, returned])
  | _ => g

/-- Makes every `return` without value of a function a `discard` followed by a `return` of zeros. -/
def lowerDiscards (f : Id) : Graph :=
  match g.kind f with
  | .function name _ _ =>
    let t := (g.ty? name).getD .float
    match t.width? with
    | some width => ((g.returns f).foldl (lowerDiscard t width) g).link
    | none => g
  | _ => g

end ShaderScript.Graph
