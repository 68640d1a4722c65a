import ShaderScript.Infer.Solver

/-!
# Types that no evidence reaches

When nothing is left to spread and some node has no type, one node gets its type by a rule of last
resort: the node with the largest literal position widens to the smallest type that has it, then
hints apply, and then the first identifier without type is a number.

* `Fallback`: a rule of last resort at a node.
* `Context.fallback?`: the rule that applies next.
-/

namespace ShaderScript.Infer

/-- A rule of last resort at a node. -/
inductive Fallback where
  | widen (i : Id) (k : Nat)
  | hint (i : Id) (t : Ty)
  | guess (i : Id) (t : Ty)
deriving DecidableEq, Inhabited

namespace Context

variable (c : Context)

/-- The largest literal position at which a node or its binding is indexed. -/
def topIndex? (g : Graph) (i : Id) : Option Nat :=
  ((c.scopes.occurrences i).filterMap fun o => (g.node o).topIndex).max?

/-- The nodes without type, in pre-order. -/
def untyped (g : Graph) : List Id := c.order.filter fun i => (g.ty? i).isNone

/-- The first of the pairs with the largest second part. -/
def firstLargest : List (Id × Nat) → Option (Id × Nat)
  | [] => none
  | p :: ps => some (ps.foldl (fun best q => if best.2 < q.2 then q else best) p)

/-- The node without type that is indexed at the largest literal position. -/
def widening? (g : Graph) : Option Fallback :=
  (firstLargest ((c.untyped g).filterMap fun i => (c.topIndex? g i).map fun k => (i, k))).map
    fun (i, k) => .widen i k

/-- The first node without type that has a hint. -/
def hinting? (g : Graph) : Option Fallback :=
  (c.untyped g).findSome? fun i => (g.node i).hint.map fun t => .hint i t

/-- Whether a node is the callee of a call. -/
def isCallee (i : Id) : Bool :=
  match (c.graph.parent? i).map c.graph.kind with
  | some (.call callee _) => callee == i
  | _ => false

/-- Whether an identifier ends up in the shader under its own type. The names of functions and the
objects that known functions are called through do not. -/
def needsType (i : Id) : Bool :=
  c.graph.isOccurrence i &&
    match c.graph.parent? i with
    | none => true
    | some p =>
      match c.graph.kind p with
      | .function name _ _ => name != i
      | .field object _ => object != i || !c.isCallee p
      | _ => true

/-- The first identifier without type that needs one. -/
def guessing? (g : Graph) : Option Fallback :=
  ((c.untyped g).find? c.needsType).map fun i =>
    .guess i (((c.topIndex? g i).bind Ty.forIndex?).getD .float)

/-- The rule of last resort that applies next. -/
def fallback? (g : Graph) : Option Fallback :=
  ((c.widening? g).or (c.hinting? g)).or (c.guessing? g)

end Context

/-- Adds a note. -/
def note (n : Note) : Solver Unit := modify fun s => { s with notes := s.notes.push n }

/-- Applies a rule of last resort. -/
def Fallback.apply (c : Context) : Fallback → Solver Unit
  | widen i k => do
    let text := (← get).graph.render i
    match Ty.forIndex? k with
    | none => throw (.indexOutOfRange text k)
    | some t =>
      note (.widened text k t)
      assign c i t false
  | hint i t => do
    note (.hinted ((← get).graph.render i) t)
    assign c i t false
  | guess i t => do
    note (.guessed ((← get).graph.render i) t)
    assign c i t true

end ShaderScript.Infer
