import ShaderScript.Proofs.Graph.Link
import ShaderScript.Proofs.Scope.Renaming

/-!
# Checked execution

The passes look nodes up by number, and a number that no node has would give them a node that is not
there. Here every lookup is a step that may fail. The passes are written again in such steps, and
where no step fails they give what they give without the checks.

* `Fault`, `Checked`: what may go wrong, and computations that stop when it does.
* `Checked.mapM_ok`, `Checked.foldlM_ok`, …: one rule for each kind of loop.
* `Checked.node`, `Checked.modify`: the only two steps that touch the nodes of a graph.
* `Graph.Closed`: every number that a node holds, as a child or as its parent, is that of a node.
* `Graph.Covers`: a closed graph with `n` nodes, as most passes keep it.
* `Checked.kind_eq`, `Checked.identName?_eq`, …: a question about a node, asked in checked steps.
-/

namespace ShaderScript

/-- What a step may run into. -/
inductive Fault where
  /-- No node has the number. -/
  | noNode (i : Id)
  /-- No binding has the number. -/
  | noBinding (n : Nat)
  /-- A list has no such position. -/
  | noPosition (n : Nat)
  /-- A text has no boundary between characters there. -/
  | noBoundary (offset : Nat)
  | zeroDivisor
  /-- An entry of the catalog has the wrong number of parameters for its form. -/
  | misfit (name : String)
deriving DecidableEq

/-- A computation that stops at the first fault. -/
abbrev Checked := Except Fault

namespace Checked

/-! ## Loops -/

section Loops

variable {α β σ : Type}

@[simp] theorem ok_bind (a : α) (f : α → Checked β) : ((.ok a : Checked α) >>= f) = f a := rfl

@[simp] theorem map_ok (a : α) (f : α → β) : f <$> (.ok a : Checked α) = .ok (f a) := rfl

@[simp] theorem pure_eq_ok (a : α) : (pure a : Checked α) = .ok a := rfl

/-- Keeps the values for which a test holds. -/
def filter (p : α → Checked Bool) (xs : List α) : Checked (List α) := do
  let tested ← xs.mapM fun x => return (x, ← p x)
  return (tested.filter Prod.snd).map Prod.fst

/-- Collects the values that there are. -/
def filterMap (f : α → Checked (Option β)) (xs : List α) : Checked (List β) :=
  List.reduceOption <$> xs.mapM f

/-- Appends the lists. -/
def flatMap (f : α → Checked (List β)) (xs : List α) : Checked (List β) :=
  List.flatten <$> xs.mapM f

variable {xs : List α}

theorem mapM_ok {f' : α → Checked β} {f : α → β} (h : ∀ x ∈ xs, f' x = .ok (f x)) :
    xs.mapM f' = .ok (xs.map f) := by
  induction xs with
  | nil => rfl
  | cons x xs ih =>
    rw [List.mapM_cons, h x List.mem_cons_self, ih fun y hy => h y (List.mem_cons_of_mem _ hy)]
    rfl

theorem filter_ok {p' : α → Checked Bool} {p : α → Bool} (h : ∀ x ∈ xs, p' x = .ok (p x)) :
    filter p' xs = .ok (xs.filter p) := by
  have htest : (xs.mapM fun x => do return (x, ← p' x)) = .ok (xs.map fun x => (x, p x)) :=
    mapM_ok fun x hx => by rw [h x hx]; rfl
  unfold filter
  rw [htest, ok_bind, pure_eq_ok, List.filter_map, List.map_map]
  exact congrArg Except.ok (List.map_id _)

theorem filterMap_ok {f' : α → Checked (Option β)} {f : α → Option β}
    (h : ∀ x ∈ xs, f' x = .ok (f x)) : filterMap f' xs = .ok (xs.filterMap f) := by
  unfold filterMap
  rw [mapM_ok h, map_ok]
  exact congrArg Except.ok List.filterMap_map

theorem flatMap_ok {f' : α → Checked (List β)} {f : α → List β}
    (h : ∀ x ∈ xs, f' x = .ok (f x)) : flatMap f' xs = .ok (xs.flatMap f) := by
  unfold flatMap
  rw [mapM_ok h, map_ok, List.flatMap_def]

theorem anyM_ok {p' : α → Checked Bool} {p : α → Bool} (h : ∀ x ∈ xs, p' x = .ok (p x)) :
    xs.anyM p' = .ok (xs.any p) := by
  induction xs with
  | nil => rfl
  | cons x xs ih =>
    rw [List.anyM, h x List.mem_cons_self, ok_bind, List.any_cons]
    cases p x with
    | true => rfl
    | false => exact ih fun y hy => h y (List.mem_cons_of_mem _ hy)

theorem findM?_ok {p' : α → Checked Bool} {p : α → Bool} (h : ∀ x ∈ xs, p' x = .ok (p x)) :
    xs.findM? p' = .ok (xs.find? p) := by
  induction xs with
  | nil => rfl
  | cons x xs ih =>
    rw [List.findM?, h x List.mem_cons_self, ok_bind, List.find?_cons]
    cases p x with
    | true => rfl
    | false => exact ih fun y hy => h y (List.mem_cons_of_mem _ hy)

theorem findSomeM?_ok {f' : α → Checked (Option β)} {f : α → Option β}
    (h : ∀ x ∈ xs, f' x = .ok (f x)) : xs.findSomeM? f' = .ok (xs.findSome? f) := by
  induction xs with
  | nil => rfl
  | cons x xs ih =>
    rw [List.findSomeM?_cons, h x List.mem_cons_self, ok_bind, List.findSome?_cons]
    cases f x with
    | some y => rfl
    | none => exact ih fun y hy => h y (List.mem_cons_of_mem _ hy)

/-- A loop over a state that keeps what its steps rest on. -/
theorem foldlM_ok {f' : σ → α → Checked σ} {f : σ → α → σ} {I : σ → Prop} {s : σ} (hs : I s)
    (h : ∀ s, I s → ∀ x ∈ xs, f' s x = .ok (f s x) ∧ I (f s x)) :
    xs.foldlM f' s = .ok (xs.foldl f s) ∧ I (xs.foldl f s) := by
  induction xs generalizing s with
  | nil => exact ⟨rfl, hs⟩
  | cons x xs ih =>
    obtain ⟨hx, hI⟩ := h s hs x List.mem_cons_self
    rw [List.foldlM_cons, hx, ok_bind, List.foldl_cons]
    exact ih hI fun s hs y hy => h s hs y (List.mem_cons_of_mem _ hy)

end Loops

/-! ## Nodes -/

section Nodes

variable (g : Graph) (i : Id)

/-- The node with a number. -/
def node : Checked Node :=
  match g.nodes[i]? with
  | some n => .ok n
  | none => .error (.noNode i)

/-- Changes one node. -/
def modify (f : Node → Node) : Checked Graph := do
  let _ ← node g i
  return g.modify i f

/-- Asks what a node is. -/
def ask {α : Type} (f : Kind → α) : Checked α := do return f (← node g i).kind

/-- What a node is. -/
def kind : Checked Kind := ask g i id

/-- The children of a node. -/
def children : Checked (List Id) := ask g i Kind.children

/-- The type of a node, if it has one. -/
def ty? : Checked (Option Ty) := do return (← node g i).ty

/-- The node that holds `i`. -/
def parent? : Checked (Option Id) := do return (← node g i).parent

/-- Replaces what a node is. -/
def replace (k : Kind) : Checked Graph := modify g i ({ · with kind := k })

/-- The name of an identifier. -/
def identName? : Checked (Option String) := ask g i fun
  | .ident name => some name
  | _ => none

/-- Renames an identifier. -/
def rename (name : String) : Checked Graph := do
  match ← kind g i with
  | .ident _ => replace g i (.ident name)
  | _ => return g

/-- Renames every identifier of a list. -/
def renameAll (is : List Id) (name : String) : Checked Graph :=
  is.foldlM (fun g i => rename g i name) g

/-- Whether a node is a function declaration. -/
def isFunction : Checked Bool := ask g i fun
  | .function .. => true
  | _ => false

/-- The statements of the program. -/
def body : Checked (List Id) := ask g g.root fun
  | .program body => body
  | _ => []

/-- The top-level functions. -/
def functions : Checked (List Id) := do filter (isFunction g) (← body g)

/-- The name of a function declaration. -/
def functionName? : Checked (Option String) := do
  match ← kind g i with
  | .function name _ _ => identName? g name
  | _ => return none

/-- The first top-level function with a name. -/
def findFunction? (name : String) : Checked (Option Id) := do
  (← functions g).findM? fun f => do return (← functionName? g f) == some name

/-- The position that an index names, when it is a number literal. -/
def literalIndex? : Checked (Option Nat) := ask g i fun
  | .number raw => positionOfText? raw
  | _ => none

/-- Whether a node can stand on the left of an assignment. -/
def isAssignable : Checked Bool := ask g i fun
  | .ident _ | .field .. | .index .. => true
  | _ => false

end Nodes

end Checked

/-! ## Closed graphs -/

/-- Every number that a node holds, as a child or as its parent, is that of a node. -/
structure Graph.Closed (g : Graph) : Prop extends g.InRange where
  parent_lt : ∀ {i p}, g.parent? i = some p → p < g.size

namespace Graph

variable {g g' : Graph} {i : Id}

/-- The children in a kind are nodes, as a case split on the kind asks for them. -/
theorem InRange.kind_children_lt (h : g.InRange) (i : Id) : ∀ c ∈ (g.kind i).children, c < g.size :=
  fun _ hc => h.child_lt (i := i) hc

theorem body_lt (h : g.InRange) (hi : i ∈ g.body) : i < g.size :=
  h.child_lt (body_subset_children hi)

theorem functions_lt (h : g.InRange) (hi : i ∈ g.functions) : i < g.size :=
  body_lt h (mem_functions.mp hi).1

theorem findFunction?_lt (h : g.InRange) {name : String} (hi : g.findFunction? name = some i) :
    i < g.size :=
  functions_lt h (List.mem_of_find?_eq_some hi)

namespace Closed

theorem changed {r : Kind → Kind → Prop} (h : g.Closed) (hc : Changed r g g')
    (hr : ∀ {k k'}, r k k' → k'.children ⊆ k.children) : g'.Closed where
  root_lt := by
    rw [hc.root, hc.size]
    exact h.root_lt
  child_lt hic := by
    rw [hc.size]
    exact h.child_lt (hr (hc.kind _) hic)
  parent_lt hp := by
    rw [hc.size]
    exact h.parent_lt ((hc.parent _).symm.trans hp)

theorem sameShape (h : g.Closed) (hs : SameShape g g')
    (hp : ∀ {i p}, g'.parent? i = some p → p < g.size) : g'.Closed where
  root_lt := by
    rw [hs.root, hs.size]
    exact h.root_lt
  child_lt hic := by
    rw [hs.size]
    rw [hs.children] at hic
    exact h.child_lt hic
  parent_lt hp' := by
    rw [hs.size]
    exact hp hp'

theorem modify (h : g.Closed) {f : Node → Node} (hk : ∀ n, (f n).kind = n.kind)
    (hp : ∀ n, (f n).parent = n.parent) : (g.modify i f).Closed := by
  refine h.changed (r := (· = ·)) ⟨rfl, size_modify _ _ _, fun j => ?_, fun j => ?_⟩ fun hk => ?_
  · exact node_modify_congr g f Node.parent hp i j
  · exact (node_modify_congr g f Node.kind hk i j).symm
  · rw [hk]
    exact List.Subset.refl _

theorem replace (h : g.Closed) {k : Kind} (hk : ∀ c ∈ k.children, c < g.size) :
    (g.replace i k).Closed where
  root_lt := by
    rw [show (g.replace i k).root = g.root from rfl, show (g.replace i k).size = g.size from
      size_modify _ _ _]
    exact h.root_lt
  child_lt {j c} hc := by
    rw [show (g.replace i k).size = g.size from size_modify _ _ _]
    unfold children at hc
    by_cases hij : i = j
    · subst hij
      by_cases hi : i < g.size
      · rw [kind_replace_self _ _ hi] at hc
        exact hk c hc
      · have hout := lt_size_of_mem_children (g := g.replace i k) hc
        rw [show (g.replace i k).size = g.size from size_modify _ _ _] at hout
        exact absurd hout hi
    · rw [kind_replace_of_ne _ _ hij] at hc
      exact h.child_lt hc
  parent_lt {j p} hp := by
    rw [show (g.replace i k).size = g.size from size_modify _ _ _]
    have hpart : ∀ n : Node, ({ n with kind := k } : Node).parent = n.parent := fun _ => rfl
    exact h.parent_lt (i := j) ((node_modify_congr g _ Node.parent hpart i j).symm.trans hp)

end Closed

/-- A closed graph with `n` nodes. A pass that only edits nodes leaves such a graph at every step, so
that the numbers it goes through stay those of nodes. -/
structure Covers (g : Graph) (n : Nat) : Prop extends g.Closed where
  size_eq : g.size = n

theorem Closed.covers (h : g.Closed) : g.Covers g.size := ⟨h, rfl⟩

namespace Covers

variable {n : Nat}

theorem lt_size (h : g.Covers n) (hi : i < n) : i < g.size := h.size_eq ▸ hi

theorem changed {r : Kind → Kind → Prop} (h : g.Covers n) (hc : Changed r g g')
    (hr : ∀ {k k'}, r k k' → k'.children ⊆ k.children) : g'.Covers n :=
  ⟨h.toClosed.changed hc hr, hc.size.trans h.size_eq⟩

theorem renamed (h : g.Covers n) (hc : Changed Kind.Renamed g g') : g'.Covers n :=
  h.changed hc fun hk => hk.children_eq ▸ List.Subset.refl _

theorem modify (h : g.Covers n) {f : Node → Node} (hk : ∀ n, (f n).kind = n.kind)
    (hp : ∀ n, (f n).parent = n.parent) : (g.modify i f).Covers n :=
  ⟨h.toClosed.modify hk hp, (size_modify g i f).trans h.size_eq⟩

end Covers

end Graph

namespace Checked

variable {g : Graph} {i : Id}

/-! ## Questions about a node -/

theorem node_eq (hi : i < g.size) : node g i = .ok (g.node i) := by
  unfold node Graph.node
  rw [Array.getD_eq_getD_getElem?, Array.getElem?_eq_getElem hi]
  rfl

theorem modify_eq (hi : i < g.size) (f : Node → Node) : modify g i f = .ok (g.modify i f) := by
  unfold modify
  rw [node_eq hi]
  rfl

theorem ask_eq (hi : i < g.size) {α : Type} (f : Kind → α) : ask g i f = .ok (f (g.kind i)) := by
  unfold ask
  rw [node_eq hi]
  rfl

theorem kind_eq (hi : i < g.size) : kind g i = .ok (g.kind i) := ask_eq hi _

theorem children_eq (hi : i < g.size) : children g i = .ok (g.children i) := ask_eq hi _

theorem ty?_eq (hi : i < g.size) : ty? g i = .ok (g.ty? i) := by
  unfold ty?
  rw [node_eq hi]
  rfl

theorem parent?_eq (hi : i < g.size) : parent? g i = .ok (g.parent? i) := by
  unfold parent?
  rw [node_eq hi]
  rfl

theorem replace_eq (hi : i < g.size) (k : Kind) : replace g i k = .ok (g.replace i k) :=
  modify_eq hi _

theorem identName?_eq (hi : i < g.size) : identName? g i = .ok (g.identName? i) := ask_eq hi _

theorem isFunction_eq (hi : i < g.size) : isFunction g i = .ok (g.isFunction i) := ask_eq hi _

theorem literalIndex?_eq (hi : i < g.size) : literalIndex? g i = .ok (g.literalIndex? i) :=
  ask_eq hi _

theorem isAssignable_eq (hi : i < g.size) : isAssignable g i = .ok (g.isAssignable i) :=
  ask_eq hi _

theorem rename_eq (hi : i < g.size) (name : String) : rename g i name = .ok (g.rename i name) := by
  unfold rename Graph.rename
  rw [kind_eq hi, ok_bind]
  cases g.kind i <;> first | rfl | exact replace_eq hi _

theorem renameAll_eq {is : List Id} (his : ∀ i ∈ is, i < g.size) (name : String) :
    renameAll g is name = .ok (g.renameAll is name) := by
  refine (foldlM_ok (I := fun x : Graph => x.size = g.size) rfl fun x hx i hi => ?_).1
  exact ⟨rename_eq (hx ▸ his i hi) name, (Graph.changed_rename x i name).size.trans hx⟩

section Functions

variable (h : g.InRange)

include h

theorem body_eq : body g = .ok g.body := ask_eq h.root_lt _

theorem functions_eq : functions g = .ok g.functions := by
  unfold functions
  rw [body_eq h, ok_bind]
  exact filter_ok fun f hf => isFunction_eq (Graph.body_lt h hf)

-- The graph has to be in range: here a statement is numbered that is not there.
example : functions { nodes := #[{ kind := .program [1] }], root := 0 } = .error (.noNode 1) := rfl

theorem functionName?_eq (hi : i < g.size) : functionName? g i = .ok (g.functionName? i) := by
  unfold functionName? Graph.functionName?
  rw [kind_eq hi, ok_bind]
  have hc := h.kind_children_lt i
  generalize g.kind i = k at hc
  cases k <;> first | rfl | exact identName?_eq (hc _ List.mem_cons_self)

theorem findFunction?_eq (name : String) : findFunction? g name = .ok (g.findFunction? name) := by
  unfold findFunction?
  rw [functions_eq h, ok_bind]
  refine findM?_ok fun f hf => ?_
  rw [functionName?_eq h (Graph.functions_lt h hf)]
  rfl

end Functions

end Checked

end ShaderScript
