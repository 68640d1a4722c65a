import ShaderScript.Proofs.Checked.Basic
import ShaderScript.Proofs.Graph.Preorder

/-!
# Checked walks

Walks go from node to node by the numbers that nodes hold, so in a closed graph none of them leaves
the nodes.

* `Checked.descendants_eq`, `Checked.ancestors_eq`: the ways down and up.
* `Checked.link_eq`: linking, which changes parents while it goes.
* `Checked.returns_eq`, `Checked.dottedPath?_eq`, …: questions that need more than one node.
-/

namespace ShaderScript

/-! ## Where walks lead -/

namespace Graph

variable {g : Graph} {i j : Id}

theorem descendants_lt (h : g.InRange) (hi : i < g.size) (hj : j ∈ g.descendants i) :
    j < g.size := by
  obtain ⟨d, -, hd⟩ := mem_walk.mp hj
  exact hd.lt_size h.child_lt hi

theorem climb_lt (h : g.Closed) {n : Nat} {p : Option Id} (hp : ∀ q, p = some q → q < g.size)
    (hj : j ∈ g.climb n p) : j < g.size := by
  induction n generalizing p with
  | zero => cases hj
  | succ n ih =>
    cases p with
    | none => cases hj
    | some q =>
      rcases List.mem_cons.mp hj with rfl | hj
      · exact hp j rfl
      · exact ih (fun _ hq => h.parent_lt hq) hj

theorem ancestors_lt (h : g.Closed) (hj : j ∈ g.ancestors i) : j < g.size :=
  climb_lt h (fun _ hp => h.parent_lt hp) hj

theorem enclosingFunction?_lt (h : g.Closed) (hj : g.enclosingFunction? i = some j) : j < g.size :=
  ancestors_lt h (List.mem_of_find?_eq_some hj)

theorem returns_lt (h : g.InRange) (hi : i < g.size) (hj : j ∈ g.returns i) : j < g.size :=
  descendants_lt h hi (List.mem_filter.mp hj).1

end Graph

namespace Checked

section Walks

variable (g : Graph)

/-- A node and the nodes below it to a depth. -/
def walk : Nat → Id → Checked (List Id)
  | 0, _ => return []
  | n + 1, i => do return i :: (← flatMap (walk n) (← children g i))

/-- A node and all nodes below it. -/
def descendants (i : Id) : Checked (List Id) := walk g g.size i

/-- The nodes of the program. -/
def live : Checked (List Id) := descendants g g.root

/-- The way up from a parent, to a height. -/
def climb : Nat → Option Id → Checked (List Id)
  | 0, _ => return []
  | _, none => return []
  | n + 1, some p => do return p :: (← climb n (← parent? g p))

/-- The nodes that hold `i`, nearest first. -/
def ancestors (i : Id) : Checked (List Id) := do climb g g.size (← parent? g i)

/-- The nearest function declaration around a node. -/
def enclosingFunction? (i : Id) : Checked (Option Id) := do
  (← ancestors g i).findM? (isFunction g)

/-- Whether `i` is the name in an access by name. -/
def isPropertyName (i : Id) : Checked Bool := do
  match ← parent? g i with
  | none => return false
  | some p => ask g p fun
    | .field _ property => property == i
    | _ => false

/-- Whether a node is an identifier that stands for a variable. -/
def isOccurrence (i : Id) : Checked Bool := do
  return (← identName? g i).isSome && !(← isPropertyName g i)

/-- Whether a node is a return statement. -/
def isReturn (i : Id) : Checked Bool := ask g i fun
  | .ret _ => true
  | _ => false

/-- The value that a return statement gives. -/
def returned? (i : Id) : Checked (Option Id) := ask g i fun
  | .ret argument => argument
  | _ => none

/-- The return statements that belong to `f` and to no function inside it. -/
def returns (f : Id) : Checked (List Id) := do
  filter (fun i => do return (← isReturn g i) && (← enclosingFunction? g i) == some f)
    (← descendants g f)

/-- Whether `f` gives a value anywhere in its own body. -/
def returnsValue (f : Id) : Checked Bool := do
  (← returns g f).anyM fun i => do return (← returned? g i).isSome

/-- The dotted path of an access by name, followed to a depth. -/
def pathTo : Nat → Id → Checked (Option String)
  | 0, _ => return none
  | n + 1, i => do
    match ← kind g i with
    | .ident name => return some name
    | .field object property =>
      match ← pathTo n object with
      | none => return none
      | some head => return (← identName? g property).map fun tail => head ++ "." ++ tail
    | _ => return none

/-- The dotted path of an identifier or of a chain of accesses by name. -/
def dottedPath? (i : Id) : Checked (Option String) := pathTo g g.size i

/-- Sets the parent of a node. -/
def setParent (i : Id) (p : Option Id) : Checked Graph := modify g i ({ · with parent := p })

/-- Makes `p` the parent of each of its children. -/
def linkChildren (p : Id) : Checked Graph := do
  (← children g p).foldlM (fun g c => setParent g c (some p)) g

/-- Sets the parent of every live node. -/
def link : Checked Graph := do
  (← live g).foldlM linkChildren (← setParent g g.root none)

end Walks

/-! ## No walk leaves the nodes -/

variable {g : Graph} {i : Id}

theorem returned?_eq (hi : i < g.size) : returned? g i = .ok (g.returned? i) := ask_eq hi _

section InRange

variable (h : g.InRange)

include h

theorem walk_eq (hi : i < g.size) (n : Nat) : walk g n i = .ok (g.walk n i) := by
  induction n generalizing i with
  | zero => rfl
  | succ n ih =>
    unfold walk
    rw [children_eq hi, ok_bind, flatMap_ok fun c hc => ih (h.child_lt hc)]
    rfl

theorem descendants_eq (hi : i < g.size) : descendants g i = .ok (g.descendants i) :=
  walk_eq h hi _

theorem live_eq : live g = .ok g.live := descendants_eq h h.root_lt

theorem pathTo_eq (hi : i < g.size) (n : Nat) : pathTo g n i = .ok (g.pathTo n i) := by
  induction n generalizing i with
  | zero => rfl
  | succ n ih =>
    have hc := h.kind_children_lt i
    unfold pathTo Graph.pathTo
    rw [kind_eq hi, ok_bind]
    generalize g.kind i = k at hc
    cases k
    case field object property =>
      dsimp only
      rw [ih (hc object (by simp [Kind.children])), ok_bind]
      cases g.pathTo n object with
      | none => rfl
      | some head =>
        dsimp only
        rw [identName?_eq (hc property (by simp [Kind.children])), ok_bind]
        cases g.identName? property <;> rfl
    all_goals rfl

theorem dottedPath?_eq (hi : i < g.size) : dottedPath? g i = .ok (g.dottedPath? i) :=
  pathTo_eq h hi _

/-- Linking goes through the nodes of the graph as it is at the start, and only sets parents. -/
theorem link_eq : link g = .ok g.link := by
  have hstart : setParent g g.root none = .ok (g.setParent g.root none) := modify_eq h.root_lt _
  unfold link Graph.link
  rw [live_eq h, ok_bind, hstart, ok_bind]
  refine (foldlM_ok (I := fun x : Graph => Graph.SameShape g x)
    (Graph.sameShape_setParent g g.root none) fun x hx p hp => ?_).1
  refine ⟨?_, hx.trans (Graph.sameShape_linkChildren x p)⟩
  unfold linkChildren Graph.linkChildren
  rw [children_eq (by rw [hx.size]; exact h.lt_size hp), ok_bind]
  refine (foldlM_ok (I := fun y : Graph => y.size = g.size) hx.size fun y hy c hc => ?_).1
  rw [hx.children] at hc
  exact ⟨modify_eq (by rw [hy]; exact h.child_lt hc) _, (Graph.size_modify _ _ _).trans hy⟩

end InRange

section Closed

variable (h : g.Closed)

include h

theorem climb_eq {p : Option Id} (hp : ∀ q, p = some q → q < g.size) (n : Nat) :
    climb g n p = .ok (g.climb n p) := by
  induction n generalizing p with
  | zero => rfl
  | succ n ih =>
    cases p with
    | none => rfl
    | some q =>
      unfold climb
      rw [parent?_eq (hp q rfl), ok_bind, ih fun _ hq => h.parent_lt hq]
      rfl

theorem ancestors_eq (hi : i < g.size) : ancestors g i = .ok (g.ancestors i) := by
  unfold ancestors
  rw [parent?_eq hi, ok_bind]
  exact climb_eq h (fun _ hp => h.parent_lt hp) _

theorem enclosingFunction?_eq (hi : i < g.size) :
    enclosingFunction? g i = .ok (g.enclosingFunction? i) := by
  unfold enclosingFunction?
  rw [ancestors_eq h hi, ok_bind]
  exact findM?_ok fun a ha => isFunction_eq (Graph.ancestors_lt h ha)

theorem isPropertyName_eq (hi : i < g.size) : isPropertyName g i = .ok (g.isPropertyName i) := by
  unfold isPropertyName Graph.isPropertyName
  rw [parent?_eq hi, ok_bind]
  cases hp : g.parent? i with
  | none => rfl
  | some p =>
    dsimp only
    rw [ask_eq (h.parent_lt hp), Option.map_some]
    cases g.kind p <;> rfl

theorem isOccurrence_eq (hi : i < g.size) : isOccurrence g i = .ok (g.isOccurrence i) := by
  unfold isOccurrence
  rw [identName?_eq hi, ok_bind, isPropertyName_eq h hi]
  rfl

theorem returns_eq (hi : i < g.size) : returns g i = .ok (g.returns i) := by
  unfold returns
  rw [descendants_eq h.toInRange hi, ok_bind]
  refine filter_ok fun j hj => ?_
  have hj := Graph.descendants_lt h.toInRange hi hj
  rw [show isReturn g j = .ok (g.isReturn j) from ask_eq hj _, ok_bind,
    enclosingFunction?_eq h hj]
  rfl

theorem returnsValue_eq (hi : i < g.size) : returnsValue g i = .ok (g.returnsValue i) := by
  unfold returnsValue
  rw [returns_eq h hi, ok_bind]
  refine anyM_ok fun j hj => ?_
  rw [returned?_eq (Graph.returns_lt h.toInRange hi hj)]
  rfl

end Closed

end Checked

/-! ## Linking leaves a graph closed -/

namespace Graph

variable {g : Graph}

theorem parent?_setParent_cases (i j : Id) (p : Option Id) :
    (g.setParent i p).parent? j = p ∨ (g.setParent i p).parent? j = g.parent? j := by
  by_cases hij : i = j
  · subst hij
    by_cases hi : i < g.size
    · exact .inl (parent?_setParent_self hi)
    · exact .inr (congrArg Node.parent (node_modify_of_size_le _ (not_lt.mp hi) i))
  · exact .inr (parent?_setParent_of_ne hij)

namespace Closed

theorem setParent (h : g.Closed) (i : Id) {p : Option Id} (hp : ∀ q, p = some q → q < g.size) :
    (g.setParent i p).Closed := by
  refine h.sameShape (sameShape_setParent g i p) fun {j q} hq => ?_
  rcases parent?_setParent_cases i j p with hj | hj
  · exact hp q (hj.symm.trans hq)
  · exact h.parent_lt (hj.symm.trans hq)

theorem linkChildren (h : g.Closed) {p : Id} (hp : p < g.size) : (g.linkChildren p).Closed := by
  unfold Graph.linkChildren
  refine (List.foldlRecOn (motive := fun x : Graph => x.Closed ∧ x.size = g.size) (g.children p) _
    ⟨h, rfl⟩ fun x hx c _ => ?_).1
  refine ⟨hx.1.setParent c fun q hq => ?_, (size_modify _ _ _).trans hx.2⟩
  cases hq
  exact hx.2 ▸ hp

theorem link (h : g.Closed) : g.link.Closed := by
  unfold Graph.link
  refine (List.foldlRecOn (motive := fun x : Graph => x.Closed ∧ SameShape g x) g.live _
    ⟨h.setParent g.root (fun _ hq => by cases hq), sameShape_setParent g g.root none⟩ fun x hx p hp => ?_).1
  refine ⟨hx.1.linkChildren ?_, hx.2.trans (sameShape_linkChildren x p)⟩
  rw [hx.2.size]
  exact h.lt_size hp

end Closed

theorem Covers.link {n : Nat} (h : g.Covers n) : g.link.Covers n :=
  ⟨h.toClosed.link, (sameShape_link g).size.trans h.size_eq⟩

end Graph

end ShaderScript
