import ShaderScript.Proofs.Graph.Subtree
import ShaderScript.Proofs.Scope.Renaming

/-!
# Walking with a stack

A walk in pre-order can do without recursion: a stack holds what is still to come, and the children
of each node that is listed go on top of it, the last one first. No depth bounds such a walk, so it
is a question of its own whether it ends.

* `Walker`, `Walker.step`: how far a walk with a stack has come, and one turn of its loop.
* `Walker.Ends`: a walk that ends, with what it lists.
* `Walker.Ends.walk`: a node is taken off, and what the recursive walk lists has been listed.
* `Walker.Ends.acc`: a walk ends only if every way down from its stack ends.
* **`Graph.ends_start_iff`**: it ends just where no node lies below itself.
* `Graph.IsTree.mem_descendants_iff_ancestor`: the way down and the way up in a tree find the same.
* **`Graph.stackWalk_isPreorder`**: the walk with a stack is the recursive pre-order.
-/

namespace ShaderScript

/-! ## The loop -/

/-- How far a walk with a stack has come. The next node is at the end of the stack. -/
structure Walker where
  stack : Array Id
  listed : Array Id

namespace Walker

/-- The walk from a node. -/
def start (i : Id) : Walker := ⟨#[i], #[]⟩

/-- One turn of the loop. The node at the end of the stack is taken off and listed, and its children
go on the stack, the last one first. There is no turn with an empty stack. -/
def step (g : Graph) (w : Walker) : Option Walker :=
  w.stack.back?.map fun i =>
    ⟨w.stack.pop ++ (g.children i).reverse.toArray, w.listed.push i⟩

/-- The walk ends after some turns, and `is` is what it has listed then. Nothing but the empty stack
ends it. -/
inductive Ends (g : Graph) : Walker → List Id → Prop
  | stop {w : Walker} : w.step g = none → Ends g w w.listed.toList
  | turn {w w' : Walker} {is : List Id} : w.step g = some w' → Ends g w' is → Ends g w is

/-- The stack from which nodes are taken off in this order. -/
def stackOf (is : List Id) : Array Id := is.reverse.toArray

variable {g : Graph} {i : Id} {is is' rest : List Id} {out : Array Id} {n : Nat}

theorem step_nil : step g ⟨stackOf [], out⟩ = none := rfl

theorem step_cons :
    step g ⟨stackOf (i :: rest), out⟩ = some ⟨stackOf (g.children i ++ rest), out.push i⟩ := by
  simp [step, stackOf]

theorem step_eq_some {w w' : Walker} (h : w.step g = some w') : ∃ below i, w.stack = below.push i ∧
    w' = ⟨below ++ (g.children i).reverse.toArray, w.listed.push i⟩ := by
  obtain ⟨i, hi, rfl⟩ := Option.map_eq_some_iff.mp h
  obtain ⟨below, hbelow⟩ := Array.back?_eq_some_iff.mp hi
  exact ⟨below, i, hbelow, by rw [hbelow, Array.pop_push]⟩

namespace Ends

theorem unique {w : Walker} (h : Ends g w is) (h' : Ends g w is') : is' = is := by
  induction h with
  | stop hs =>
    cases h' with
    | stop => rfl
    | turn hs' =>
      rw [hs] at hs'
      cases hs'
  | turn hs _ ih =>
    cases h' with
    | stop hs' =>
      rw [hs] at hs'
      cases hs'
    | turn hs' hrest =>
      rw [hs] at hs'
      cases hs'
      exact ih hrest

/-- Where the loop gets through with each of some nodes, it gets through with all of them. -/
theorem append {f : Id → List Id} {todo : List Id}
    (h : ∀ i ∈ todo, ∀ {rest out}, Ends g ⟨stackOf rest, out ++ (f i).toArray⟩ is →
      Ends g ⟨stackOf (i :: rest), out⟩ is)
    (hend : Ends g ⟨stackOf rest, out ++ (todo.flatMap f).toArray⟩ is) :
    Ends g ⟨stackOf (todo ++ rest), out⟩ is := by
  induction todo generalizing out with
  | nil => simpa using hend
  | cons i todo ih =>
    refine h i List.mem_cons_self (ih (fun j hj => h j (List.mem_cons_of_mem _ hj)) ?_)
    rwa [List.flatMap_cons, ← List.append_toArray, ← Array.append_assoc] at hend

/-- Where the recursive walk from a node comes to an end, the loop gets through with the node, and
has then listed the same. -/
theorem walk (hn : ∀ d j, g.Below i d j → d < n)
    (hend : Ends g ⟨stackOf rest, out ++ (g.walk n i).toArray⟩ is) :
    Ends g ⟨stackOf (i :: rest), out⟩ is := by
  induction n generalizing i rest out with
  | zero => exact absurd (hn 0 i .refl) (Nat.not_lt_zero 0)
  | succ n ih =>
    have hchild : ∀ c ∈ g.children i, ∀ d j, g.Below c d j → d < n := fun c hc d j hd =>
      Nat.lt_of_succ_lt_succ (hn (d + 1) j (hd.cons hc))
    refine .turn step_cons (append (fun c hc => ih (hchild c hc)) ?_)
    simpa [Graph.walk] using hend

/-- A walk that ends finds an end on every way down from its stack. -/
theorem acc {w : Walker} (h : Ends g w is) :
    ∀ i ∈ w.stack, Acc (fun c p => c ∈ g.children p) i := by
  induction h with
  | stop hs =>
    intro i hi
    rw [Array.back?_eq_none_iff.mp (Option.map_eq_none_iff.mp hs)] at hi
    exact absurd hi (Array.not_mem_empty i)
  | turn hs _ ih =>
    obtain ⟨below, k, hstack, rfl⟩ := step_eq_some hs
    intro i hi
    rw [hstack] at hi
    rcases Array.mem_push.mp hi with hi | rfl
    · exact ih i (Array.mem_append.mpr (.inl hi))
    · refine .intro _ fun c hc => ih c (Array.mem_append.mpr (.inr ?_))
      exact List.mem_toArray.mpr (List.mem_reverse.mpr hc)

end Ends

end Walker

namespace Graph

variable {g : Graph} {i j : Id} {d : Nat} {is : List Id}

theorem ends_start (hn : ∀ d j, g.Below i d j → d < g.size) :
    (Walker.start i).Ends g (g.descendants i) := by
  have hstop : Walker.Ends g ⟨Walker.stackOf [], #[] ++ (g.walk g.size i).toArray⟩
      (g.descendants i) := by
    rw [Array.empty_append]
    exact .stop Walker.step_nil
  exact .walk hn hstop

/-- **A walk with a stack ends just where no node lies below itself**, and it lists what the
recursive walk lists. -/
theorem ends_start_iff (hr : ∀ {d j}, g.Below i d j → j < g.size) :
    (Walker.start i).Ends g is ↔ g.Loopless i ∧ is = g.descendants i := by
  have hends : g.Loopless i → (Walker.start i).Ends g (g.descendants i) := fun h =>
    ends_start fun _ _ => h.depth_lt hr
  constructor
  · intro h
    have hl := loopless_of_acc (h.acc i (Array.mem_singleton_self i))
    exact ⟨hl, (hends hl).unique h⟩
  · rintro ⟨hl, rfl⟩
    exact hends hl

theorem IsDag.ends_start_iff (h : g.IsDag) (hi : i < g.size) :
    (Walker.start i).Ends g is ↔ is = g.descendants i :=
  (Graph.ends_start_iff (h.lt_size_of_below hi)).trans (and_iff_right (h.loopless i))

/-! ## Down and up -/

theorem IsTree.mem_ancestors_of_below (h : g.IsTree) (hi : i ∈ g.live) (hd : g.Below i d j) :
    j = i ∨ i ∈ g.ancestors j := by
  induction hd with
  | refl => exact .inl rfl
  | @step d p c hp hc ih =>
    have hpl := h.live_of_below hi hp
    rw [h.ancestors_eq_cons (h.child_live hpl hc) (h.parent_child p hpl c hc), List.mem_cons]
    exact .inr (ih.imp_left Eq.symm)

theorem IsTree.mem_descendants_iff_ancestor (h : g.IsTree) (hi : i ∈ g.live) (hj : j ∈ g.live) :
    j ∈ g.descendants i ↔ j = i ∨ i ∈ g.ancestors j := by
  constructor
  · intro hmem
    obtain ⟨d, hd⟩ := (h.mem_descendants_iff hi).mp hmem
    exact h.mem_ancestors_of_below hi hd
  · rintro (rfl | ha)
    · exact (h.mem_descendants_iff hi).mpr ⟨0, .refl⟩
    · exact h.mem_descendants hj ha

/-- **The walk with a stack is the recursive pre-order.** Take any graph in which every reference is
to a node and no node lies below itself, and any node of it, loose or not. The walk ends and lists
what the recursive walk lists: the node, and then what it lists from each child in the order of the
children. That is all that lies below the node, each node once just where none has two places there.

If the program is a tree, the walk from each of its nodes lists every node once. After linking it
lists the same, and a node of the program is listed just if it is the first one or has that one on
its way up. -/
theorem stackWalk_isPreorder (h : g.IsDag) :
    (∀ i < g.size, (∀ is, (Walker.start i).Ends g is ↔ is = g.descendants i) ∧
      g.descendants i = i :: (g.children i).flatMap g.descendants ∧
      (∀ j, j ∈ g.descendants i ↔ ∃ d, g.Below i d j) ∧
      ((g.descendants i).Nodup ↔ g.UnsharedBelow i)) ∧
    (g.Unshared → ∀ i ∈ g.live, (g.descendants i).Nodup ∧
      (Walker.start i).Ends g.link (g.descendants i) ∧
      ∀ j ∈ g.live, j ∈ g.descendants i ↔ j = i ∨ i ∈ g.link.ancestors j) := by
  refine ⟨fun i hi => ⟨fun is => h.ends_start_iff hi, h.descendants_eq hi, fun j => ?_,
    h.nodup_descendants_iff hi⟩, fun hu i hi => ⟨hu.nodup_descendants hi, ?_⟩⟩
  · exact mem_descendants_iff_below (h.lt_size_of_below hi)
  · have hs := sameShape_link g
    have ht := hu.isTree_link
    rw [← hs.live] at hi ⊢
    rw [← hs.descendants]
    exact ⟨((h.sameShape hs).ends_start_iff (ht.lt_size hi)).mpr rfl,
      fun j hj => ht.mem_descendants_iff_ancestor hi hj⟩

/-- The program `function f(y) { x; }`, not linked yet, and beside it two loose lists: one holds its
`x` twice and the other list in between, and that one holds its `y` and once more its `x`. -/
def sharedLoose : Graph where
  nodes := #[{ kind := .ident "x" }, { kind := .exprStmt 0 }, { kind := .ident "y" },
    { kind := .ident "f" }, { kind := .block [1] }, { kind := .function 3 [2] 4 },
    { kind := .program [5] }, { kind := .array [0, 8, 0] }, { kind := .array [2, 0] }]
  root := 6

/-- From the loose list `x` is listed once for each way that leads to it, and from the function every
node once. -/
theorem stackWalk_isPreorder_sharedLoose : sharedLoose.IsDag ∧ sharedLoose.Unshared ∧
    (Walker.start 7).Ends sharedLoose [7, 0, 8, 2, 0, 0] ∧ ¬sharedLoose.UnsharedBelow 7 ∧
    (Walker.start 5).Ends sharedLoose.link [5, 3, 2, 4, 1, 0] ∧
    5 ∈ sharedLoose.link.ancestors 0 := by
  have hdag : sharedLoose.IsDag := by decide
  have hu : sharedLoose.Unshared := by decide
  obtain ⟨hall, htree⟩ := stackWalk_isPreorder hdag
  obtain ⟨hloose, -, -, honce⟩ := hall 7 (by decide)
  obtain ⟨-, hlinked, hup⟩ := htree hu 5 (by decide)
  have hlist : sharedLoose.descendants 5 = [5, 3, 2, 4, 1, 0] := by decide
  refine ⟨hdag, hu, (hloose _).mpr (by decide), fun hunshared => ?_, hlist ▸ hlinked, ?_⟩
  · exact absurd (honce.mpr hunshared) (by decide)
  · exact ((hup 0 (by decide)).mp (by decide)).resolve_left (by decide)

end Graph

end ShaderScript
