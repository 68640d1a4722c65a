import ShaderScript.Proofs.Graph.Growth

/-!
# Walking up a syntax graph

A walk in post-order comes to a node after all nodes below it. In a graph in which children have
smaller numbers than the nodes that hold them, the walk never runs out of depth.

* `Graph.postorder`: a node and all nodes below it, in post-order.
* `Graph.walkUp_perm`: the two walks come to the same nodes.
* `Graph.postorder_eq`: the walk follows the children, and the node comes last.
* `Graph.postorder_add_of_lt`, `Graph.postorder_add_self`: the walk in a graph that has got a node.
-/

namespace ShaderScript.Graph

/-- A node and the nodes below it to a depth, in post-order. -/
def walkUp (g : Graph) : Nat → Id → List Id
  | 0, _ => []
  | n + 1, i => (g.children i).flatMap (walkUp g n) ++ [i]

/-- A node and all nodes below it, in post-order. -/
def postorder (g : Graph) (i : Id) : List Id := g.walkUp g.size i

variable {g : Graph}

theorem walkUp_perm (n : Nat) (i : Id) : (g.walkUp n i).Perm (g.walk n i) := by
  induction n generalizing i with
  | zero => exact .refl _
  | succ n ih =>
    unfold walkUp walk
    exact (List.perm_append_singleton _ _).trans (.cons _ (List.Perm.flatMap_left _ fun c _ => ih c))

theorem postorder_congr {x : Graph} (hsize : x.size = g.size)
    (hchildren : ∀ i, x.children i = g.children i) : x.postorder = g.postorder := by
  have hwalk : ∀ n i, x.walkUp n i = g.walkUp n i := fun n => by
    induction n with
    | zero => exact fun _ => rfl
    | succ n ih =>
      intro i
      unfold walkUp
      rw [hchildren, funext ih]
  funext i
  unfold postorder
  rw [hsize, hwalk]

section Ascending

variable (hlt : ∀ i, ∀ c ∈ g.children i, c < i)

include hlt

theorem walkUp_eq_of_lt {n m : Nat} {i : Id} (hn : i < n) (hm : i < m) :
    g.walkUp n i = g.walkUp m i := by
  induction i using Nat.strong_induction_on generalizing n m with
  | _ i ih =>
    obtain ⟨n, rfl⟩ := Nat.exists_eq_add_of_le' (Nat.one_le_of_lt hn)
    obtain ⟨m, rfl⟩ := Nat.exists_eq_add_of_le' (Nat.one_le_of_lt hm)
    unfold walkUp
    refine congrArg (· ++ [i]) (List.flatMap_congr fun c hc => ?_)
    have hci := hlt i c hc
    exact ih c hci (hci.trans_le (Nat.le_of_lt_succ hn)) (hci.trans_le (Nat.le_of_lt_succ hm))

/-- The walk follows the children, and the node comes last. -/
theorem postorder_eq {i : Id} (hi : i < g.size) :
    g.postorder i = (g.children i).flatMap g.postorder ++ [i] := by
  unfold postorder
  rw [walkUp_eq_of_lt hlt hi (Nat.lt_succ_of_lt hi), walkUp]

theorem postorder_add_of_lt (n : Node) {i : Id} (hi : i < g.size) :
    (g.add [n]).postorder i = g.postorder i := by
  have hwalk : ∀ m i, i < g.size → (g.add [n]).walkUp m i = g.walkUp m i := fun m => by
    induction m with
    | zero => exact fun _ _ => rfl
    | succ m ih =>
      intro i hi
      unfold walkUp
      rw [children_add_one, if_neg hi.ne]
      exact congrArg (· ++ [i]) (List.flatMap_congr fun c hc => ih c ((hlt i c hc).trans hi))
  unfold postorder
  rw [hwalk _ i hi, size_add]
  exact walkUp_eq_of_lt hlt (Nat.lt_succ_of_lt hi) hi

theorem postorder_add_self (n : Node) (hn : ∀ c ∈ n.kind.children, c < g.size) :
    (g.add [n]).postorder g.size = n.kind.children.flatMap g.postorder ++ [g.size] := by
  have hlt' : ∀ i, ∀ c ∈ (g.add [n]).children i, c < i := by
    intro i c hc
    rw [children_add_one] at hc
    split_ifs at hc with hi
    · exact hi ▸ hn c hc
    · exact hlt i c hc
  rw [postorder_eq hlt' (by rw [size_add]; exact Nat.lt_succ_self _), children_add_one, if_pos rfl]
  exact congrArg (· ++ [g.size]) (List.flatMap_congr fun c hc => postorder_add_of_lt hlt n (hn c hc))

end Ascending

end ShaderScript.Graph
