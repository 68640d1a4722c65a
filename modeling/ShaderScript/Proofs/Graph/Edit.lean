import ShaderScript.Proofs.Graph.Tree

/-!
# Edits that keep a tree a tree

Passes edit a program node by node. Most of them leave every node where it is and only change what
some nodes are, and then the program before and after have much in common.

* `Graph.Changed`: the nodes stay where they are, and what each is changes as a relation allows.
* `Graph.Changed.foldl`: a pass over many nodes, from what it does at one.
* **`Graph.Changed.isTree`**: a change that adds no children keeps a tree a tree.
* `Graph.IsTree.link_eq`: linking a tree changes nothing.
* `Graph.InRange`: every reference is to a node of the graph.
* `Kind.Renamed`: the change of a name, and what a renamed program has in common with the original.
-/

namespace ShaderScript

/-- What holds throughout a loop and what one of its steps brings about hold at its end, if no step
undoes the latter. -/
theorem foldl_reaches {α β : Type} {f : β → α → β} {P Q : β → Prop} {xs : List α} {a : α}
    (ha : a ∈ xs) (hkeep : ∀ x, ∀ c ∈ xs, P x → P (f x c)) (hhit : ∀ x, P x → Q (f x a))
    (hstay : ∀ x, ∀ c ∈ xs, P x → Q x → Q (f x c)) {b : β} (hb : P b) : Q (xs.foldl f b) := by
  obtain ⟨before, after, rfl⟩ := List.append_of_mem ha
  rw [List.foldl_append, List.foldl_cons]
  have hbefore : P (before.foldl f b) :=
    List.foldlRecOn before f hb fun x hx c hc => hkeep x c (List.mem_append_left _ hc) hx
  refine (List.foldlRecOn (motive := fun x => P x ∧ Q x) after f
    ⟨hkeep _ a ha hbefore, hhit _ hbefore⟩ fun x hx c hc => ?_).2
  have hmem : c ∈ before ++ a :: after := List.mem_append_right _ (List.mem_cons_of_mem _ hc)
  exact ⟨hkeep x c hmem hx.1, hstay x c hmem hx.1 hx.2⟩

namespace Graph

variable {g g' g'' : Graph}

theorem node_of_size_le {i : Id} (hi : g.size ≤ i) : g.node i = default := by
  unfold node
  rw [Array.getD_eq_getD_getElem?, Array.getElem?_eq_none hi]
  rfl

/-- Only a node of the graph is anything but what unused numbers stand for. -/
theorem lt_size_of_kind {i : Id} (hi : g.kind i ≠ (default : Node).kind) : i < g.size := by
  by_contra hge
  rw [kind, node_of_size_le (not_lt.mp hge)] at hi
  exact hi rfl

theorem lt_size_of_mem_children {i c : Id} (hc : c ∈ g.children i) : i < g.size := by
  refine lt_size_of_kind fun hi => ?_
  unfold children at hc
  rw [hi] at hc
  cases hc

theorem identName?_eq_some {i : Id} {name : String} :
    g.identName? i = some name ↔ g.kind i = .ident name := by
  unfold identName?
  cases g.kind i <;> simp

theorem node_modify_of_size_le {i : Id} (f : Node → Node) (hi : g.size ≤ i) (j : Id) :
    (g.modify i f).node j = g.node j := by
  by_cases hij : i = j
  · subst hij
    rw [node_of_size_le hi, node_of_size_le (by rwa [size_modify])]
  · rw [node_modify_of_ne _ _ hij]

theorem modify_eq_self {i : Id} {f : Node → Node} (hf : f (g.node i) = g.node i) :
    g.modify i f = g := by
  have hnodes : g.nodes.modify i f = g.nodes := by
    refine Array.ext_getElem? fun j => ?_
    rw [Array.getElem?_modify]
    split_ifs with hij
    · subst hij
      unfold node at hf
      rw [Array.getD_eq_getD_getElem?] at hf
      cases hn : g.nodes[i]? with
      | none => rfl
      | some n =>
        rw [hn] at hf
        exact congrArg some hf
    · rfl
  exact congrArg (fun nodes => ({ g with nodes } : Graph)) hnodes

/-- Changing a node does not change what the change leaves alone. -/
theorem node_modify_congr {α : Type} (g : Graph) (f : Node → Node) (part : Node → α)
    (hf : ∀ n, part (f n) = part n) (i j : Id) :
    part ((g.modify i f).node j) = part (g.node j) := by
  by_cases hij : i = j
  · subst hij
    by_cases hi : i < g.size
    · rw [node_modify_self _ _ hi, hf]
    · rw [node_modify_of_size_le _ (not_lt.mp hi)]
  · rw [node_modify_of_ne _ _ hij]

/-- The nodes stay where they are, and what each node is changes as `r` allows. -/
structure Changed (r : Kind → Kind → Prop) (g g' : Graph) : Prop where
  root : g'.root = g.root
  size : g'.size = g.size
  parent : ∀ i, g'.parent? i = g.parent? i
  kind : ∀ i, r (g.kind i) (g'.kind i)

namespace Changed

variable {r : Kind → Kind → Prop}

theorem refl (hr : ∀ k, r k k) (g : Graph) : Changed r g g :=
  ⟨rfl, rfl, fun _ => rfl, fun _ => hr _⟩

theorem trans (hr : ∀ {k k' k''}, r k k' → r k' k'' → r k k'') (h : Changed r g g')
    (h' : Changed r g' g'') : Changed r g g'' :=
  ⟨h'.root.trans h.root, h'.size.trans h.size, fun i => (h'.parent i).trans (h.parent i),
    fun i => hr (h.kind i) (h'.kind i)⟩

theorem mono {r' : Kind → Kind → Prop} (hr : ∀ {k k'}, r k k' → r' k k') (h : Changed r g g') :
    Changed r' g g' :=
  ⟨h.root, h.size, h.parent, fun i => hr (h.kind i)⟩

theorem replace (hr : ∀ k, r k k) {i : Id} {k : Kind} (hk : r (g.kind i) k) :
    Changed r g (g.replace i k) := by
  refine ⟨rfl, size_modify _ _ _, fun j => ?_, fun j => ?_⟩
  · refine node_modify_congr g _ Node.parent ?_ i j
    exact fun _ => rfl
  · by_cases hij : i = j
    · subst hij
      by_cases hi : i < g.size
      · rwa [kind_replace_self _ _ hi]
      · unfold Graph.replace Graph.kind
        rw [node_modify_of_size_le _ (not_lt.mp hi)]
        exact hr _
    · rw [kind_replace_of_ne _ _ hij]
      exact hr _

theorem foldl {α σ : Type} (graph : σ → Graph) {f : σ → α → σ} {xs : List α} {s : σ}
    (hrefl : ∀ k, r k k) (htrans : ∀ {k k' k''}, r k k' → r k' k'' → r k k'')
    (hf : ∀ t, ∀ a ∈ xs, Changed r (graph t) (graph (f t a))) :
    Changed r (graph s) (graph (xs.foldl f s)) :=
  List.foldlRecOn (motive := fun t => Changed r (graph s) (graph t)) xs f (refl hrefl _)
    fun t ht a ha => ht.trans htrans (hf t a ha)

section Children

variable (h : Changed r g g') (hr : ∀ {k k'}, r k k' → k'.children.Sublist k.children)

include h hr

theorem children_sublist (i : Id) : (g'.children i).Sublist (g.children i) := hr (h.kind i)

theorem below {i j : Id} {d : Nat} (hd : g'.Below i d j) : g.Below i d j := by
  induction hd with
  | refl => exact .refl
  | step _ hc ih => exact .step ih ((h.children_sublist hr _).mem hc)

theorem live_of_live {i : Id} (hi : i ∈ g'.live) : i ∈ g.live := by
  obtain ⟨d, hlt, hd⟩ := mem_walk.mp hi
  rw [h.root] at hd
  rw [h.size] at hlt
  exact mem_walk.mpr ⟨d, hlt, h.below hr hd⟩

/-- **A change that adds no children keeps a tree a tree.** -/
theorem isTree (ht : g.IsTree) : g'.IsTree where
  root_lt := by
    rw [h.root, h.size]
    exact ht.root_lt
  child_lt i hi c hc := by
    rw [h.size]
    exact ht.child_lt i (h.live_of_live hr hi) c ((h.children_sublist hr i).mem hc)
  children_nodup i hi :=
    (ht.children_nodup i (h.live_of_live hr hi)).sublist (h.children_sublist hr i)
  parent_root := by
    rw [h.root, h.parent]
    exact ht.parent_root
  parent_child i hi c hc := by
    rw [h.parent]
    exact ht.parent_child i (h.live_of_live hr hi) c ((h.children_sublist hr i).mem hc)

end Children

end Changed

/-! ## References -/

/-- Every reference is to a node of the graph, also those of loose nodes. -/
structure InRange (g : Graph) : Prop where
  root_lt : g.root < g.size
  child_lt : ∀ {i c}, c ∈ g.children i → c < g.size

theorem inRange_iff : g.InRange ↔
    g.root < g.size ∧ ∀ i < g.size, ∀ c ∈ g.children i, c < g.size :=
  ⟨fun h => ⟨h.root_lt, fun _ _ _ hc => h.child_lt hc⟩,
    fun h => ⟨h.1, fun hc => h.2 _ (lt_size_of_mem_children hc) _ hc⟩⟩

instance : DecidablePred InRange := fun _ => decidable_of_iff _ inRange_iff.symm

theorem InRange.lt_size (h : g.InRange) {i : Id} (hi : i ∈ g.live) : i < g.size := by
  obtain ⟨d, -, hd⟩ := mem_walk.mp hi
  cases hd with
  | refl => exact h.root_lt
  | step _ hc => exact h.child_lt hc

/-! ## Linking -/

theorem setParent_eq_self {i : Id} {p : Option Id} (hp : g.parent? i = p) :
    g.setParent i p = g := by
  subst hp
  exact modify_eq_self rfl

theorem IsTree.link_eq (h : g.IsTree) : g.link = g := by
  unfold link
  rw [setParent_eq_self h.parent_root]
  refine List.foldlRecOn (motive := fun x => x = g) g.live linkChildren rfl ?_
  intro x hx i hi
  subst hx
  unfold linkChildren
  refine List.foldlRecOn (motive := fun y => y = x) (x.children i) _ rfl ?_
  intro y hy c hc
  subst hy
  exact setParent_eq_self (h.parent_child i hi c hc)

end Graph

end ShaderScript
