import ShaderScript.Proofs.Graph.Preorder

/-!
# Subtrees

Where no node has two places, a node lies at one depth, below one child of everything above it. That
takes no parents, so it holds of programs that are not linked.

* `Graph.Unshared.depth_lt`, `Graph.Unshared.depth_unique`: how deep a node lies.
* `Graph.Unshared.mem_descendants_iff`: the descendants of a live node are the nodes below it.
* `Graph.Unshared.descendants_eq`: the descendants of a node are those of its children, after it.
* `Graph.Unshared.descendants_sublist`: they come in the order of the whole program.
* `Graph.Unshared.loopless`, `Graph.Unshared.unsharedBelow`: there is no way round, and one way only
  to each node.
* **`Graph.Unshared.child_unique`**: the subtrees of two children are apart.
* **`Graph.Unshared.nodup_descendants`**: pre-order lists every node once.
-/

namespace ShaderScript.Graph

variable {g : Graph} {i j c c' : Id} {d e : Nat}

namespace Unshared

variable (h : g.Unshared)

include h

theorem depth_lt (hd : g.Below g.root d j) : d < g.size := by
  have hs := sameShape_link g
  rw [← hs.size]
  refine h.isTree_link.depth_lt (j := j) ?_
  rw [hs.root]
  exact hs.symm.below hd

theorem depth_unique (hd : g.Below g.root d j) (he : g.Below g.root e j) : d = e := by
  have hs := sameShape_link g
  have below : ∀ {d}, g.Below g.root d j → g.link.Below g.link.root d j := fun hd => by
    rw [hs.root]
    exact hs.symm.below hd
  refine h.isTree_link.depth_unique (below hd) (below he) ?_ ?_
  · rw [hs.size]
    exact (h.depth_lt hd).le
  · rw [hs.size]
    exact (h.depth_lt he).le

theorem live_of_below (hi : i ∈ g.live) (hd : g.Below i d j) : j ∈ g.live := by
  obtain ⟨e, -, he⟩ := mem_walk.mp hi
  exact mem_walk.mpr ⟨e + d, h.depth_lt (he.trans hd), he.trans hd⟩

theorem child_live (hi : i ∈ g.live) (hc : c ∈ g.children i) : c ∈ g.live :=
  h.live_of_below hi (.step .refl hc)

/-- What lies below a live node is less deep than there are nodes. -/
theorem below_lt (hi : i ∈ g.live) (hd : g.Below i d j) : d < g.size := by
  obtain ⟨e, -, he⟩ := mem_walk.mp hi
  have := h.depth_lt (he.trans hd)
  omega

theorem mem_descendants_iff (hi : i ∈ g.live) : j ∈ g.descendants i ↔ ∃ d, g.Below i d j :=
  ⟨fun hj => let ⟨d, _, hd⟩ := mem_walk.mp hj; ⟨d, hd⟩,
    fun ⟨_, hd⟩ => mem_walk.mpr ⟨_, h.below_lt hi hd, hd⟩⟩

theorem mem_descendants_of_below {k : Id} (hi : i ∈ g.live) (hd : g.Below i d j)
    (hk : k ∈ g.descendants j) : k ∈ g.descendants i := by
  obtain ⟨e, -, he⟩ := mem_walk.mp hk
  exact (h.mem_descendants_iff hi).mpr ⟨d + e, hd.trans he⟩

theorem descendants_eq (hi : i ∈ g.live) :
    g.descendants i = i :: (g.children i).flatMap g.descendants :=
  descendants_eq_of_depth_lt fun _ _ => h.below_lt hi

theorem descendants_sublist (hi : i ∈ g.live) : (g.descendants i).Sublist g.live := by
  obtain ⟨d, -, hd⟩ := mem_walk.mp hi
  have hroot : g.root ∈ g.live := mem_walk.mpr ⟨0, h.depth_lt .refl, .refl⟩
  induction hd with
  | refl => exact .refl _
  | @step d p i hp hc ih =>
    have hpl := h.live_of_below hroot hp
    refine .trans ?_ (ih hpl)
    rw [h.descendants_eq hpl, List.flatMap_def]
    exact .cons _ (List.sublist_flatten_of_mem (List.mem_map_of_mem hc))

/-- A node that is not looked for is passed over. -/
theorem filter_descendants (hi : i ∈ g.live) {is : List Id} (hnot : i ∉ is) :
    (g.descendants i).filter (· ∈ is) =
      (g.children i).flatMap fun c => (g.descendants c).filter (· ∈ is) := by
  rw [h.descendants_eq hi, List.filter_cons, if_neg fun hmem => hnot (of_decide_eq_true hmem),
    List.filter_flatMap]

theorem loopless (hi : i ∈ g.live) : g.Loopless i := by
  intro d j hd e he
  obtain ⟨f, -, hf⟩ := mem_walk.mp hi
  have := h.depth_unique (hf.trans hd) ((hf.trans hd).trans he)
  omega

theorem unsharedBelow (hi : i ∈ g.live) : g.UnsharedBelow i where
  children_nodup hd := h.children_nodup _ (h.live_of_below hi hd)
  holder_unique hd he hc hc' :=
    h.holder_unique _ (h.live_of_below hi hd) _ (h.live_of_below hi he) _ hc hc'

theorem notMem_descendants_child (hi : i ∈ g.live) (hc : c ∈ g.children i) :
    i ∉ g.descendants c :=
  (h.loopless hi).notMem_walk_child hc

/-- **A node lies below one child only.** -/
theorem child_unique (hi : i ∈ g.live) (hc : c ∈ g.children i) (hc' : c' ∈ g.children i)
    (hj : j ∈ g.descendants c) (hj' : j ∈ g.descendants c') : c = c' := by
  obtain ⟨d, -, hd⟩ := mem_walk.mp hj
  obtain ⟨d', -, hd'⟩ := mem_walk.mp hj'
  exact (h.unsharedBelow hi).child_unique (h.loopless hi) hc hc' hd hd'

/-- **Pre-order lists every node once.** -/
theorem nodup_descendants (hi : i ∈ g.live) : (g.descendants i).Nodup :=
  (h.unsharedBelow hi).nodup_walk (h.loopless hi) g.size

end Unshared

theorem IsTree.nodup_live (h : g.IsTree) : g.live.Nodup :=
  h.unshared.nodup_descendants h.root_live

end ShaderScript.Graph
