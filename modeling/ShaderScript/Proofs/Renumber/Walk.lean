import ShaderScript.Proofs.Renumber.Basic
import ShaderScript.Proofs.Scope.Renaming

/-!
# Walking a copy

Walks are bounded by the number of nodes, and a graph can have more nodes than what it holds a copy
of. That makes no difference where the smaller bound is never used up.

* `Graph.Bounded`: no walk from a node uses up the number of nodes, neither down nor back up.
* `Graph.Whole`: a tree with no node beside it. Everything in it is bounded.
* `Graph.Copy.walk`, `Graph.Copy.climb`: the two walks in a copy.
* `Graph.Copy.live`, `Graph.Copy.ancestors`, `Graph.Copy.returns`, …: what follows for the questions
  that walk.
* **`Graph.Copy.link`**: linking a copy.
-/

namespace ShaderScript.Graph

/-! ## Bounds -/

/-- No walk from a node uses up the number of nodes: not on the way down, and not back up. -/
def Bounded (k : Graph) (i : Id) : Prop :=
  ∀ d j, k.Below i d j →
    d < k.size ∧ ∀ n, k.size ≤ n → k.climb n (k.parent? j) = k.ancestors j

/-- A tree with no node beside it. -/
structure Whole (k : Graph) : Prop where
  tree : k.IsTree
  all : ∀ i < k.size, i ∈ k.live

variable {k k' g : Graph}

theorem Bounded.below {i j : Id} {d : Nat} (h : k.Bounded i) (hd : k.Below i d j) :
    k.Bounded j := by
  intro e c he
  have := h _ c (hd.trans he)
  exact ⟨by omega, this.2⟩

theorem Bounded.climb {i : Id} (h : k.Bounded i) {n : Nat} (hn : k.size ≤ n) :
    k.climb n (k.parent? i) = k.ancestors i := (h 0 i .refl).2 n hn

theorem IsTree.bounded (h : k.IsTree) {i : Id} (hi : i ∈ k.live) : k.Bounded i := by
  intro d j hd
  obtain ⟨e, he⟩ := h.mem_live_iff.mp hi
  have hlt := h.depth_lt (he.trans hd)
  refine ⟨by omega, fun n hn => ?_⟩
  unfold ancestors
  rw [climb_of_le h (he.trans hd) (by omega), climb_of_le h (he.trans hd) hlt.le]

/-- Numbers past the last node stand for nodes without parts and parents. -/
theorem bounded_of_size_le (hk : 0 < k.size) {i : Id} (hi : k.size ≤ i) : k.Bounded i := by
  have hnode := node_of_size_le hi
  have hparent : k.parent? i = none := by
    unfold parent?
    rw [hnode]
    rfl
  intro d j hd
  cases d with
  | zero =>
    cases hd
    refine ⟨hk, fun n _ => ?_⟩
    unfold ancestors
    rw [hparent]
    cases n <;> cases k.size <;> rfl
  | succ d =>
    obtain ⟨c, hc, -⟩ := hd.uncons
    unfold children kind at hc
    rw [hnode] at hc
    cases hc

theorem Whole.bounded (h : k.Whole) (i : Id) : k.Bounded i := by
  rcases Nat.lt_or_ge i k.size with hlt | hge
  · exact h.tree.bounded (h.all i hlt)
  · exact bounded_of_size_le (Nat.zero_lt_of_lt h.tree.root_lt) hge

theorem Whole.inRange (h : k.Whole) : k.InRange :=
  ⟨h.tree.root_lt, fun hc => h.tree.child_lt _ (h.all _ (lt_size_of_mem_children hc)) _ hc⟩

theorem Whole.renamed (h : k.Whole) (hc : Changed Kind.Renamed k k') : k'.Whole := by
  refine ⟨hc.isTree_of_renamed h.tree, fun i hi => ?_⟩
  rw [hc.live_eq]
  exact h.all i (hc.size ▸ hi)

namespace Copy

variable {linked : Prop} {f : Id → Id}

/-! ## Down -/

section Down

variable (r : Copy linked f k g)

include r

theorem walk {n m : Nat} {i : Id} (hn : ∀ d j, k.Below i d j → d < n) (hm : n ≤ m) :
    g.walk m (f i) = (k.walk n i).map f := by
  induction n generalizing m i with
  | zero => exact absurd (hn 0 i .refl) (Nat.not_lt_zero 0)
  | succ n ih =>
    obtain ⟨m, rfl⟩ := Nat.exists_eq_add_of_le' (Nat.one_le_of_lt hm)
    unfold Graph.walk
    rw [r.children, List.flatMap_map, List.map_cons, List.map_flatMap]
    refine congrArg (f i :: ·) (List.flatMap_congr fun c hc => ?_)
    exact ih (fun d j hd => Nat.lt_of_succ_lt_succ (hn (d + 1) j (hd.cons hc)))
      (Nat.le_of_succ_le_succ hm)

theorem descendants {i : Id} (hi : k.Bounded i) :
    g.descendants (f i) = (k.descendants i).map f :=
  r.walk (fun d j hd => (hi d j hd).1) r.size_le

theorem live (hk : k.Bounded k.root) : g.live = k.live.map f := by
  unfold Graph.live
  rw [r.root, r.descendants hk]

theorem pathTo {n m : Nat} {i : Id} (hn : ∀ d j, k.Below i d j → d < n) (hm : n ≤ m) :
    g.pathTo m (f i) = k.pathTo n i := by
  induction n generalizing m i with
  | zero => exact absurd (hn 0 i .refl) (Nat.not_lt_zero 0)
  | succ n ih =>
    obtain ⟨m, rfl⟩ := Nat.exists_eq_add_of_le' (Nat.one_le_of_lt hm)
    unfold Graph.pathTo
    rw [r.kind]
    cases hk : k.kind i with
    | field object property =>
      have hc : object ∈ k.children i := by
        rw [Graph.children, hk]
        exact List.mem_cons_self
      have hobject := ih (fun d j hd => Nat.lt_of_succ_lt_succ (hn (d + 1) j (hd.cons hc)))
        (Nat.le_of_succ_le_succ hm)
      simp only [Kind.map, hobject, r.identName?]
    | _ => rfl

theorem dottedPath? {i : Id} (hi : k.Bounded i) : g.dottedPath? (f i) = k.dottedPath? i :=
  r.pathTo (fun d j hd => (hi d j hd).1) r.size_le

theorem link (hk : k.Unshared) : Copy linked f k.link g.link := by
  have hs := sameShape_link k
  have hlive : g.live = k.live.map f := by
    unfold Graph.live Graph.descendants
    rw [r.root]
    refine r.walk (fun d j hd => ?_) r.size_le
    rw [← hs.size]
    exact hk.isTree_link.depth_lt (hs.root.symm ▸ hs.symm.below hd)
  unfold Graph.link
  rw [hlive, r.root]
  refine foldl f (r.setParent k.root none) fun x y p r => ?_
  unfold linkChildren
  rw [r.children]
  exact foldl f r fun _ _ c r => r.setParent c (some p)

end Down

theorem link_unlinked (r : Copy False f k g) : Copy False f k.link g.link := by
  have hk := sameShape_link k
  have hg := sameShape_link g
  refine ⟨r.inj, ?_, fun n => ?_, fun i hi => ?_, fun i => ?_⟩
  · rw [hk.root, hg.root, r.root]
  · rw [hk.size, hg.size, r.fresh]
  · rw [hk.size] at hi
    rw [hg.size]
    exact r.lt i hi
  · have part : ∀ {α : Type} (part : Node → α), (∀ n p, part { n with parent := p } = part n) →
        part (g.node (f i)) = part (k.node i) →
        part (g.link.node (f i)) = part (k.link.node i) := by
      intro α part hpart h
      rw [part_link part hpart, part_link part hpart, h]
    refine ⟨?_, False.elim, part Node.ty (fun _ _ => rfl) (r.node i).ty,
      part Node.guessed (fun _ _ => rfl) (r.node i).guessed,
      part Node.topIndex (fun _ _ => rfl) (r.node i).topIndex,
      part Node.hint (fun _ _ => rfl) (r.node i).hint,
      part Node.out (fun _ _ => rfl) (r.node i).out⟩
    exact (hg.kind _).trans ((r.kind i).trans (congrArg (Kind.map f) (hk.kind i)).symm)

/-! ## Up -/

section Up

variable (r : Copy True f k g)

include r

theorem parent? (i : Id) : g.parent? (f i) = (k.parent? i).map f := (r.node i).parent trivial

theorem climb (n : Nat) (p : Option Id) : g.climb n (p.map f) = (k.climb n p).map f := by
  induction n generalizing p with
  | zero => rfl
  | succ n ih =>
    cases p with
    | none => rfl
    | some p =>
      rw [Option.map_some, Graph.climb, Graph.climb, r.parent?, ih, List.map_cons]

theorem ancestors {i : Id} (hi : k.Bounded i) : g.ancestors (f i) = (k.ancestors i).map f := by
  rw [← hi.climb r.size_le]
  unfold Graph.ancestors
  rw [r.parent?, r.climb]

theorem isPropertyName (i : Id) : g.isPropertyName (f i) = k.isPropertyName i := by
  unfold Graph.isPropertyName
  rw [r.parent?, Option.map_map]
  cases k.parent? i with
  | none => rfl
  | some p =>
    simp only [Option.map_some, Function.comp_apply, r.kind]
    cases k.kind p with
    | field object property =>
      simp only [Kind.map]
      rw [Bool.eq_iff_iff, beq_iff_eq, beq_iff_eq, r.eq_iff]
    | _ => rfl

theorem isOccurrence (i : Id) : g.isOccurrence (f i) = k.isOccurrence i := by
  unfold Graph.isOccurrence
  rw [r.identName?, r.isPropertyName]

theorem enclosingFunction? {i : Id} (hi : k.Bounded i) :
    g.enclosingFunction? (f i) = (k.enclosingFunction? i).map f := by
  unfold Graph.enclosingFunction?
  rw [r.ancestors hi, List.find?_map]
  exact congrArg (Option.map f) (congrArg (List.find? · (k.ancestors i)) (funext r.isFunction))

theorem returns {i : Id} (hi : k.Bounded i) : g.returns (f i) = (k.returns i).map f := by
  unfold Graph.returns
  rw [r.descendants hi, List.filter_map]
  refine congrArg (List.map f) (List.filter_congr fun j hj => ?_)
  obtain ⟨d, -, hd⟩ := mem_walk.mp hj
  simp only [Function.comp_apply, r.isReturn, r.enclosingFunction? (hi.below hd)]
  congr 1
  rw [Bool.eq_iff_iff, beq_iff_eq, beq_iff_eq, ← Option.map_some,
    (Option.map_injective r.inj).eq_iff]

theorem returnsValue {i : Id} (hi : k.Bounded i) : g.returnsValue (f i) = k.returnsValue i := by
  unfold Graph.returnsValue
  rw [r.returns hi, List.any_map]
  refine congrArg (List.any (k.returns i)) (funext fun j => ?_)
  rw [Function.comp_apply, r.returned?, Option.isSome_map]

end Up

end Copy

end ShaderScript.Graph
