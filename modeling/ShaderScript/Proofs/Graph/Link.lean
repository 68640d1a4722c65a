import ShaderScript.Proofs.Graph.Edit

/-!
# Linking a program

A pass that moves nodes leaves the parents of some of them wrong, and linking sets them right. That
works for every program in which no node has two places.

* `Graph.SameShape`: two graphs with the same nodes, up to facts and parents.
* `Graph.part_link`: linking changes parents and nothing else.
* `Graph.Unshared`: no node of the program has two places.
* **`Graph.Unshared.isTree_link`**: linking such a program makes it a tree.
-/

namespace ShaderScript.Graph

variable {g g' g'' : Graph}

/-! ## Graphs of one shape -/

/-- Two graphs with the same nodes, up to facts and parents. -/
structure SameShape (g g' : Graph) : Prop where
  root : g'.root = g.root
  size : g'.size = g.size
  kind : ∀ i, g'.kind i = g.kind i

namespace SameShape

theorem refl (g : Graph) : SameShape g g := ⟨rfl, rfl, fun _ => rfl⟩

theorem trans (h : SameShape g g') (h' : SameShape g' g'') : SameShape g g'' :=
  ⟨h'.root.trans h.root, h'.size.trans h.size, fun i => (h'.kind i).trans (h.kind i)⟩

variable (h : SameShape g g')

include h

theorem symm : SameShape g' g := ⟨h.root.symm, h.size.symm, fun i => (h.kind i).symm⟩

theorem children (i : Id) : g'.children i = g.children i := congrArg Kind.children (h.kind i)

theorem walk (n : Nat) (i : Id) : g'.walk n i = g.walk n i := by
  induction n generalizing i with
  | zero => rfl
  | succ n ih =>
    unfold Graph.walk
    rw [h.children, funext ih]

theorem descendants (i : Id) : g'.descendants i = g.descendants i := by
  unfold Graph.descendants
  rw [h.size, h.walk]

theorem live : g'.live = g.live := by
  unfold Graph.live
  rw [h.root, h.descendants]

theorem below {i j : Id} {d : Nat} (hd : g'.Below i d j) : g.Below i d j := by
  induction hd with
  | refl => exact .refl
  | step _ hc ih => exact .step ih (h.children _ ▸ hc)

theorem identName? (i : Id) : g'.identName? i = g.identName? i := by
  unfold Graph.identName?
  rw [h.kind]

theorem isFunction (i : Id) : g'.isFunction i = g.isFunction i := by
  unfold Graph.isFunction
  rw [h.kind]

theorem isAssignable (i : Id) : g'.isAssignable i = g.isAssignable i := by
  unfold Graph.isAssignable
  rw [h.kind]

end SameShape

/-! ## Linking changes parents only -/

theorem part_setParent {α : Type} (part : Node → α)
    (hpart : ∀ n p, part { n with parent := p } = part n) (g : Graph) (i : Id) (p : Option Id)
    (j : Id) : part ((g.setParent i p).node j) = part (g.node j) := by
  refine node_modify_congr g _ part ?_ i j
  exact fun n => hpart n p

theorem part_linkChildren {α : Type} (part : Node → α)
    (hpart : ∀ n p, part { n with parent := p } = part n) (g : Graph) (p j : Id) :
    part ((g.linkChildren p).node j) = part (g.node j) := by
  unfold linkChildren
  refine List.foldlRecOn (motive := fun x : Graph => part (x.node j) = part (g.node j))
    (g.children p) _ rfl fun x hx c _ => ?_
  exact (part_setParent part hpart x c (some p) j).trans hx

theorem part_link {α : Type} (part : Node → α)
    (hpart : ∀ n p, part { n with parent := p } = part n) (g : Graph) (j : Id) :
    part (g.link.node j) = part (g.node j) := by
  unfold link
  refine List.foldlRecOn (motive := fun x : Graph => part (x.node j) = part (g.node j))
    g.live linkChildren (part_setParent part hpart g g.root none j) fun x hx i _ => ?_
  exact (part_linkChildren part hpart x i j).trans hx

theorem sameShape_setParent (g : Graph) (i : Id) (p : Option Id) :
    SameShape g (g.setParent i p) :=
  ⟨rfl, size_modify _ _ _, part_setParent Node.kind (fun _ _ => rfl) g i p⟩

theorem sameShape_linkChildren (g : Graph) (p : Id) : SameShape g (g.linkChildren p) := by
  unfold linkChildren
  exact List.foldlRecOn (motive := SameShape g) (g.children p) _ (.refl g) fun x hx c _ =>
    hx.trans (sameShape_setParent x c (some p))

theorem sameShape_link (g : Graph) : SameShape g g.link := by
  unfold link
  exact List.foldlRecOn (motive := SameShape g) g.live linkChildren
    (sameShape_setParent g g.root none) fun x hx i _ => hx.trans (sameShape_linkChildren x i)

/-! ## What linking sets -/

theorem parent?_setParent_self {i : Id} {p : Option Id} (hi : i < g.size) :
    (g.setParent i p).parent? i = p := by
  unfold parent? setParent
  rw [node_modify_self _ _ hi]

theorem parent?_setParent_of_ne {i j : Id} {p : Option Id} (hij : i ≠ j) :
    (g.setParent i p).parent? j = g.parent? j := by
  unfold parent? setParent
  rw [node_modify_of_ne _ _ hij]

theorem parent?_linkChildren_of_mem {p c : Id} (hc : c ∈ g.children p) (hlt : c < g.size) :
    (g.linkChildren p).parent? c = some p := by
  unfold linkChildren
  refine foldl_reaches (P := fun x : Graph => x.size = g.size)
    (Q := fun x : Graph => x.parent? c = some p) hc (fun x j _ hx => ?_) (fun x hx => ?_)
    (fun x j _ _ hx => ?_) rfl
  · exact (size_modify _ _ _).trans hx
  · exact parent?_setParent_self (hx ▸ hlt)
  · by_cases hjc : j = c
    · subst hjc
      by_cases hj : j < x.size
      · exact parent?_setParent_self hj
      · unfold parent? setParent
        rw [node_modify_of_size_le _ (not_lt.mp hj)]
        exact hx
    · rw [parent?_setParent_of_ne hjc, hx]

theorem parent?_linkChildren_of_notMem {p c : Id} (hc : c ∉ g.children p) :
    (g.linkChildren p).parent? c = g.parent? c := by
  unfold linkChildren
  refine List.foldlRecOn (motive := fun x : Graph => x.parent? c = g.parent? c) (g.children p) _
    rfl fun x hx j hj => ?_
  have hjc : j ≠ c := fun he => hc (he ▸ hj)
  rw [parent?_setParent_of_ne hjc, hx]

/-! ## Programs without shared nodes -/

/-- No node of the program has two places. -/
structure Unshared (g : Graph) : Prop where
  root_lt : g.root < g.size
  child_lt : ∀ i ∈ g.live, ∀ c ∈ g.children i, c < g.size
  children_nodup : ∀ i ∈ g.live, (g.children i).Nodup
  holder_unique : ∀ i ∈ g.live, ∀ j ∈ g.live, ∀ c ∈ g.children i, c ∈ g.children j → i = j
  root_free : ∀ i ∈ g.live, g.root ∉ g.children i

theorem unshared_iff (g : Graph) : g.Unshared ↔ g.root < g.size ∧ ∀ i ∈ g.live,
    (g.children i).Nodup ∧ g.root ∉ g.children i ∧
    ∀ c ∈ g.children i, c < g.size ∧ ∀ j ∈ g.live, c ∈ g.children j → i = j :=
  ⟨fun h => ⟨h.root_lt, fun i hi => ⟨h.children_nodup i hi, h.root_free i hi, fun c hc =>
      ⟨h.child_lt i hi c hc, fun j hj hcj => h.holder_unique i hi j hj c hc hcj⟩⟩⟩,
    fun ⟨h₁, h₂⟩ => ⟨h₁, fun i hi c hc => ((h₂ i hi).2.2 c hc).1, fun i hi => (h₂ i hi).1,
      fun i hi j hj c hc hcj => ((h₂ i hi).2.2 c hc).2 j hj hcj, fun i hi => (h₂ i hi).2.1⟩⟩

instance (g : Graph) : Decidable g.Unshared := decidable_of_iff _ (unshared_iff g).symm

theorem IsTree.unshared (h : g.IsTree) : g.Unshared where
  root_lt := h.root_lt
  child_lt := h.child_lt
  children_nodup := h.children_nodup
  holder_unique i hi j hj c hc hcj := by
    have hp := h.parent_child i hi c hc
    rw [h.parent_child j hj c hcj] at hp
    exact (Option.some.inj hp).symm
  root_free i hi hc := by
    have hp := h.parent_child i hi _ hc
    rw [h.parent_root] at hp
    cases hp

theorem Changed.unshared {r : Kind → Kind → Prop} (h : Changed r g g')
    (hr : ∀ {k k'}, r k k' → k'.children.Sublist k.children) (hu : g.Unshared) : g'.Unshared := by
  have hmem : ∀ {i c}, c ∈ g'.children i → c ∈ g.children i := fun hc =>
    (h.children_sublist hr _).mem hc
  have hlive : ∀ {i}, i ∈ g'.live → i ∈ g.live := h.live_of_live hr
  refine ⟨?_, fun i hi c hc => ?_, fun i hi => ?_, fun i hi j hj c hc hcj => ?_, fun i hi hc => ?_⟩
  · rw [h.root, h.size]
    exact hu.root_lt
  · rw [h.size]
    exact hu.child_lt i (hlive hi) c (hmem hc)
  · exact (hu.children_nodup i (hlive hi)).sublist (h.children_sublist hr i)
  · exact hu.holder_unique i (hlive hi) j (hlive hj) c (hmem hc) (hmem hcj)
  · rw [h.root] at hc
    exact hu.root_free i (hlive hi) (hmem hc)

namespace Unshared

variable (h : g.Unshared)

include h

theorem parent?_link {i c : Id} (hi : i ∈ g.live) (hc : c ∈ g.children i) :
    g.link.parent? c = some i := by
  unfold link
  refine foldl_reaches (P := fun x : Graph => SameShape g x)
    (Q := fun x : Graph => x.parent? c = some i) hi (fun x j _ hx => ?_) (fun x hx => ?_)
    (fun x j hj hx hq => ?_) (sameShape_setParent g g.root none)
  · exact hx.trans (sameShape_linkChildren x j)
  · refine parent?_linkChildren_of_mem (hx.children i ▸ hc) ?_
    rw [hx.size]
    exact h.child_lt i hi c hc
  · by_cases hcj : c ∈ g.children j
    · obtain rfl := h.holder_unique i hi j hj c hc hcj
      refine parent?_linkChildren_of_mem (hx.children i ▸ hc) ?_
      rw [hx.size]
      exact h.child_lt i hi c hc
    · rw [parent?_linkChildren_of_notMem (hx.children j ▸ hcj), hq]

theorem parent?_link_root : g.link.parent? g.root = none := by
  unfold link
  refine (List.foldlRecOn (motive := fun x : Graph => SameShape g x ∧ x.parent? g.root = none)
    g.live linkChildren
    ⟨sameShape_setParent g g.root none, parent?_setParent_self h.root_lt⟩ fun x hx i hi => ?_).2
  refine ⟨hx.1.trans (sameShape_linkChildren x i), ?_⟩
  rw [parent?_linkChildren_of_notMem, hx.2]
  rw [hx.1.children]
  exact h.root_free i hi

/-- **Linking a program without shared nodes makes it a tree.** -/
theorem isTree_link : g.link.IsTree := by
  have hs := sameShape_link g
  refine ⟨?_, fun i hi c hc => ?_, fun i hi => ?_, ?_, fun i hi c hc => ?_⟩
  · rw [hs.root, hs.size]
    exact h.root_lt
  · rw [hs.live] at hi
    rw [hs.children] at hc
    rw [hs.size]
    exact h.child_lt i hi c hc
  · rw [hs.live] at hi
    rw [hs.children]
    exact h.children_nodup i hi
  · rw [hs.root]
    exact h.parent?_link_root
  · rw [hs.live] at hi
    rw [hs.children] at hc
    exact h.parent?_link hi hc

end Unshared

end ShaderScript.Graph
