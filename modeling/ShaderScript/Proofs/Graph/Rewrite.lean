import Mathlib.Data.List.Flatten
import ShaderScript.Proofs.Renumber.Compact

/-!
# Rewriting in pre-order

A pass that goes through the program in pre-order and turns single nodes into others sees, at every
node, the node and its children as they were at the start: what it changed so far lies above or
beside. So what the pass does can be said of the program before it, node by node.

* `Graph.rewrite`: turns one node into another, if a rule says into what.
* `Graph.Local`: a rule that looks at a node and its children.
* `Graph.Downward`: a list in which no child stands before the node that holds it.
* `Graph.IsTree.downward_live`: pre-order is one.
* **`Graph.kind_foldl_rewrite`**: what the pass makes of every node.
* `Graph.Changed.live_eq_filter`, `Graph.Changed.live_of_below`: a change that adds no children
  keeps the order of what is left, and all that is above it.
-/

namespace ShaderScript.Graph

variable {g x y : Graph} {put : Graph → Id → Option Kind} {is : List Id} {i j : Id}

/-! ## Rules -/

/-- Turns a node into another, if a rule says into what. -/
def rewrite (put : Graph → Id → Option Kind) (x : Graph) (i : Id) : Graph :=
  match put x i with
  | some k => x.replace i k
  | none => x

/-- The two graphs agree on what a node and its children are. -/
def AgreeAt (x y : Graph) (i : Id) : Prop :=
  x.kind i = y.kind i ∧ ∀ c ∈ y.children i, x.kind c = y.kind c

/-- A rule looks at a node and its children only. -/
def Local {α : Type} (rule : Graph → Id → α) : Prop :=
  ∀ {x y : Graph} {i : Id}, AgreeAt x y i → rule x i = rule y i

theorem size_rewrite (put : Graph → Id → Option Kind) (x : Graph) (i : Id) :
    (rewrite put x i).size = x.size := by
  unfold rewrite
  split
  · exact size_modify _ _ _
  · rfl

theorem kind_rewrite_self (hi : i < x.size) :
    (rewrite put x i).kind i = (put x i).getD (x.kind i) := by
  unfold rewrite
  cases put x i with
  | some k => exact kind_replace_self _ _ hi
  | none => rfl

theorem kind_rewrite_of_ne (hij : i ≠ j) : (rewrite put x i).kind j = x.kind j := by
  unfold rewrite
  split
  · exact kind_replace_of_ne _ _ hij
  · rfl

/-! ## Lists from the top down -/

/-- No node stands in the list twice, and none stands after a node that holds it. -/
def Downward (g : Graph) (is : List Id) : Prop :=
  is.Pairwise fun a b => a ≠ b ∧ a ∉ g.children b

theorem Downward.agreeAt {before : List Id} (hd : g.Downward (before ++ [i]))
    (hx : ∀ j, j ∉ before → x.kind j = g.kind j) : AgreeAt x g i := by
  have hpairs := (List.pairwise_append.mp hd).2.2
  refine ⟨hx i fun hi => ?_, fun c hc => hx c fun hcb => ?_⟩
  · exact (hpairs i hi i (List.mem_singleton_self i)).1 rfl
  · exact (hpairs c hcb i (List.mem_singleton_self i)).2 hc

theorem IsTree.downward_walk (h : g.IsTree) (n : Nat) (hi : i ∈ g.live) :
    g.Downward (g.walk n i) := by
  induction n generalizing i with
  | zero => exact List.Pairwise.nil
  | succ n ih =>
    have hl := h.unshared.loopless hi
    have hu := h.unshared.unsharedBelow hi
    unfold walk
    refine List.pairwise_cons.mpr ⟨fun j hj => ?_,
      List.pairwise_flatMap.mpr ⟨fun c hc => ih (h.child_live hi hc), ?_⟩⟩
    · obtain ⟨c, hc, hj⟩ := List.mem_flatMap.mp hj
      obtain ⟨d, -, hd⟩ := mem_walk.mp hj
      refine ⟨?_, fun hij => hl .refl _ ((hd.cons hc).step hij)⟩
      rintro rfl
      exact hl .refl _ (hd.cons hc)
    · refine (h.children_nodup i hi).pairwise_of_forall_ne fun a ha b hb hab j hja k hkb => ?_
      obtain ⟨d, -, hd⟩ := mem_walk.mp hja
      obtain ⟨d', -, hd'⟩ := mem_walk.mp hkb
      refine ⟨?_, fun hjk => hab (hu.child_unique hl ha hb hd (hd'.step hjk))⟩
      rintro rfl
      exact hab (hu.child_unique hl ha hb hd hd')

theorem IsTree.downward_live (h : g.IsTree) : g.Downward g.live := h.downward_walk _ h.root_live

/-! ## The pass -/

theorem size_foldl_rewrite (put : Graph → Id → Option Kind) (g : Graph) (is : List Id) :
    (is.foldl (rewrite put) g).size = g.size :=
  List.foldlRecOn (motive := fun x : Graph => x.size = g.size) is _ rfl fun x hx i _ =>
    (size_rewrite put x i).trans hx

/-- **What a pass from the top down makes of every node** is what the rule says of the program
before it. -/
theorem kind_foldl_rewrite (hlocal : Local put) (hd : g.Downward is) (hlt : ∀ i ∈ is, i < g.size) :
    ∀ j, (is.foldl (rewrite put) g).kind j =
      if j ∈ is then (put g j).getD (g.kind j) else g.kind j := by
  induction is using List.reverseRecOn with
  | nil => exact fun _ => rfl
  | append_singleton before i ih =>
    have hkind := ih (List.pairwise_append.mp hd).1 fun i hi => hlt i (List.mem_append_left _ hi)
    have hagree : AgreeAt (before.foldl (rewrite put) g) g i :=
      hd.agreeAt fun j hj => by rw [hkind, if_neg hj]
    have hsize := size_foldl_rewrite put g before
    intro j
    rw [List.foldl_append, List.foldl_cons, List.foldl_nil]
    by_cases hij : i = j
    · subst hij
      have hmem : i ∈ before ++ [i] := List.mem_append_right _ (List.mem_singleton_self i)
      rw [kind_rewrite_self (hsize ▸ hlt i hmem), hlocal hagree, hagree.1, if_pos hmem]
    · rw [kind_rewrite_of_ne hij, hkind]
      refine if_congr ?_ rfl rfl
      simp [Ne.symm hij]

/-- At its turn, a node and its children are as they were before the pass. -/
theorem agreeAt_foldl_rewrite (hlocal : Local put) {before : List Id}
    (hd : g.Downward (before ++ [i])) (hlt : ∀ j ∈ before, j < g.size) :
    AgreeAt (before.foldl (rewrite put) g) g i :=
  hd.agreeAt fun j hj => by
    rw [kind_foldl_rewrite hlocal (List.pairwise_append.mp hd).1 hlt, if_neg hj]

/-! ## What is left of the program -/

theorem walk_sublist (hc : ∀ i, (x.children i).Sublist (g.children i)) (n : Nat) (i : Id) :
    (x.walk n i).Sublist (g.walk n i) := by
  induction n generalizing i with
  | zero => exact .refl _
  | succ n ih =>
    unfold walk
    exact .cons_cons i (((hc i).flatMap _).trans (.flatMap_right _ fun c _ => ih c))

theorem Changed.live_eq_filter {r : Kind → Kind → Prop} (hx : Changed r g x)
    (hr : ∀ {k k'}, r k k' → k'.children.Sublist k.children) (h : g.IsTree) :
    x.live = g.live.filter (· ∈ x.live) := by
  have hsub : x.live.Sublist g.live := by
    unfold live descendants
    rw [hx.root, hx.size]
    exact walk_sublist (hx.children_sublist hr) _ _
  have hkept := hsub.filter (· ∈ x.live)
  rw [List.filter_eq_self.mpr fun i hi => decide_eq_true hi] at hkept
  refine hkept.eq_of_length (List.Perm.length_eq ?_)
  refine (List.perm_ext_iff_of_nodup (h.nodup_live.sublist hsub) (h.nodup_live.filter _)).mpr
    fun i => ⟨hkept.mem, fun hi => ?_⟩
  exact of_decide_eq_true (List.mem_filter.mp hi).2

theorem Changed.live_of_below {r : Kind → Kind → Prop} (hx : Changed r g x)
    (hr : ∀ {k k'}, r k k' → k'.children.Sublist k.children) (h : g.IsTree) {d : Nat}
    (hi : i ∈ g.live) (hd : g.Below i d j) (hj : j ∈ x.live) : i ∈ x.live := by
  induction hd with
  | refl => exact hj
  | @step d p j hp hpj ih =>
    have hpar := h.parent_child p (h.live_of_below hi hp) j hpj
    rw [← hx.parent] at hpar
    exact ih ((hx.isTree hr h).parent_live hj hpar).1

end ShaderScript.Graph
