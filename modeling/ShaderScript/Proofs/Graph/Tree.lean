import Mathlib.Data.Fintype.Card
import ShaderScript.Graph.Walk

/-!
# Programs that are trees

A program that comes from a document is a tree: no node has two places, and every node knows the
node that holds it. Passes walk down such a program by children and up by parents, and the two
walks see the same nodes.

* `Graph.IsTree`: the program is a tree and its parents are linked.
* `Graph.Below`: one node lies a number of steps below another.
* `Graph.IsTree.depth_lt`: no node lies deeper than the number of nodes, so the walks that are
  bounded by it miss nothing (`Graph.IsTree.mem_live_iff`).
* `Graph.IsTree.child_live`, `Graph.IsTree.parent_live`: one step down and one step up.
* **`Graph.IsTree.mem_descendants`**: what is found on the way up is found again on the way down.
-/

namespace ShaderScript.Graph

/-- The nodes of the program form a tree, and each is linked to the node that holds it. -/
structure IsTree (g : Graph) : Prop where
  root_lt : g.root < g.size
  child_lt : ∀ i ∈ g.live, ∀ c ∈ g.children i, c < g.size
  children_nodup : ∀ i ∈ g.live, (g.children i).Nodup
  parent_root : g.parent? g.root = none
  parent_child : ∀ i ∈ g.live, ∀ c ∈ g.children i, g.parent? c = some i

theorem isTree_iff (g : Graph) : g.IsTree ↔ g.root < g.size ∧ g.parent? g.root = none ∧
    ∀ i ∈ g.live, (g.children i).Nodup ∧ ∀ c ∈ g.children i, c < g.size ∧ g.parent? c = some i :=
  ⟨fun h => ⟨h.root_lt, h.parent_root, fun i hi =>
      ⟨h.children_nodup i hi, fun c hc => ⟨h.child_lt i hi c hc, h.parent_child i hi c hc⟩⟩⟩,
    fun ⟨h₁, h₂, h₃⟩ => ⟨h₁, fun i hi c hc => ((h₃ i hi).2 c hc).1, fun i hi => (h₃ i hi).1, h₂,
      fun i hi c hc => ((h₃ i hi).2 c hc).2⟩⟩

instance (g : Graph) : Decidable g.IsTree := decidable_of_iff _ (isTree_iff g).symm

/-- Node `j` lies `d` steps below node `i`. -/
inductive Below (g : Graph) (i : Id) : Nat → Id → Prop
  | refl : Below g i 0 i
  | step {d : Nat} {j c : Id} : Below g i d j → c ∈ g.children j → Below g i (d + 1) c

variable {g : Graph}

namespace Below

theorem cons {i c j : Id} {d : Nat} (hc : c ∈ g.children i) (h : g.Below c d j) :
    g.Below i (d + 1) j := by
  induction h with
  | refl => exact .step .refl hc
  | step _ hj ih => exact .step ih hj

theorem uncons {i j : Id} {d : Nat} (h : g.Below i (d + 1) j) :
    ∃ c ∈ g.children i, g.Below c d j := by
  induction d generalizing j with
  | zero =>
    cases h with
    | step h hj =>
      cases h
      exact ⟨j, hj, .refl⟩
  | succ d ih =>
    cases h with
    | step h hj =>
      obtain ⟨c, hc, hd⟩ := ih h
      exact ⟨c, hc, .step hd hj⟩

theorem trans {i j k : Id} {d e : Nat} (h : g.Below i d j) (h' : g.Below j e k) :
    g.Below i (d + e) k := by
  induction h' with
  | refl => exact h
  | step _ hc ih => exact .step ih hc

theorem exists_of_le {i j : Id} {d e : Nat} (h : g.Below i d j) (he : e ≤ d) :
    ∃ k, g.Below i e k := by
  induction h with
  | refl => exact ⟨i, by rw [Nat.le_zero.mp he]; exact .refl⟩
  | @step d j c h hc ih =>
    rcases Nat.lt_or_ge e (d + 1) with hlt | hge
    · exact ih (Nat.le_of_lt_succ hlt)
    · exact ⟨c, by rw [Nat.le_antisymm he hge]; exact .step h hc⟩

end Below

theorem mem_functions {f : Id} : f ∈ g.functions ↔ f ∈ g.body ∧ g.isFunction f = true :=
  List.mem_filter

theorem body_subset_children {i : Id} (hi : i ∈ g.body) : i ∈ g.children g.root := by
  unfold body at hi
  unfold children
  cases hk : g.kind g.root <;> rw [hk] at hi <;> first | exact hi | cases hi

theorem mem_walk {n : Nat} {i j : Id} : j ∈ g.walk n i ↔ ∃ d < n, g.Below i d j := by
  induction n generalizing i with
  | zero => simp [walk]
  | succ n ih =>
    simp only [walk, List.mem_cons, List.mem_flatMap, ih]
    constructor
    · rintro (rfl | ⟨c, hc, d, hd, h⟩)
      · exact ⟨0, n.succ_pos, .refl⟩
      · exact ⟨d + 1, Nat.succ_lt_succ hd, h.cons hc⟩
    · rintro ⟨d, hd, h⟩
      cases d with
      | zero => cases h; exact .inl rfl
      | succ d =>
        obtain ⟨c, hc, h⟩ := h.uncons
        exact .inr ⟨c, hc, d, Nat.lt_of_succ_lt_succ hd, h⟩

namespace IsTree

variable (h : g.IsTree)

include h

theorem depth_unique {d e : Nat} {j : Id} (hd : g.Below g.root d j) (he : g.Below g.root e j)
    (hds : d ≤ g.size) (hes : e ≤ g.size) : d = e := by
  have live : ∀ {d p}, g.Below g.root d p → d < g.size → p ∈ g.live := fun hp hlt =>
    mem_walk.mpr ⟨_, hlt, hp⟩
  induction d generalizing e j with
  | zero =>
    cases hd
    cases he with
    | refl => rfl
    | step hp hc =>
      have := h.parent_child _ (live hp hes) _ hc
      rw [h.parent_root] at this
      cases this
  | succ d ih =>
    cases hd with
    | step hp hc =>
      have hpar := h.parent_child _ (live hp hds) _ hc
      cases he with
      | refl => rw [h.parent_root] at hpar; cases hpar
      | step hq hc' =>
        have hpar' := h.parent_child _ (live hq hes) _ hc'
        rw [hpar] at hpar'
        cases hpar'
        rw [ih hp hq (by omega) (by omega)]

theorem lt_size_of_below {d : Nat} {j : Id} (hd : g.Below g.root d j) (hds : d ≤ g.size) :
    j < g.size := by
  cases hd with
  | refl => exact h.root_lt
  | step hp hc => exact h.child_lt _ (mem_walk.mpr ⟨_, hds, hp⟩) _ hc

/-- **No node lies deeper than the number of nodes.** -/
theorem depth_lt {d : Nat} {j : Id} (hd : g.Below g.root d j) : d < g.size := by
  by_contra hge
  -- One node for each depth up to the size: more nodes than there are, and no two equal.
  have hnode : ∀ e : Fin (g.size + 1), ∃ k : Fin g.size, g.Below g.root e k := fun e => by
    have he : (e : Nat) ≤ g.size := Nat.le_of_lt_succ e.isLt
    obtain ⟨k, hk⟩ := hd.exists_of_le (he.trans (not_lt.mp hge))
    exact ⟨⟨k, h.lt_size_of_below hk he⟩, hk⟩
  choose node hbelow using hnode
  have hinj : Function.Injective node := fun a b hab => by
    refine Fin.ext (h.depth_unique (hbelow a) ?_ (by omega) (by omega))
    rw [hab]
    exact hbelow b
  have hcard := Fintype.card_le_of_injective node hinj
  rw [Fintype.card_fin, Fintype.card_fin] at hcard
  omega

theorem mem_live_iff {i : Id} : i ∈ g.live ↔ ∃ d, g.Below g.root d i :=
  ⟨fun hi => let ⟨d, _, hd⟩ := mem_walk.mp hi; ⟨d, hd⟩,
    fun ⟨_, hd⟩ => mem_walk.mpr ⟨_, h.depth_lt hd, hd⟩⟩

theorem root_live : g.root ∈ g.live := h.mem_live_iff.mpr ⟨0, .refl⟩

theorem lt_size {i : Id} (hi : i ∈ g.live) : i < g.size := by
  obtain ⟨d, hd⟩ := h.mem_live_iff.mp hi
  exact h.lt_size_of_below hd (h.depth_lt hd).le

theorem child_live {i c : Id} (hi : i ∈ g.live) (hc : c ∈ g.children i) : c ∈ g.live := by
  obtain ⟨d, hd⟩ := h.mem_live_iff.mp hi
  exact h.mem_live_iff.mpr ⟨d + 1, .step hd hc⟩

theorem parent_live {i p : Id} (hi : i ∈ g.live) (hp : g.parent? i = some p) :
    p ∈ g.live ∧ i ∈ g.children p := by
  obtain ⟨d, hd⟩ := h.mem_live_iff.mp hi
  cases hd with
  | refl => rw [h.parent_root] at hp; cases hp
  | @step d q _ hq hc =>
    have hql : q ∈ g.live := h.mem_live_iff.mpr ⟨d, hq⟩
    rw [h.parent_child q hql i hc] at hp
    cases hp
    exact ⟨hql, hc⟩

theorem live_of_below {i j : Id} {d : Nat} (hi : i ∈ g.live) (hd : g.Below i d j) :
    j ∈ g.live := by
  obtain ⟨e, he⟩ := h.mem_live_iff.mp hi
  exact h.mem_live_iff.mpr ⟨e + d, he.trans hd⟩

theorem mem_descendants_iff {i j : Id} (hi : i ∈ g.live) :
    j ∈ g.descendants i ↔ ∃ d, g.Below i d j := by
  obtain ⟨e, he⟩ := h.mem_live_iff.mp hi
  constructor
  · intro hj
    obtain ⟨d, _, hd⟩ := mem_walk.mp hj
    exact ⟨d, hd⟩
  · rintro ⟨d, hd⟩
    have := h.depth_lt (he.trans hd)
    exact mem_walk.mpr ⟨d, by omega, hd⟩

theorem climb_below {n : Nat} {i a : Id} {p : Option Id} (hi : i ∈ g.live)
    (hp : g.parent? i = p) (ha : a ∈ g.climb n p) : a ∈ g.live ∧ ∃ d, g.Below a (d + 1) i := by
  induction n generalizing i p with
  | zero => simp [climb] at ha
  | succ n ih =>
    cases p with
    | none => simp [climb] at ha
    | some p =>
      obtain ⟨hpl, hc⟩ := h.parent_live hi hp
      simp only [climb, List.mem_cons] at ha
      rcases ha with rfl | ha
      · exact ⟨hpl, 0, .step .refl hc⟩
      · obtain ⟨hal, d, hd⟩ := ih hpl rfl ha
        exact ⟨hal, d + 1, .step hd hc⟩

theorem body_live {i : Id} (hi : i ∈ g.body) : i ∈ g.live :=
  h.child_live h.root_live (body_subset_children hi)

theorem ancestor_below {i a : Id} (hi : i ∈ g.live) (ha : a ∈ g.ancestors i) :
    a ∈ g.live ∧ ∃ d, g.Below a (d + 1) i := h.climb_below hi rfl ha

/-- **A node is a descendant of everything on the way up from it.** -/
theorem mem_descendants {i a : Id} (hi : i ∈ g.live) (ha : a ∈ g.ancestors i) :
    i ∈ g.descendants a := by
  obtain ⟨hal, d, hd⟩ := h.ancestor_below hi ha
  exact (h.mem_descendants_iff hal).mpr ⟨d + 1, hd⟩

end IsTree

end ShaderScript.Graph
