import Mathlib.Data.List.Nodup
import Mathlib.Data.List.Pairwise
import Mathlib.Data.List.Perm.Basic
import ShaderScript.Proofs.Graph.Link

/-!
# Pre-order

A walk needs no tree. It comes to an end as long as no reference leads back to where it came from,
and a node with several holders is then listed once for each way that leads to it.

* `Graph.Below.mem_descendants`: what lies below a node is among its descendants, in every graph.
* `Graph.Loopless`, `Graph.IsDag`: no node lies below itself, below one node and anywhere.
* `Graph.Loopless.depth_lt`: no way down is longer than there are nodes.
* `Graph.walk_perm`: a walk lists its start and the children of all that it lists.
* `Graph.UnsharedBelow`: no node below a node has two places there.
* **`Graph.IsDag.nodup_descendants_iff`**: just then a walk lists every node once.
-/

namespace ShaderScript.Graph

variable {g g' : Graph} {i j c c' : Id} {d e n : Nat}

/-! ## What a walk comes to -/

theorem Below.lt_size (hr : ∀ {i c}, c ∈ g.children i → c < g.size) (hd : g.Below i d j)
    (hi : i < g.size) : j < g.size := by
  cases hd with
  | refl => exact hi
  | step _ hc => exact hr hc

theorem Below.split (h : g.Below i d j) (he : e ≤ d) :
    ∃ k, g.Below i e k ∧ g.Below k (d - e) j := by
  induction d generalizing j with
  | zero =>
    obtain rfl := Nat.le_zero.mp he
    exact ⟨i, .refl, h⟩
  | succ d ih =>
    rcases Nat.lt_or_ge d e with hlt | hge
    · obtain rfl : e = d + 1 := by omega
      exact ⟨j, h, by rw [Nat.sub_self]; exact .refl⟩
    · cases h with
      | step h hc =>
        obtain ⟨k, hk, hrest⟩ := ih h hge
        exact ⟨k, hk, by rw [Nat.sub_add_comm hge]; exact .step hrest hc⟩

/-- What lies below a node is among its descendants, however many places nodes have: a path that
goes nowhere twice has room in the walk. -/
theorem Below.mem_descendants (hd : g.Below i d j) (hj : j < g.size) :
    j ∈ g.descendants i := by
  classical
  have hex : ∃ d, g.Below i d j := ⟨d, hd⟩
  have hmin := fun {m : Nat} => Nat.find_min hex (m := m)
  refine mem_walk.mpr ⟨Nat.find hex, ?_, Nat.find_spec hex⟩
  have hnode : ∀ e : Fin (Nat.find hex + 1), ∃ k : Fin g.size,
      g.Below i e k ∧ g.Below k (Nat.find hex - e) j := fun e => by
    obtain ⟨k, hk, hrest⟩ := (Nat.find_spec hex).split (Nat.le_of_lt_succ e.isLt)
    have hlt : k < g.size := by
      cases hr : Nat.find hex - (e : Nat) with
      | zero =>
        rw [hr] at hrest
        cases hrest
        exact hj
      | succ n =>
        rw [hr] at hrest
        obtain ⟨c, hc, -⟩ := hrest.uncons
        exact lt_size_of_mem_children hc
    exact ⟨⟨k, hlt⟩, hk, hrest⟩
  choose node hbelow using hnode
  -- a node at two depths of the path would make it shorter
  have hle : ∀ a b : Fin (Nat.find hex + 1), node a = node b → (b : Nat) ≤ a := fun a b hab => by
    by_contra hlt
    have hshort := (hbelow a).1.trans (hab ▸ (hbelow b).2)
    exact hmin (by omega) hshort
  have hinj : Function.Injective node := fun a b hab =>
    Fin.ext (le_antisymm (hle b a hab.symm) (hle a b hab))
  have hcard := Fintype.card_le_of_injective node hinj
  rwa [Fintype.card_fin, Fintype.card_fin] at hcard

theorem walk_eq_of_le {m : Nat} (hn : ∀ d j, g.Below i d j → d < n) (hm : n ≤ m) :
    g.walk m i = g.walk n i := by
  induction n generalizing m i with
  | zero => exact absurd (hn 0 i .refl) (Nat.not_lt_zero 0)
  | succ n ih =>
    obtain ⟨m, rfl⟩ := Nat.exists_eq_add_of_le' (Nat.one_le_of_lt hm)
    unfold walk
    refine congrArg (i :: ·) (List.flatMap_congr fun c hc => ?_)
    exact ih (fun d j hd => Nat.lt_of_succ_lt_succ (hn (d + 1) j (hd.cons hc)))
      (Nat.le_of_succ_le_succ hm)

/-- Where a walk comes to an end before its depth is used up, the descendants of a node are those of
its children, after it. -/
theorem descendants_eq_of_depth_lt (h : ∀ d j, g.Below i d j → d < g.size) :
    g.descendants i = i :: (g.children i).flatMap g.descendants := by
  unfold descendants
  obtain ⟨n, hn⟩ := Nat.exists_eq_add_of_le' (Nat.one_le_of_lt (h 0 i .refl))
  conv_lhs => rw [hn, walk]
  refine congrArg (i :: ·) (List.flatMap_congr fun c hc => ?_)
  refine (walk_eq_of_le (fun d j hd => ?_) (by omega)).symm
  have := h (d + 1) j (hd.cons hc)
  omega

/-! ## Graphs without cycles -/

/-- No node that a walk from `i` comes to lies below itself. -/
def Loopless (g : Graph) (i : Id) : Prop := ∀ ⦃d j⦄, g.Below i d j → ∀ e, ¬g.Below j (e + 1) j

/-- Every reference is to a node of the graph, and no node lies below itself. This goes for loose
nodes as well, and nodes may have several holders. -/
structure IsDag (g : Graph) : Prop where
  child_lt : ∀ {i c}, c ∈ g.children i → c < g.size
  loopless : ∀ i, g.Loopless i

theorem Loopless.child (h : g.Loopless i) (hc : c ∈ g.children i) : g.Loopless c :=
  fun _ _ hd => h (hd.cons hc)

theorem Loopless.notMem_walk_child (h : g.Loopless i) (hc : c ∈ g.children i) :
    i ∉ g.walk n c := fun hi =>
  let ⟨e, _, he⟩ := mem_walk.mp hi
  h .refl e (he.cons hc)

theorem loopless_of_acc (h : Acc (fun c p => c ∈ g.children p) i) : g.Loopless i := by
  intro d j hd
  have hj : Acc (fun c p => c ∈ g.children p) j := by
    induction hd with
    | refl => exact h
    | step _ hc ih => exact ih.inv hc
  clear hd
  induction hj with
  | intro j _ ih =>
    intro e he
    obtain ⟨c, hc, he⟩ := he.uncons
    exact ih c hc e (he.step hc)

section InRange

variable (hr : ∀ {d j}, g.Below i d j → j < g.size)

include hr

theorem mem_descendants_iff_below : j ∈ g.descendants i ↔ ∃ d, g.Below i d j :=
  ⟨fun hj => let ⟨d, _, hd⟩ := mem_walk.mp hj; ⟨d, hd⟩, fun ⟨_, hd⟩ => hd.mem_descendants (hr hd)⟩

theorem Loopless.descendants_ssubset (h : g.Loopless i) (hc : c ∈ g.children i) :
    (g.descendants c).toFinset ⊂ (g.descendants i).toFinset := by
  have hsub : (g.descendants c).toFinset ⊆ (g.descendants i).toFinset := fun j hj => by
    rw [List.mem_toFinset] at hj ⊢
    obtain ⟨d, -, hd⟩ := mem_walk.mp hj
    exact (mem_descendants_iff_below hr).mpr ⟨d + 1, hd.cons hc⟩
  refine (Finset.ssubset_iff_of_subset hsub).mpr ⟨i, ?_, fun hi => ?_⟩
  · exact List.mem_toFinset.mpr (Below.refl.mem_descendants (hr .refl))
  · exact h.notMem_walk_child hc (List.mem_toFinset.mp hi)

/-- **Where no node lies below itself, no way down is longer than there are nodes.** -/
theorem Loopless.depth_lt (h : g.Loopless i) (hd : g.Below i d j) : d < g.size := by
  have hcard : d < (g.descendants i).toFinset.card := by
    induction d generalizing i with
    | zero =>
      have hi := Below.refl.mem_descendants (hr .refl)
      exact Finset.card_pos.mpr ⟨i, List.mem_toFinset.mpr hi⟩
    | succ d ih =>
      obtain ⟨c, hc, hd⟩ := hd.uncons
      have hfewer := Finset.card_lt_card (h.descendants_ssubset hr hc)
      exact (Nat.succ_le_of_lt (ih (fun hd => hr (hd.cons hc)) (h.child hc) hd)).trans_lt hfewer
  have hsub : (g.descendants i).toFinset ⊆ Finset.range g.size := fun k hk => by
    obtain ⟨e, -, he⟩ := mem_walk.mp (List.mem_toFinset.mp hk)
    exact Finset.mem_range.mpr (hr he)
  exact hcard.trans_le ((Finset.card_le_card hsub).trans_eq (Finset.card_range _))

end InRange

namespace IsDag

variable (h : g.IsDag)

include h

theorem lt_size_of_below (hi : i < g.size) (hd : g.Below i d j) : j < g.size :=
  hd.lt_size h.child_lt hi

theorem depth_lt (hi : i < g.size) (hd : g.Below i d j) : d < g.size :=
  (h.loopless i).depth_lt (h.lt_size_of_below hi) hd

/-- **The walk is recursive.** It lists a node and then what the walks from its children list. -/
theorem descendants_eq (hi : i < g.size) :
    g.descendants i = i :: (g.children i).flatMap g.descendants :=
  descendants_eq_of_depth_lt fun _ _ => h.depth_lt hi

theorem sameShape (hs : SameShape g g') : g'.IsDag where
  child_lt hc := hs.size ▸ h.child_lt (hs.children _ ▸ hc)
  loopless i _ _ hd e he := h.loopless i (hs.below hd) e (hs.below he)

end IsDag

theorem isDag_iff (g : Graph) : g.IsDag ↔
    ∀ i < g.size, ∀ c ∈ g.children i, c < g.size ∧ i ∉ g.descendants c := by
  constructor
  · exact fun h i _ c hc => ⟨h.child_lt hc, (h.loopless i).notMem_walk_child hc⟩
  · intro h
    have hlt : ∀ {i c}, c ∈ g.children i → c < g.size := fun hc =>
      (h _ (lt_size_of_mem_children hc) _ hc).1
    refine ⟨hlt, fun i d j _ e he => ?_⟩
    obtain ⟨c, hc, he⟩ := he.uncons
    have hj := lt_size_of_mem_children hc
    exact (h j hj c hc).2 (he.mem_descendants hj)

instance (g : Graph) : Decidable g.IsDag := decidable_of_iff _ (isDag_iff g).symm

/-! ## What a walk lists -/

/-- **A walk lists its start and the children of all that it lists**, as often as they have holders
there. -/
theorem walk_perm (hn : ∀ d j, g.Below i d j → d < n) :
    (g.walk n i).Perm (i :: (g.walk n i).flatMap g.children) := by
  induction n generalizing i with
  | zero => exact absurd (hn 0 i .refl) (Nat.not_lt_zero 0)
  | succ n ih =>
    have hchild : ∀ c ∈ g.children i, (g.walk n c).Perm ([c] ++ (g.walk n c).flatMap g.children) :=
      fun c hc => ih fun d j hd => Nat.lt_of_succ_lt_succ (hn (d + 1) j (hd.cons hc))
    unfold walk
    rw [List.flatMap_cons, List.flatMap_assoc]
    refine .cons _ ((List.Perm.flatMap_left _ hchild).trans ?_)
    refine (List.flatMap_append_perm _ _ _).symm.trans ?_
    rw [List.flatMap_singleton']

/-- No node below `i` has two places there. -/
structure UnsharedBelow (g : Graph) (i : Id) : Prop where
  children_nodup : ∀ {d p}, g.Below i d p → (g.children p).Nodup
  holder_unique : ∀ {d e p q c}, g.Below i d p → g.Below i e q → c ∈ g.children p →
    c ∈ g.children q → p = q

namespace UnsharedBelow

variable (h : g.UnsharedBelow i)

include h

theorem child (hc : c ∈ g.children i) : g.UnsharedBelow c :=
  ⟨fun hd => h.children_nodup (hd.cons hc),
    fun hd he => h.holder_unique (hd.cons hc) (he.cons hc)⟩

theorem child_unique (hl : g.Loopless i) (hc : c ∈ g.children i) (hc' : c' ∈ g.children i)
    (hd : g.Below c d j) (he : g.Below c' e j) : c = c' := by
  -- up from the node the two ways have the same holders, and neither comes past `i`
  induction d generalizing e j with
  | zero =>
    cases hd
    cases he with
    | refl => rfl
    | step hq hcq =>
      obtain rfl := h.holder_unique .refl (hq.cons hc') hc hcq
      exact absurd (hq.cons hc') (hl .refl _)
  | succ d ih =>
    cases hd with
    | step hp hpj =>
      cases he with
      | refl =>
        obtain rfl := h.holder_unique .refl (hp.cons hc) hc' hpj
        exact absurd (hp.cons hc) (hl .refl _)
      | step hq hqj =>
        obtain rfl := h.holder_unique (hp.cons hc) (hq.cons hc') hpj hqj
        exact ih hp hq

theorem nodup_walk (hl : g.Loopless i) (n : Nat) : (g.walk n i).Nodup := by
  induction n generalizing i with
  | zero => exact List.nodup_nil
  | succ n ih =>
    unfold walk
    refine List.nodup_cons.mpr ⟨fun hmem => ?_, List.nodup_flatMap.mpr ⟨fun c hc => ?_, ?_⟩⟩
    · obtain ⟨c, hc, hmem⟩ := List.mem_flatMap.mp hmem
      exact hl.notMem_walk_child hc hmem
    · exact ih (h.child hc) (hl.child hc)
    · refine (h.children_nodup .refl).pairwise_of_forall_ne fun a ha b hb hab => ?_
      intro j hja hjb
      obtain ⟨d, -, hd⟩ := mem_walk.mp hja
      obtain ⟨e, -, he⟩ := mem_walk.mp hjb
      exact hab (h.child_unique hl ha hb hd he)

end UnsharedBelow

/-- **A walk lists every node once just where no node has two places.** -/
theorem IsDag.nodup_descendants_iff (h : g.IsDag) (hi : i < g.size) :
    (g.descendants i).Nodup ↔ g.UnsharedBelow i := by
  refine ⟨fun hnodup => ?_, fun hu => hu.nodup_walk (h.loopless i) g.size⟩
  have hmem : ∀ {d p}, g.Below i d p → p ∈ g.descendants i := fun hd =>
    (mem_descendants_iff_below (h.lt_size_of_below hi)).mpr ⟨_, hd⟩
  have hperm : (g.descendants i).Perm (i :: (g.descendants i).flatMap g.children) :=
    walk_perm fun _ _ => h.depth_lt hi
  obtain ⟨-, hheld⟩ := List.nodup_cons.mp (hperm.nodup_iff.mp hnodup)
  obtain ⟨hchildren, hapart⟩ := List.nodup_flatMap.mp hheld
  refine ⟨fun hd => hchildren _ (hmem hd), fun {d e p q c} hd he hc hc' => ?_⟩
  by_contra hne
  have : Std.Symm (Function.onFun List.Disjoint g.children) := ⟨fun _ _ hab => hab.symm⟩
  exact hapart.forall (hmem hd) (hmem he) hne hc hc'

end ShaderScript.Graph
